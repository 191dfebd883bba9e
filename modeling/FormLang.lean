import FormLang.Eval.Fuel
import FormLang.HostTools
import FormLang.Printer
import FormLang.Proofs.Aliases
import FormLang.Proofs.Alike.Forms
import FormLang.Proofs.Alike.Log
import FormLang.Proofs.Alike.Rebase
import FormLang.Proofs.Alike.Renaming
import FormLang.Proofs.Alike.Runs
import FormLang.Proofs.Alike.Sessions
import FormLang.Proofs.Alike.Sim
import FormLang.Proofs.Alike.Standard
import FormLang.Proofs.Alike.Values
import FormLang.Proofs.Arguments
import FormLang.Proofs.Binding
import FormLang.Proofs.Calls
import FormLang.Proofs.Conditionals
import FormLang.Proofs.Congruence
import FormLang.Proofs.Datum
import FormLang.Proofs.Definitions
import FormLang.Proofs.Dispatch
import FormLang.Proofs.Environment
import FormLang.Proofs.Equality
import FormLang.Proofs.Equivalence
import FormLang.Proofs.Frames
import FormLang.Proofs.Hereditary
import FormLang.Proofs.Inside
import FormLang.Proofs.LetFrames
import FormLang.Proofs.Lines
import FormLang.Proofs.Macros
import FormLang.Proofs.Mentions
import FormLang.Proofs.Moments
import FormLang.Proofs.Order
import FormLang.Proofs.Passing
import FormLang.Proofs.Paths
import FormLang.Proofs.Quasiquote
import FormLang.Proofs.Reading.Atoms
import FormLang.Proofs.Reading.Printed
import FormLang.Proofs.Resolution
import FormLang.Proofs.Selection
import FormLang.Proofs.Session.Captured
import FormLang.Proofs.Session.History
import FormLang.Proofs.Session.NestedLet
import FormLang.Proofs.Session.Preludes
import FormLang.Proofs.Strictness
import FormLang.Proofs.Tags.Names
import FormLang.Proofs.Tags.Runs
import FormLang.Proofs.Tags.Values
import FormLang.Proofs.Templates
import FormLang.Proofs.Termination.Nesting
import FormLang.Proofs.Termination.Runs
import FormLang.Proofs.Weakening
import FormLang.Session
import FormLang.Value.Copy
