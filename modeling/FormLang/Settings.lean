import FormLang.Files.Path
import FormLang.Text.Blank
import FormLang.Value.Basic

/-!
# FormLang — settings

Two settings come as text from the surroundings of the program: whether `cond` is strict, and where
definitions are loaded from.
-/

namespace FormLang

/-- The settings as they are given; `none` where they are not. -/
structure Settings where
  strictCond : Option String
  preludePath : Option String
  /-- The name by which the directory of the installed program is shown. -/
  home : String

namespace Settings

/-- A flag is on when its text is one of four words, in any case. -/
def isOn (raw : String) : Bool :=
  let word := String.ofList ((Text.strip raw).toList.map Char.toLower)
  ["1", "true", "yes", "on"].contains word

/-- `cond` is lenient unless the setting is on. -/
def strict (settings : Settings) : Bool :=
  settings.strictCond.any isOn

/-- The switches of an evaluation, strict as given, else as set. -/
def options (settings : Settings) (strict : Option Bool) : Options :=
  ⟨strict.getD settings.strict⟩

/-- The paths between colons; blanks around them do not count, nor do empty ones. -/
def pathList (raw : String) : List Path :=
  (((Text.split ':' raw).map Text.strip).filter (· ≠ "")).map Path.ofString

/-- Where definitions are loaded from: the paths that are set, else the program's own. -/
def roots (settings : Settings) : List Path :=
  match settings.preludePath with
  | none | some "" => [⟨.home settings.home, ["prelude"]⟩]
  | some raw => pathList raw

end Settings

end FormLang
