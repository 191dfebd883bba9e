import FormLang.Host

/-!
# FormLang — a small host

Eight functions that a host program may offer: they join texts, hand their arguments back in
various ways, call a callable, and fail.
-/

namespace FormLang

/-- The texts that all of the values are. -/
def textsOf? : List Value → Option (List String)
  | [] => some []
  | .text s :: rest => (textsOf? rest).map (s :: ·)
  | _ :: _ => none

/-- The functions of the small host. -/
def hostTools : Host := fun name args =>
  match name with
  | "concat" =>
    match textsOf? args with
    | some texts => .value (.text (String.join texts))
    | none => .failure "concat expects strings"
  | "list" => .value (.list args)
  | "quoted" => .value (.mapping [("$", .list args)])
  | "count" => .value (.int args.length)
  | "first" => .value (args.head?.getD .undefined)
  | "second" => .value (args[1]?.getD .undefined)
  | "call" =>
    match args with
    | fn :: rest =>
      if fn.isCallable then .call fn rest .ofOutcome else .failure "call expects a callable"
    | [] => .failure "call expects a callable"
  | "fail" => .failure "host failure"
  | _ => .failure ("no function " ++ name)

end FormLang
