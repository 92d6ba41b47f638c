import AtomLisp.Text.Quoted
import AtomLisp.Value

/-!
# Values as a developer sees them

Unlike the text that a program prints, `Value.inspect` tells an atom with an odd text from a list,
and shows what a closure consists of.
-/

namespace AtomLisp

/-- Items in square brackets, separated by commas. -/
def bracketed (items : List String) : String :=
  "[" ++ String.intercalate ", " items ++ "]"

/-- A name as part of a larger structure. -/
def inspectName (name : String) : String :=
  "Symbol \x7b name: " ++ Text.quoted name ++ " \x7d"

/-- A name that may be missing. -/
def inspectName? : Option String → String
  | some name => "Some(" ++ inspectName name ++ ")"
  | none => "None"

namespace Value

mutual

/-- The structure of a value: atoms quoted, lists in brackets, operations by their label, closures
with name, parameters and body. -/
def inspect : Value → String
  | .atom text => Text.quoted text
  | .list items => bracketed (inspectAll items)
  | .builtin op => op.label
  | .closure head body =>
    "Closure \x7b name: " ++ inspectName? head.name
      ++ ", params: " ++ bracketed (head.params.map inspectName)
      ++ ", body: " ++ bracketed (inspectAll body) ++ " \x7d"

/-- The structure of each value. -/
def inspectAll : List Value → List String
  | [] => []
  | x :: xs => inspect x :: inspectAll xs

end

theorem inspect_list (items : List Value) : inspect (.list items) = bracketed (inspectAll items) :=
  rfl

theorem inspect_closure (head : ClosureHead) (body : List Value) :
    inspect (.closure head body) =
      "Closure \x7b name: " ++ inspectName? head.name
        ++ ", params: " ++ bracketed (head.params.map inspectName)
        ++ ", body: " ++ bracketed (inspectAll body) ++ " \x7d" :=
  rfl

end Value

end AtomLisp
