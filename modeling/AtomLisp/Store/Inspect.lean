import AtomLisp.Store
import AtomLisp.Value.Inspect
import AtomLisp.Value.Render

/-!
# Scopes as a developer sees them

The bindings of one scope, in the order in which their names were first bound, each with the short
text of its value.
-/

namespace AtomLisp

/-- What a binding is shown as: a value by its short text, a weakly held closure by its name. -/
def Binding.inspect : Binding → String
  | .value v => v.short
  | .weak head _ => inspectName? head.name

/-- The names bound in scope `s`, each with what it is bound to. -/
def Store.inspect (st : Store) (s : ScopeId) : String :=
  let entries := match st.scopes[s]? with
    | some scope => scope.bindings.entries
    | none => []
  let shown := entries.map fun (name, binding) => name ++ ": " ++ binding.inspect
  "Environment \x7b" ++ String.intercalate ", " shown ++ "\x7d"

end AtomLisp
