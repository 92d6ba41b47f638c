import AtomLisp.Bindings
import AtomLisp.Value

/-!
# The store of scopes

A scope binds names and may have a parent. A name is looked up along the chain from a scope to its
root; what no scope of the chain answers is a builtin operation or stands for itself.

A closure bound in the very scope it captured is held weakly: the binding alone does not keep that
scope alive, and it answers only as long as the scope is live. Scopes are never removed from the
store; `Store.release` marks one as no longer live.
-/

namespace AtomLisp

/-- What a name is bound to: a value, or a closure that is held weakly. -/
inductive Binding where
  | value (v : Value)
  | weak (head : ClosureHead) (body : List Value)

namespace Binding

/-- How `v` is held when it is bound in scope `s`: weakly if it is a closure that captured `s`
itself, else as a value. -/
def hold (s : ScopeId) : Value → Binding
  | .closure head body => if head.scope = s then weak head body else value (.closure head body)
  | v => value v

/-- The value that was bound, however it is held. -/
def held : Binding → Value
  | value v => v
  | weak head body => .closure head body

/-- However a value is held, it is the value that was bound. -/
@[simp] theorem held_hold (s : ScopeId) (v : Value) : (hold s v).held = v := by
  cases v with
  | closure head body => by_cases h : head.scope = s <;> simp [hold, held, h]
  | _ => rfl

end Binding

/-- A scope: the scope around it, unless it is a root, and its own bindings. -/
structure Scope where
  parent : Option ScopeId
  bindings : Bindings Binding := ∅
  live : Bool := true

/-- All scopes made so far, at the places of their numbers, and the number of closures made. -/
structure Store where
  scopes : Array Scope := #[]
  closures : Nat := 0

namespace Store

/-- The scope around `s`. -/
def parent? (st : Store) (s : ScopeId) : Option ScopeId :=
  st.scopes[s]?.bind Scope.parent

/-- Is there such a scope, and has it not been released? -/
def isLive (st : Store) (s : ScopeId) : Bool :=
  st.scopes[s]?.any Scope.live

/-- The scope `s` and all scopes around it, the innermost first. A parent is older than its
children, so the chain ends. -/
def chain (st : Store) (s : ScopeId) : List ScopeId :=
  s :: match st.parent? s with
    | some p => if p < s then st.chain p else []
    | none => []
termination_by s

/-- What `name` is bound to in this very scope. -/
def binding? (st : Store) (s : ScopeId) (name : String) : Option Binding :=
  st.scopes[s]?.bind fun scope => scope.bindings.get? name

/-- What a binding answers. A weakly held closure answers only while its scope is live. -/
def resolve (st : Store) : Binding → Option Value
  | .value v => some v
  | .weak head body => if st.isLive head.scope then some (.closure head body) else none

/-- The answer of the first scope of the chain that has one. -/
def find? (st : Store) (s : ScopeId) (name : String) : Option Value :=
  (st.chain s).findSome? fun t => (st.binding? t name).bind st.resolve

/-- What a name without a binding stands for: the builtin operation of that name, else itself. -/
def unbound (name : String) : Value :=
  match Builtin.ofName? name with
  | some op => .builtin op
  | none => .atom name

/-- What a name stands for in scope `s`. -/
def lookup (st : Store) (s : ScopeId) (name : String) : Value :=
  (st.find? s name).getD (unbound name)

/-- Is the name bound in this very scope? -/
def isBound (st : Store) (s : ScopeId) (name : String) : Bool :=
  (st.binding? s name).isSome

/-- The names bound in this very scope. -/
def scopeKeys (st : Store) (s : ScopeId) : List String :=
  match st.scopes[s]? with
  | some scope => scope.bindings.keys
  | none => []

/-- The names bound in each scope of the chain, and those of the builtin operations. A name that
several scopes bind is listed once for each. -/
def keys (st : Store) (s : ScopeId) : List String :=
  (st.chain s).flatMap st.scopeKeys ++ Builtin.names

/-- Set the binding of `name` in scope `s`, in place of the one it had there. -/
def bind (st : Store) (s : ScopeId) (name : String) (binding : Binding) : Store where
  scopes := st.scopes.modify s fun scope =>
    { scope with bindings := scope.bindings.insert name binding }
  closures := st.closures

/-- Bind `name` to a value in scope `s`. A closure without a name is bound under this one, see
`Value.named`. -/
def define (st : Store) (s : ScopeId) (name : String) (v : Value) : Store :=
  st.bind s name (.hold s (v.named name))

/-- Bind several names in scope `s`, one after the other. -/
def defineAll (st : Store) (s : ScopeId) (bindings : List (String × Value)) : Store :=
  bindings.foldl (fun st (name, v) => st.define s name v) st

/-- The number of the scope made next. -/
def nextScope (st : Store) : ScopeId :=
  st.scopes.size

/-- Add a scope without bindings. Its number is `st.nextScope`. -/
def addScope (st : Store) (parent : Option ScopeId) : Store where
  scopes := st.scopes.push { parent }
  closures := st.closures

/-- Add a scope inside `s` with the given bindings. Its number is `st.nextScope`. -/
def extend (st : Store) (s : ScopeId) (bindings : List (String × Value)) : Store :=
  let scope := st.nextScope
  (st.addScope (some s)).defineAll scope bindings

/-- The closure made next from these parameters and this body in scope `s`. It has no name yet. -/
def nextClosure (st : Store) (params : List String) (body : List Value) (s : ScopeId) : Value :=
  .closure { name := none, params, scope := s, id := st.closures } body

/-- Take note that one more closure has been made. -/
def countClosure (st : Store) : Store :=
  { st with closures := st.closures + 1 }

/-- Make scope `s` no longer live. -/
def release (st : Store) (s : ScopeId) : Store where
  scopes := st.scopes.modify s fun scope => { scope with live := false }
  closures := st.closures

end Store

end AtomLisp
