import AtomLisp.Error
import AtomLisp.Event
import AtomLisp.Store

/-!
# Sessions

What evaluation reads and changes, and the ways in which it can end. `Eval` is a computation in a
session; it may raise a fault, give a failure its context or recover from one.

A computation that fails keeps what it did before: the session that it leaves holds all definitions,
output and events up to the failure.
-/

namespace AtomLisp

/-- The scopes, the text written to the output, and the events, the newest last. -/
structure Session where
  store : Store := {}
  output : String := ""
  events : Array Event := #[]

/-- Why a computation has no value: an error, or evaluation nested deeper than was allowed. -/
inductive Stop where
  | error (e : Error)
  | tooDeep

/-- A computation that may change the session and may stop. -/
abbrev Eval := EStateM Stop Session

/-- The reason to stop as seen from outside the application `form`. -/
def Stop.within (form : Value) : Stop → Stop
  | error e => error (e.within form)
  | tooDeep => tooDeep

namespace Eval

variable {α : Type}

def raise (fault : Fault) : Eval α :=
  throw (.error { fault })

/-- The value of a check, or its fault. -/
def ofExcept : Except Fault α → Eval α
  | .ok a => pure a
  | .error fault => raise fault

/-- Carry out `act` as part of the application `form`: an error is given that context. -/
def within (form : Value) (act : Eval α) : Eval α := fun session =>
  match act session with
  | .ok a session => .ok a session
  | .error stop session => .error (stop.within form) session

/-- Carry out `act` and hand its error to the caller. -/
def attempt (act : Eval α) : Eval (Except Error α) := fun session =>
  match act session with
  | .ok a session => .ok (.ok a) session
  | .error (.error e) session => .ok (.error e) session
  | .error .tooDeep session => .error .tooDeep session

def emit (event : Event) : Eval Unit :=
  modify fun session => { session with events := session.events.push event }

def write (text : String) : Eval Unit :=
  modify fun session => { session with output := session.output ++ text }

/-- What a name stands for in scope `s`. -/
def lookup (s : ScopeId) (name : String) : Eval Value :=
  return (← get).store.lookup s name

/-- Bind a name in scope `s`. The outcome is the value as it is bound. -/
def define (s : ScopeId) (name : String) (v : Value) : Eval Value := do
  modify fun session => { session with store := session.store.define s name v }
  return v.named name

/-- Open a scope inside `s` with the given bindings. -/
def extend (s : ScopeId) (bindings : List (String × Value)) : Eval ScopeId :=
  modifyGet fun session =>
    (session.store.nextScope, { session with store := session.store.extend s bindings })

def newRoot : Eval ScopeId :=
  modifyGet fun session =>
    (session.store.nextScope, { session with store := session.store.addScope none })

def makeClosure (params : List String) (body : List Value) (s : ScopeId) : Eval Value :=
  modifyGet fun session =>
    (session.store.nextClosure params body s,
      { session with store := session.store.countClosure })

end Eval

end AtomLisp
