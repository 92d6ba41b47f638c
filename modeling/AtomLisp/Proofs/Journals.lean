import AtomLisp.Proofs.Pervasive

/-!
# Journals

A store shows how things are and not how they came about: which name a closure was bound to first
cannot be seen any more when that binding has been replaced. So evaluation is given here with a
journal, in which everything that it does to the store is written down in order. A closure is
written down when it is made, with its number and without a name, and a binding with the value as it
is bound. A computation that stops has written down what it has done until then.

The journal is only written. Without it, the computation is the one that runs, and the store can be
told from it alone.
-/

namespace AtomLisp

/-- Something that is done to a store. -/
inductive Deed where
  /-- A root scope is opened. -/
  | root
  /-- A scope is opened inside another one. -/
  | enter (parent : ScopeId)
  /-- A closure is made. -/
  | make (head : ClosureHead) (body : List Value)
  /-- A name is bound in a scope, to a value that has taken the name if it takes one. -/
  | bind (s : ScopeId) (name : String) (v : Value)
  | release (s : ScopeId)

/-- What has been done to a store that was empty at first, in order. -/
abbrev Journal := List Deed

namespace Deed

/-- What the deed makes of a store. -/
def apply (st : Store) : Deed → Store
  | root => st.addScope none
  | enter parent => st.addScope (some parent)
  | make _ _ => st.countClosure
  | bind s name v => st.bind s name (.hold s v)
  | release s => st.release s

/-- The name that the closure with number `i` is bound to by this deed, if it is bound. -/
def nameFor? (i : Nat) : Deed → Option String
  | bind _ name (.closure head _) => if head.id = i then some name else none
  | _ => none

section Bind

variable {s : ScopeId} {name : String} {head : ClosureHead} {body : List Value}

/-- To bind a closure gives it the name that it is bound to. -/
@[simp]
theorem nameFor?_bind_self : nameFor? head.id (bind s name (.closure head body)) = some name :=
  if_pos rfl

/-- To bind a closure names no other one. -/
theorem nameFor?_bind_of_ne {i : Nat} (h : head.id ≠ i) :
    nameFor? i (bind s name (.closure head body)) = none :=
  if_neg h

end Bind

end Deed

namespace Journal

/-- The store that has come of all deeds. -/
def replay (log : Journal) : Store :=
  log.foldl Deed.apply {}

/-- The name that the closure with number `i` has been bound to first, if it has ever been bound. -/
def firstName? (log : Journal) (i : Nat) : Option String :=
  log.findSome? (Deed.nameFor? i)

end Journal

/-- A computation, and the deeds that it writes down in a session. -/
@[ext]
structure Journaled (α : Type) where
  act : Eval α
  deeds : Session → Journal

/-- After a computation that stops, nothing more is written down. -/
instance : Monad Journaled where
  pure a := { act := pure a, deeds := fun _ => [] }
  bind j next := {
    act := j.act >>= fun a => (next a).act
    deeds := fun session => j.deeds session ++ match j.act session with
      | .ok a t => (next a).deeds t
      | .error _ _ => [] }

namespace Journaled

variable {α β : Type}

/-! ### Steps in order -/

section Order

variable {j : Journaled α} {session t : Session} {next : α → Journaled β}

/-- The computation that is journaled is made of those of the steps. -/
theorem act_bind : (j >>= next).act = j.act >>= fun a => (next a).act := rfl

/-- After a step with a value, the deeds of the next one follow its own. -/
theorem deeds_bind_of_ok {a : α} (h : j.act session = .ok a t) :
    (j >>= next).deeds session = j.deeds session ++ (next a).deeds t := by
  simp only [Bind.bind, h]

/-- After a step that stops, no other deeds follow. -/
theorem deeds_bind_of_error {stop : Stop} (h : j.act session = .error stop t) :
    (j >>= next).deeds session = j.deeds session := by
  simp only [Bind.bind, h, List.append_nil]

end Order

/-- What is written down follows the order of the steps, however they are grouped. -/
instance : LawfulMonad Journaled := by
  refine LawfulMonad.mk' Journaled (fun j => ?_) (fun a next => ?_) (fun j next last => ?_)
  · refine Journaled.ext (bind_pure j.act) (funext fun session => ?_)
    show j.deeds session ++ _ = j.deeds session
    cases j.act session <;> exact List.append_nil _
  · exact Journaled.ext (pure_bind a _) (funext fun session => List.nil_append _)
  · refine Journaled.ext (bind_assoc ..) (funext fun session => ?_)
    show (j.deeds session ++ _) ++ _ = j.deeds session ++ _
    rw [List.append_assoc]
    simp only [Bind.bind, EStateM.bind]
    cases j.act session <;> rfl

/-! ### Evaluation with a journal -/

/-- A computation that does nothing to the store. -/
def quiet (act : Eval α) : Journaled α where
  act := act
  deeds _ := []

/-- To give an error its context is no deed. -/
def within (form : Value) (j : Journaled α) : Journaled α where
  act := Eval.within form j.act
  deeds := j.deeds

/-- A closure is made, with the number that it is given. -/
def makeClosure (params : List String) (body : List Value) (s : ScopeId) : Journaled Value where
  act := Eval.makeClosure params body s
  deeds session := [.make { name := none, params, scope := s, id := session.store.closures } body]

/-- A name is bound to the value that has taken it. -/
def define (s : ScopeId) (name : String) (v : Value) : Journaled Value where
  act := Eval.define s name v
  deeds _ := [.bind s name (v.named name)]

/-- A scope is opened, and names are bound in it one after the other. -/
def extend (s : ScopeId) (bindings : List (String × Value)) : Journaled ScopeId where
  act := Eval.extend s bindings
  deeds session := .enter s :: bindings.map fun (name, v) =>
    .bind session.store.nextScope name (v.named name)

/-- Only what is done to the store is written down. -/
instance : Steps Journaled where
  step := quiet
  within := within
  makeClosure := makeClosure
  define := define
  extend := extend

instance : LawfulSteps Journaled where
  step_pure _ := rfl

/-- Evaluation to at most `depth` levels, with its journal. -/
def eval (depth : Nat) : Evaluator Journaled :=
  Evaluator.nested depth

/-- A program that is run, with its journal. -/
def run (depth : Nat) (source : String) (s : ScopeId) : Journaled Value :=
  (eval depth).program (read source) s

/-! ### Evaluation without its journal -/

/-- Each step of evaluation does the same with a journal and without one. -/
theorem respect : Steps.Respect (m := Eval) (n := Journaled) fun act j => j.act = act where
  pure _ := rfl
  bind hact hnext := by rw [act_bind, hact, funext hnext]
  raise _ _ := rfl
  tooDeep := rfl
  within h := congrArg (Eval.within _) h
  enter _ _ := rfl
  lookup _ _ := rfl
  define _ _ _ := rfl
  extend _ _ := rfl
  makeClosure _ _ _ := rfl
  call _ _ := rfl

/-- Without its journal, a program is run as it is. -/
theorem act_run (depth : Nat) (source : String) (s : ScopeId) :
    (run depth source s).act = AtomLisp.run depth source s :=
  respect.program (fun _ => rfl) depth (read source) s

end Journaled

end AtomLisp
