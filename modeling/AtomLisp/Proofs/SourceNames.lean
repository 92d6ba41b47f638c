import AtomLisp.Library
import AtomLisp.Proofs.Occurrence
import AtomLisp.Proofs.Preservation
import AtomLisp.Proofs.RoundTrip
import Mathlib.Logic.Relation

/-!
# Names come from source text

Programs can put any text together, but they bind no name that is not written in one of them: a name
is bound by a form, or it is a parameter of a closure, and both are made from source text. So every
property that all atoms of the source have is one of all names that are ever bound.

The names of a form are written in it (`Form.mentions_of_mem_names`), and evaluating trees of
certain atoms keeps the store sourced (`eval_sources`, `runForms_sources`). Hence after programs,
all bound names can be written in source text (`Session.FromPrograms.sourced`).

A value need not be written in source text: operations yield atoms with any text. But no value that
is computed is ever evaluated again, so what is evaluated are trees from a text, and what the
expansion of clauses makes of these.
-/

namespace AtomLisp

open Value (TreeOf)

/-! ### The names of a form -/

namespace Form

/-- The names that the form binds, or that the closure which it makes binds when it is applied. -/
def names : Form → List String
  | lambda params _ => params
  | defineProcedure name params _ => name :: params
  | defineValue name _ => [name]
  | _ => []

/-- A parameter is one of the atoms that it is read from. -/
theorem atom_mem_of_paramNames {params : List Value} {names : List String}
    (h : paramNames params = .ok names) {name : String} (hname : name ∈ names) :
    .atom name ∈ params := by
  induction params generalizing names with
  | nil =>
    obtain rfl := Except.ok.inj h
    exact absurd hname List.not_mem_nil
  | cons param params ih =>
    rw [paramNames, List.mapM_cons] at h
    obtain ⟨first, hfirst, h⟩ := Fault.bind_eq_ok_iff.1 h
    obtain ⟨rest, hrest, h⟩ := Fault.bind_eq_ok_iff.1 h
    obtain rfl := Except.ok.inj h
    rcases List.mem_cons.1 hname with rfl | hname
    · cases param with
      | atom text =>
        obtain rfl := Except.ok.inj hfirst
        exact List.mem_cons_self
      | _ => cases hfirst
    · exact List.mem_cons_of_mem _ (ih hrest hname)

/-- The operands of a keyword mention the names that its form binds. -/
theorem Makes.mentions_of_mem_names {keyword : Keyword} {operands : List Value} {form : Form}
    (hmakes : Makes keyword operands form) {name : String} (hname : name ∈ form.names) :
    (Value.list operands).Mentions name := by
  cases hmakes with
  | lambda hparams =>
    exact .list List.mem_cons_self (.list (atom_mem_of_paramNames hparams hname) .atom)
  | defineProcedure hparams =>
    refine .list List.mem_cons_self ?_
    rcases List.mem_cons.1 hname with rfl | hname
    · exact .list List.mem_cons_self .atom
    · exact .list (List.mem_cons_of_mem _ (atom_mem_of_paramNames hparams hname)) .atom
  | defineValue =>
    obtain rfl := List.mem_singleton.1 hname
    exact .list List.mem_cons_self .atom
  | _ => exact absurd hname List.not_mem_nil

/-- The names of a form are written in the list that it was recognised from. -/
theorem mentions_of_mem_names {items : List Value} {form : Form} (hform : ofItems items = .ok form)
    {name : String} (hname : name ∈ form.names) : (Value.list items).Mentions name := by
  rw [ofItems] at hform
  split at hform
  · obtain ⟨x, hx, hm⟩ :=
      Value.mentions_list.1 ((makes_of_ofOperands hform).mentions_of_mem_names hname)
    exact .list (List.mem_of_mem_tail hx) hm
  · obtain rfl := Except.ok.inj hform
    exact absurd hname List.not_mem_nil

end Form

/-! ### Values and stores made from source text -/

variable {P : String → Prop}

namespace Value

/-- What is mentioned in a tree of certain atoms is one of them. -/
theorem TreeOf.of_mentions {x : Value} (h : TreeOf P x) {name : String} (hname : x.Mentions name) :
    P name := by
  induction hname with
  | atom => exact treeOf_atom.1 h
  | list hx _ ih => exact ih (treeOf_list.1 h _ hx)

/-- A list is a tree just when its elements are. -/
theorem hereditary_treeOf (hbranch : P Keyword.branch.text) (hbegin : P Keyword.begin.text)
    (hfalse : P "#f") : Hereditary (TreeOf P) where
  list_iff _ := treeOf_list
  branch := .atom hbranch
  begin := .atom hbegin
  ofBool := .atom hfalse

/-- The parameters of all closures within the value, and the atoms in their bodies, have the
property `P`. -/
def Sourced (P : String → Prop) (v : Value) : Prop :=
  v.EveryProcedure fun head body =>
    (∀ name ∈ head.params, P name) ∧ ∀ x ∈ body, TreeOf P x

theorem TreeOf.sourced {x : Value} (h : TreeOf P x) : x.Sourced P :=
  h.everyProcedure

theorem Sourced.named {v : Value} (h : v.Sourced P) (name : String) : (v.named name).Sourced P :=
  EveryProcedure.named h name fun _ _ _ hself => hself

end Value

/-- All bound names have the property `P`, and so have the atoms that closures within bound values
are made of. -/
def Store.Sourced (P : String → Prop) (st : Store) : Prop :=
  st.EveryBinding fun name v => P name ∧ v.Sourced P

/-- What is looked up in a sourced store is sourced. -/
theorem Store.Sourced.lookup {st : Store} (h : st.Sourced P) (s : ScopeId) (name : String) :
    (st.lookup s name).Sourced P :=
  everyProcedure_lookup fun t _ b hb => (h t name b hb).2

/-! ### Single steps -/

namespace Eval

/-- The computation keeps the store sourced, and its value is sourced. -/
abbrev Sources (P : String → Prop) : Eval Value → Prop :=
  Maintains (Store.Sourced P) (Value.Sourced P)

namespace Sources

theorem lookup (s : ScopeId) (name : String) : Sources P (Eval.lookup s name) := by
  refine fun session hs => ⟨hs, fun v hv => ?_⟩
  obtain rfl := Except.ok.inj hv
  exact Store.Sourced.lookup hs s name

/-- To bind a sourced value to one of the names keeps the store sourced. -/
theorem define (s : ScopeId) {name : String} (hname : P name) {v : Value} (hv : v.Sourced P) :
    Sources P (Eval.define s name v) := by
  refine fun session hs => ⟨hs.define s ⟨hname, hv.named name⟩, fun u hu => ?_⟩
  obtain rfl := Except.ok.inj hu
  exact hv.named name

/-- A closure that is made from trees is sourced. -/
theorem makeClosure {params : List String} (hparams : ∀ name ∈ params, P name)
    {body : List Value} (hbody : ∀ x ∈ body, TreeOf P x) (s : ScopeId) :
    Sources P (Eval.makeClosure params body s) := by
  refine fun session hs => ⟨hs, fun v hv => ?_⟩
  obtain rfl := Except.ok.inj hv
  exact Value.everyProcedure_closure.2 ⟨⟨hparams, hbody⟩, fun x hx => (hbody x hx).sourced⟩

end Sources

/-- A scope is opened with parameters and arguments. -/
theorem maintains_extend (s : ScopeId) {params : List String}
    (hparams : ∀ name ∈ params, P name)
    {args : List Value} (hargs : ∀ v ∈ args, v.Sourced P) :
    Maintains (Store.Sourced P) (fun _ => True) (Eval.extend s (params.zip args)) := by
  refine fun session hs => ⟨hs.extend s fun binding hbinding => ?_, fun _ _ => trivial⟩
  obtain ⟨hname, hv⟩ := List.of_mem_zip hbinding
  exact ⟨hparams _ hname, (hargs _ hv).named _⟩

end Eval

/-! ### Evaluation -/

open Eval (Sources Maintains)

namespace Evaluator

variable {ev : Evaluator Eval} (hev : ∀ x s, TreeOf P x → Sources P (ev x s))
include hev

/-- A sequence of trees keeps the store sourced. -/
theorem sequence_sources {exprs : List Value} (hexprs : ∀ x ∈ exprs, TreeOf P x) (s : ScopeId) :
    Sources P (ev.sequence exprs s) :=
  Maintains.judgment.foldlM (fun _ _ x hx => hev x s (hexprs x hx)) Value.everyProcedure_nil

/-- Applying a closure binds its parameters, and evaluates its body. -/
theorem apply_sources {procedure : Value} (hprocedure : procedure.Sourced P) {args : List Value}
    (hargs : ∀ v ∈ args, v.Sourced P) : Sources P (ev.apply procedure args) := by
  cases procedure with
  | atom text => exact .raise _
  | list items => exact .raise _
  | builtin op => exact Maintains.judgment.call Value.everyProcedure_atom op args
  | closure head body =>
    obtain ⟨⟨hparams, hbody⟩, -⟩ := Value.everyProcedure_closure.1 hprocedure
    rw [Evaluator.apply, applyClosure]
    split
    · refine .bind (.emit _) fun _ _ => ?_
      refine .bind (Eval.maintains_extend head.scope hparams hargs) fun s _ => ?_
      exact sequence_sources hev hbody s
    · exact .raise _

/-- An application of trees keeps the store sourced. -/
theorem application_sources {items : List Value} (hitems : ∀ x ∈ items, TreeOf P x)
    (s : ScopeId) : Sources P (ev.application items s) := by
  cases items with
  | nil => exact .raise _
  | cons operator operands =>
    obtain ⟨hoperator, hoperands⟩ := List.forall_mem_cons.1 hitems
    refine .bind (hev operator s hoperator) fun procedure hprocedure => ?_
    refine .bind (Maintains.judgment.mapM fun x hx => hev x s (hoperands x hx)) fun args hargs => ?_
    exact apply_sources hev hprocedure hargs

/-- A form of trees and names keeps the store sourced. -/
theorem form_sources {form : Form} (hparts : ∀ x ∈ form.parts, TreeOf P x)
    (hnames : ∀ name ∈ form.names, P name) (s : ScopeId) :
    Sources P (ev.form s form) := by
  cases form with
  | lambda params body => exact Sources.makeClosure hnames hparts s
  | defineProcedure name params body =>
    obtain ⟨hname, hparams⟩ := List.forall_mem_cons.1 hnames
    refine .bind (Sources.makeClosure hparams hparts s) fun closure hclosure => ?_
    exact Sources.define s hname hclosure
  | defineValue name expr =>
    refine .bind (hev expr s (hparts expr List.mem_cons_self)) fun v hv => ?_
    exact Sources.define s (hnames name List.mem_cons_self) hv
  | branch predicate consequent alternative =>
    refine .bind (hev predicate s (hparts predicate List.mem_cons_self)) fun v _ => ?_
    refine .bind (Maintains.judgment.ofExcept (Q := fun _ => True) fun _ _ => trivial) fun b _ => ?_
    cases b with
    | true => exact hev consequent s (hparts consequent (by simp [Form.parts]))
    | false =>
      cases alternative with
      | none => exact .pure Value.everyProcedure_nil
      | some expr => exact hev expr s (hparts expr (by simp [Form.parts]))
  | quote datum => exact .pure (hparts datum List.mem_cons_self).sourced
  | expand expr => exact hev expr s (hparts expr List.mem_cons_self)
  | sequence exprs => exact sequence_sources hev hparts s
  | application items => exact .within (application_sources hev hparts s) _

end Evaluator

section Evaluation

variable (hP : Value.Hereditary (TreeOf P))
include hP

/-- Evaluating a tree of such atoms keeps the store sourced. -/
theorem eval_sources (depth : Nat) (x : Value) (s : ScopeId) (hx : TreeOf P x) :
    Sources P (eval depth x s) := by
  induction depth generalizing x s with
  | zero => exact .tooDeep
  | succ depth ih =>
    cases hx with
    | atom _ => exact .lookup s _
    | list hitems =>
      have hlist : TreeOf P (.list _) := .list hitems
      refine .bind (Maintains.judgment.ofExcept fun form hform => hform) fun form hform => ?_
      refine Evaluator.form_sources (fun x s => ih x s) (Form.forall_parts hP hlist hform) ?_ s
      exact fun name hname => hlist.of_mentions (Form.mentions_of_mem_names hform hname)

theorem runForms_sources (depth : Nat) {forms : List Value} (hforms : ∀ x ∈ forms, TreeOf P x)
    (s : ScopeId) : Sources P (runForms depth forms s) :=
  Maintains.judgment.foldlM
    (fun _ _ x hx => .bind (.emit _) fun _ _ => eval_sources hP depth x s (hforms x hx))
    Value.everyProcedure_nil

end Evaluation

/-! ### Programs -/

/-- What the expansion of clauses writes can be written in source text. -/
theorem Value.hereditary_treeOf_isAtom : Hereditary (TreeOf Text.IsAtom) :=
  hereditary_treeOf (by decide) (by decide) (by decide)

/-- Running a text keeps the store sourced, whatever the text is. -/
theorem run_sources (depth : Nat) (source : String) (s : ScopeId) :
    Sources Text.IsAtom (run depth source s) :=
  runForms_sources Value.hereditary_treeOf_isAtom depth (treeOf_of_mem_read source) s

/-- Loading the library binds only names that can be written in source text. -/
theorem load_sources (depth : Nat) (s : ScopeId) :
    Maintains (Store.Sourced Text.IsAtom) (fun _ => True) (Library.load depth s) :=
  .bind (run_sources depth _ s) fun _ _ => .bind (run_sources depth _ s) fun _ _ => .pure trivial

namespace Session

/-- Opening a root scope, loading the library or running a program in a scope, to any depth, and
dropping a scope. A program may fail; what it has done until then stays. -/
inductive ProgramStep : Session → Session → Prop where
  | root (session : Session) : ProgramStep session (Eval.newRoot.after session)
  | load (session : Session) (depth : Nat) (s : ScopeId) :
      ProgramStep session ((Library.load depth s).after session)
  | run (session : Session) (depth : Nat) (source : String) (s : ScopeId) :
      ProgramStep session ((AtomLisp.run depth source s).after session)
  | release (session : Session) (s : ScopeId) :
      ProgramStep session { session with store := session.store.release s }

/-- Nothing has been done but to run programs in root scopes and in the scopes inside them. -/
def FromPrograms (session : Session) : Prop :=
  Relation.ReflTransGen ProgramStep {} session

theorem ProgramStep.sourced {session next : Session} (hstep : ProgramStep session next)
    (h : session.store.Sourced Text.IsAtom) : next.store.Sourced Text.IsAtom := by
  cases hstep with
  | root => exact h.addScope none
  | load depth s => exact (load_sources depth s session h).1
  | run depth source s => exact (run_sources depth source s session h).1
  | release s => exact h.release s

/-- All names that programs bind can be written in source text, and so can all closures that they
leave in the store. -/
theorem FromPrograms.sourced {session : Session} (h : session.FromPrograms) :
    session.store.Sourced Text.IsAtom := by
  induction h with
  | refl => exact .empty
  | tail _ hstep ih => exact hstep.sourced ih

/-- A name that programs have bound can be written in source text. -/
theorem FromPrograms.isAtom_of_isBound {session : Session} (h : session.FromPrograms) {s : ScopeId}
    {name : String} (hbound : session.store.isBound s name = true) : Text.IsAtom name := by
  obtain ⟨b, hb⟩ := (Store.isBound_iff ..).1 hbound
  exact (h.sourced s name b hb).1

end Session

end AtomLisp
