import AtomLisp.Proofs.Clauses
import AtomLisp.Proofs.PendingApplications
import AtomLisp.Proofs.Regimes

/-!
# Well-formed code

Whether the forms of a piece of code have the shapes that their keywords ask for can be told without
evaluating it. Code in which they have, wherever something may be evaluated, never fails for the
shape of a form, and neither does code that it is handed in closures. A form that has not the shape
of its keyword always fails, before anything in it is evaluated.

`Keyword.hasShape` writes the shapes out, and `Form.ofItems_decides` shows that these are what is
checked. Well-formed code consists of well-formed code (`Value.WellFormed.evaluated`), from which
`syntax_errors_are_exact` follows by a regime on the bodies of closures.
-/

namespace AtomLisp

/-! ### Shapes -/

namespace Value

/-- The elements of a list. -/
def elements : Value → List Value
  | list items => items
  | _ => []

end Value

namespace Form

/-- The clauses up to the first one that is headed by `else`, and this one. -/
def reached (clauses : List Value) : List Value :=
  (clauses.takeWhile fun clause => !clause.isElseClause) ++
    (clauses.find? Value.isElseClause).toList

end Form

namespace Keyword

/-- Have the operands the shape that the keyword asks for? -/
def hasShape : Keyword → List Value → Bool
  | lambda, .list params :: _ => params.all Value.isAtom
  | lambda, _ => false
  | define, [.atom _, _] => true
  | define, .list signature :: _ => !signature.isEmpty && signature.all Value.isAtom
  | define, _ => false
  | branch, operands => operands.length == 2 || operands.length == 3
  | cond, clauses => (clauses.takeWhile fun clause => !clause.isElseClause).all Value.isClause
  | quote, _ => true
  | begin, _ => true

/-- The operands, or parts of them, that may be evaluated: at once, or as the body of the closure
that is made. -/
def evaluated : Keyword → List Value → List Value
  | lambda, operands => operands.tail
  | define, operands => operands.tail
  | branch, operands => operands
  | cond, clauses => (Form.reached clauses).flatMap Value.elements
  | quote, _ => []
  | begin, exprs => exprs

end Keyword

/-! ### Shapes are what is checked -/

/-- The check succeeds if `b` is true, and fails for the shape of a form if it is false. -/
inductive Fault.Decides {α : Type} : Except Fault α → Bool → Prop where
  | ok (a : α) : Decides (.ok a) true
  | error {reason : Fault} : reason.kind = .malformed → Decides (.error reason) false

namespace Fault.Decides

variable {α β : Type} {checked : Except Fault α} {b : Bool}

theorem map (h : Decides checked b) (f : α → β) : Decides (do return f (← checked)) b := by
  cases h with
  | ok a => exact .ok (f a)
  | error hkind => exact .error hkind

theorem exists_eq_ok (h : Decides checked true) : ∃ a, checked = .ok a := by
  cases h with
  | ok a => exact ⟨a, rfl⟩

theorem exists_eq_error (h : Decides checked false) :
    ∃ reason, checked = .error reason ∧ reason.kind = .malformed := by
  cases h with
  | error hkind => exact ⟨_, rfl, hkind⟩

end Fault.Decides

namespace Form

open Fault (Decides)

/-- Parameters are accepted if they are atoms. -/
theorem paramNames_decides (params : List Value) :
    Decides (paramNames params) (params.all Value.isAtom) := by
  induction params with
  | nil => exact .ok []
  | cons param params ih =>
    cases param with
    | atom name =>
      rw [paramNames, List.mapM_cons]
      exact ih.map fun names => name :: names
    | list items => exact .error rfl
    | builtin op => exact .error rfl
    | closure head body => exact .error rfl

/-- Clauses are accepted if those up to the `else` clause are clauses. -/
theorem ofCond_decides (clauses : List Value) :
    Decides (ofCond clauses) (Keyword.cond.hasShape clauses) := by
  have hshape : Keyword.cond.hasShape clauses = true ↔ invalidClause? clauses = none := by
    simp [Keyword.hasShape, invalidClause?]
  cases hinvalid : invalidClause? clauses with
  | none =>
    obtain ⟨expr, hexpr⟩ := ofCond_of_valid hinvalid
    rw [hexpr, hshape.2 hinvalid]
    exact .ok expr
  | some clause =>
    have hnot : Keyword.cond.hasShape clauses = false := by
      refine Bool.eq_false_iff.2 fun h => ?_
      rw [hshape.1 h] at hinvalid
      cases hinvalid
    rw [ofCond_of_invalidClause? hinvalid, hnot]
    exact .error rfl

/-- Operands are a form of the keyword just when they have the shape that it asks for. -/
theorem ofOperands_decides (whole : Value) (operands : List Value) (keyword : Keyword) :
    Decides (ofOperands whole operands keyword) (keyword.hasShape operands) := by
  cases keyword with
  | lambda =>
    match operands with
    | .list params :: body =>
      exact (paramNames_decides params).map fun names => Form.lambda names body
    | [] => exact .error rfl
    | .atom _ :: _ => exact .error rfl
    | .builtin _ :: _ => exact .error rfl
    | .closure _ _ :: _ => exact .error rfl
  | define =>
    match operands with
    | .list (.atom name :: params) :: body =>
      exact (paramNames_decides params).map fun names => Form.defineProcedure name names body
    | .list [] :: _ => exact .error rfl
    | .list (.list _ :: _) :: _ => exact .error rfl
    | .list (.builtin _ :: _) :: _ => exact .error rfl
    | .list (.closure _ _ :: _) :: _ => exact .error rfl
    | [.atom name, expr] => exact .ok _
    | [.atom _] => exact .error rfl
    | .atom _ :: _ :: _ :: _ => exact .error rfl
    | [] => exact .error rfl
    | .builtin _ :: _ => exact .error rfl
    | .closure _ _ :: _ => exact .error rfl
  | branch =>
    match operands with
    | [predicate, consequent] => exact .ok _
    | [predicate, consequent, alternative] => exact .ok _
    | [] => exact .error rfl
    | [_] => exact .error rfl
    | _ :: _ :: _ :: _ :: _ => exact .error rfl
  | quote =>
    match operands with
    | [datum] => exact .ok _
    | [] => exact .ok _
    | _ :: _ :: _ => exact .ok _
  | cond => exact (ofCond_decides operands).map Form.expand
  | begin => exact .ok _

/-- A list headed by a keyword is a form just when it has the shape that the keyword asks for. -/
theorem ofItems_decides (keyword : Keyword) (operands : List Value) :
    Decides (ofItems (.atom keyword.text :: operands)) (keyword.hasShape operands) := by
  rw [ofItems_keyword]
  exact ofOperands_decides _ operands keyword

end Form

/-! ### Well-formed code -/

/-- Wherever something may be evaluated, a list that is headed by a keyword has the shape that the
keyword asks for. The bodies of closures are not looked into. -/
inductive Value.WellFormed : Value → Prop where
  | atom (text : String) : WellFormed (.atom text)
  | builtin (op : Builtin) : WellFormed (.builtin op)
  | closure (head : ClosureHead) (body : List Value) : WellFormed (.closure head body)
  | application {items : List Value} :
      (∀ keyword : Keyword, items.head? ≠ some (.atom keyword.text)) →
      (∀ x ∈ items, WellFormed x) → WellFormed (.list items)
  | form (keyword : Keyword) {operands : List Value} : keyword.hasShape operands = true →
      (∀ x ∈ keyword.evaluated operands, WellFormed x) →
      WellFormed (.list (.atom keyword.text :: operands))

/-- The bodies of all closures within the value are well-formed. -/
def Value.BodiesWellFormed (v : Value) : Prop :=
  v.EveryProcedure fun _ body => ∀ x ∈ body, x.WellFormed

/-- The bodies of all closures within bound values are well-formed. -/
def Store.BodiesWellFormed (st : Store) : Prop :=
  ∀ s name b, st.binding? s name = some b → b.held.BodiesWellFormed

namespace Form

/-- Only clauses up to the first `else` clause are looked at. -/
theorem reached_cons (clause : Value) (clauses : List Value) :
    reached (clause :: clauses) =
      clause :: if clause.isElseClause then [] else reached clauses := by
  unfold reached
  by_cases helse : clause.isElseClause = true
  · simp [helse]
  · simp [helse]

open Value (WellFormed)

/-- What clauses stand for is well-formed if all is well-formed that may be evaluated of them. -/
theorem wellFormed_ofCond {clauses : List Value} {expr : Value} (heq : ofCond clauses = .ok expr)
    (h : ∀ x ∈ Keyword.cond.evaluated clauses, x.WellFormed) : expr.WellFormed := by
  induction clauses generalizing expr with
  | nil =>
    obtain rfl := Except.ok.inj heq
    exact .atom _
  | cons clause clauses ih =>
    obtain ⟨predicate, actions, rfl⟩ | hclause := clause_cases clause
    · rw [Keyword.evaluated, reached_cons, List.flatMap_cons] at h
      have hself : ∀ x ∈ predicate :: actions, x.WellFormed :=
        fun x hx => h x (List.mem_append_left _ hx)
      have hpredicate := hself predicate List.mem_cons_self
      have hactions : (sequenceExpr actions).WellFormed :=
        .form .begin rfl fun x hx => hself x (List.mem_cons_of_mem _ hx)
      rw [ofCond_cons_list] at heq
      by_cases helse : predicate.isAtomOf elseText = true
      · rw [if_pos helse] at heq
        obtain rfl := Except.ok.inj heq
        exact hactions
      · rw [if_neg helse] at heq
        obtain ⟨alternative, hrest, heq⟩ := Fault.bind_eq_ok_iff.1 heq
        obtain rfl := Except.ok.inj heq
        have halternative : alternative.WellFormed := by
          refine ih hrest fun x hx => h x (List.mem_append_right _ ?_)
          rw [Value.isElseClause_list, if_neg helse]
          exact hx
        refine .form .branch rfl fun x hx => ?_
        simp only [Keyword.evaluated, List.mem_cons, List.not_mem_nil, or_false] at hx
        rcases hx with rfl | rfl | rfl
        · exact hpredicate
        · exact hactions
        · exact halternative
    · rw [ofCond_cons_of_not_isClause hclause] at heq
      cases heq

/-- What a form evaluates is among the operands that may be evaluated, or made of them. -/
theorem Makes.wellFormed_evaluated {keyword : Keyword} {operands : List Value} {form : Form}
    (hmakes : Makes keyword operands form)
    (h : ∀ x ∈ keyword.evaluated operands, x.WellFormed) :
    ∀ x ∈ form.evaluated, x.WellFormed := by
  cases hmakes with
  | lambda _ => exact h
  | defineProcedure _ => exact h
  | defineValue => exact h
  | branch => exact h
  | branchElse => exact h
  | begin => exact h
  | quote => exact fun x hx => absurd hx List.not_mem_nil
  | quoteAll _ => exact fun x hx => absurd hx List.not_mem_nil
  | cond heq =>
    intro x hx
    rw [List.mem_singleton.1 hx]
    exact wellFormed_ofCond heq h

end Form

namespace Value.WellFormed

variable {items : List Value}

/-- Well-formed code consists of well-formed code. -/
theorem evaluated {form : Form} (h : (Value.list items).WellFormed)
    (hform : Form.ofItems items = .ok form) : ∀ x ∈ form.evaluated, x.WellFormed := by
  cases h with
  | application hhead hitems =>
    rw [Form.ofItems_eq_application_iff.2 hhead] at hform
    obtain rfl := Except.ok.inj hform
    exact hitems
  | form keyword hshape hoperands =>
    rw [Form.ofItems_keyword] at hform
    exact (Form.makes_of_ofOperands hform).wellFormed_evaluated hoperands

/-- A well-formed list is a form. -/
theorem exists_ofItems_eq_ok (h : (Value.list items).WellFormed) :
    ∃ form, Form.ofItems items = .ok form := by
  cases h with
  | application hhead _ => exact ⟨_, Form.ofItems_eq_application_iff.2 hhead⟩
  | @form keyword operands hshape _ =>
    have hdecides := Form.ofItems_decides keyword operands
    rw [hshape] at hdecides
    exact hdecides.exists_eq_ok

end Value.WellFormed

/-! ### Evaluation of well-formed code -/

/-- Only well-formed code is evaluated, so nothing fails for the shape of a form. Whatever the
account of the run is, nothing is asked of it. -/
def Regime.wellFormed (Account : Type) [Preorder Account] : Regime Account where
  procedure _ _ body := ∀ x ∈ body, x.WellFormed
  counts _ _ := True
  expression := Value.WellFormed
  fault reason := reason.kind ≠ .malformed
  procedure_mono _ h := h
  procedure_named _ h := h
  expression_body h := h
  make _ _ _ _ hbody := ⟨_, le_rfl, trivial, hbody⟩
  expression_evaluated h := h.evaluated
  fault_ofItems h heq := by
    obtain ⟨form, hform⟩ := h.exists_ofItems_eq_ok
    rw [hform] at heq
    cases heq
  fault_of_kind h := h

/-- **Failing for the shape of a form is exact.** Let an expression be well-formed, and likewise all
bodies of closures that sit in it or that the scopes bind. To whatever depth it is evaluated, it
does not fail for the shape of a form, and all bodies of closures in its value and in the scopes
that it leaves, with a value or without one, are well-formed again. A list that is headed by a
keyword and has not its shape fails for that, with an empty context, in the session as it was: no
part of it has been evaluated, whatever evaluates the parts. -/
theorem syntax_errors_are_exact :
    (∀ (depth : Nat) (x : Value) (s : ScopeId) (session : Session), x.WellFormed →
      x.BodiesWellFormed → session.store.BodiesWellFormed →
      ((eval depth x s).after session).store.BodiesWellFormed ∧
      (∀ v, (eval depth x s).outcome session = .ok v → v.BodiesWellFormed) ∧
      ∀ e, (eval depth x s).outcome session = .error (.error e) →
        e.fault.kind ≠ .malformed) ∧
    ∀ (keyword : Keyword) (operands : List Value), keyword.hasShape operands = false →
      ∃ reason : Fault, reason.kind = .malformed ∧ ∀ (s : ScopeId) (session : Session),
        (∀ depth, eval (depth + 1) (.list (.atom keyword.text :: operands)) s session =
          .error (.error { fault := reason, context := [] }) session) ∧
        ∀ ev : Evaluator Eval, evalStep ev (.list (.atom keyword.text :: operands)) s session =
          .error (.error { fault := reason, context := [] }) session := by
  refine ⟨fun depth x s session hx hbodies hstore => ?_, fun keyword operands hshape => ?_⟩
  · have hgoverns : (Regime.wellFormed Unit).Governs () session.store := ⟨trivial, hstore⟩
    have hcovers : (Regime.wellFormed Unit).Covers () x := ⟨hx, hbodies⟩
    have hends := Regime.obeys_eval _ depth () x s hcovers () session le_rfl hgoverns
    refine ⟨?_, fun v hv => ?_, fun e he => ?_⟩
    · obtain ⟨_, -, hafter⟩ := hends.governs
      exact hafter.admits
    · obtain ⟨_, -, -, hadmits⟩ := hends.of_outcome_ok hv
      exact hadmits
    · obtain ⟨_, -, -, hpermits⟩ := hends.of_outcome_error he
      exact hpermits.fault
  · have hdecides := Form.ofItems_decides keyword operands
    rw [hshape] at hdecides
    obtain ⟨reason, hreason, hkind⟩ := hdecides.exists_eq_error
    -- the check is made before the evaluator of the parts is called
    have hstep : ∀ (ev : Evaluator Eval) (s : ScopeId) (session : Session),
        evalStep ev (.list (.atom keyword.text :: operands)) s session =
          .error (.error { fault := reason, context := [] }) session := by
      intro ev s session
      rw [evalStep, hreason]
      rfl
    exact ⟨reason, hkind, fun s session =>
      ⟨fun depth => hstep (eval depth) s session, fun ev => hstep ev s session⟩⟩

/-- The definition of a procedure whose body is a `cond` form leaves well-formed bodies, and a
`cond` form with an atom for a clause fails. -/
theorem syntax_errors_of_definition :
    ∃ (code malformed : Value) (session : Session), code.WellFormed ∧ code.BodiesWellFormed ∧
      session.store.BodiesWellFormed ∧
      ((eval 3 code 0).after session).store.isBound 0 "f" = true ∧
      ((eval 3 code 0).after session).store.BodiesWellFormed ∧
      ∃ reason : Fault, reason.kind = .malformed ∧
        eval 3 malformed 0 session =
          .error (.error { fault := reason, context := [] }) session := by
  let body : Value := .list [.atom "cond", .list [.atom "x", .atom "1"]]
  let code : Value := .list [.atom "define", .list [.atom "f", .atom "x"], body]
  let session : Session := Eval.newRoot.after {}
  have hbody : body.WellFormed := by
    refine .form .cond (by decide) fun x hx => ?_
    have hatoms : x = .atom "x" ∨ x = .atom "1" := by simpa [Keyword.evaluated, Form.reached,
      Value.isElseClause, Value.isAtomOf, Form.elseText, Value.elements] using hx
    rcases hatoms with rfl | rfl
    · exact .atom "x"
    · exact .atom "1"
  have hcode : code.WellFormed := by
    refine .form .define (by decide) fun x hx => ?_
    rw [List.mem_singleton.1 hx]
    exact hbody
  have hbodies : code.BodiesWellFormed := by simp [code, body, Value.BodiesWellFormed]
  have hstore : session.store.BodiesWellFormed := by
    intro s name b hb
    rw [show session.store = ({} : Store).addScope none from rfl, Store.binding?_addScope,
      Store.binding?_of_nextScope_le _ _ _ (Nat.zero_le s)] at hb
    cases hb
  obtain ⟨hwellFormed, hmalformed⟩ := syntax_errors_are_exact
  obtain ⟨reason, hkind, hfails⟩ := hmalformed .cond [.atom "x"] (by decide)
  refine ⟨code, .list [.atom "cond", .atom "x"], session, hcode, hbodies, hstore, by decide, ?_,
    reason, hkind, (hfails 0 session).1 2⟩
  exact (hwellFormed 3 code 0 session hcode hbodies hstore).1

end AtomLisp
