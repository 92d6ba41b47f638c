import AtomLisp.Proofs.Depth
import AtomLisp.Proofs.FormParts

/-!
# The meaning of clauses

A `cond` form is evaluated by way of nested branches. What it does can be said without them: clauses
are checked first, up to the `else` clause (`Form.invalidClause?`), and then their predicates are
evaluated in order until one holds (`Evaluator.clauses`).

`Form.ofCond_of_invalidClause?` is about clauses with a malformed one among them, and
`eval_expansion_refines` about those that are well formed, where the clauses do what the branches
do. Both together are `cond_evaluates_clauses`.
-/

namespace AtomLisp

open Eval

namespace Value

/-- A clause is a list with a predicate. -/
def isClause : Value → Bool
  | .list (_ :: _) => true
  | _ => false

/-- The clause is headed by the atom `else`. -/
def isElseClause : Value → Bool
  | .list (.atom "else" :: _) => true
  | _ => false

/-- The last clause is known by the atom `else`. -/
theorem isAtomOf_elseText_iff {predicate : Value} :
    predicate.isAtomOf Form.elseText = true ↔ predicate = .atom "else" := by
  cases predicate <;> simp [isAtomOf, Form.elseText]

/-- This is what the desugaring asks of the first element. -/
theorem isElseClause_list (predicate : Value) (actions : List Value) :
    (list (predicate :: actions)).isElseClause = predicate.isAtomOf Form.elseText := by
  by_cases helse : predicate = .atom "else"
  · rw [isAtomOf_elseText_iff.2 helse, helse]
    rfl
  · rw [Bool.eq_false_iff.2 fun h => helse (isAtomOf_elseText_iff.1 h), isElseClause]
    rintro actions' heq
    exact helse (List.cons.inj (Value.list.inj heq)).1

end Value

namespace Form

/-- The first clause before the `else` clause, or among all if there is none, that is malformed. -/
def invalidClause? (clauses : List Value) : Option Value :=
  (clauses.takeWhile fun clause => !clause.isElseClause).find? fun clause => !clause.isClause

/-- After an `else` clause nothing is checked. -/
theorem invalidClause?_cons_list (predicate : Value) (actions clauses : List Value) :
    invalidClause? (.list (predicate :: actions) :: clauses) =
      if predicate.isAtomOf elseText then none else invalidClause? clauses := by
  unfold invalidClause?
  by_cases helse : predicate.isAtomOf elseText = true
  · simp [helse, Value.isElseClause_list]
  · simp [helse, Value.isElseClause_list, Value.isClause]

/-- A first clause that is malformed is the one that is reported. -/
theorem invalidClause?_cons_of_not_isClause {clause : Value} (h : clause.isClause = false)
    (clauses : List Value) : invalidClause? (clause :: clauses) = some clause := by
  have helse : clause.isElseClause = false := by
    unfold Value.isElseClause
    split
    · cases h
    · rfl
  simp [invalidClause?, helse, h]

theorem ofCond_cons_of_not_isClause {clause : Value} (h : clause.isClause = false)
    (clauses : List Value) : ofCond (clause :: clauses) = .error (.invalidClause clause) := by
  unfold ofCond
  split
  · next heq => cases heq
  · next heq =>
    obtain ⟨rfl, rfl⟩ := List.cons.inj heq
    cases h
  · next heq =>
    obtain ⟨rfl, rfl⟩ := List.cons.inj heq
    rfl

/-- A clause is a branch to its actions, with the other clauses in place of the alternative. -/
theorem ofCond_cons_list (predicate : Value) (actions clauses : List Value) :
    ofCond (.list (predicate :: actions) :: clauses) =
      if predicate.isAtomOf elseText then .ok (sequenceExpr actions)
      else do
        let alternative ← ofCond clauses
        return .list [.atom Keyword.branch.text, predicate, sequenceExpr actions, alternative] := by
  rw [ofCond]

/-- Clauses come in two kinds. -/
theorem clause_cases (clause : Value) :
    (∃ predicate actions, clause = .list (predicate :: actions)) ∨ clause.isClause = false := by
  match clause with
  | .list (predicate :: actions) => exact .inl ⟨predicate, actions, rfl⟩
  | .list [] => exact .inr rfl
  | .atom _ => exact .inr rfl
  | .builtin _ => exact .inr rfl
  | .closure _ _ => exact .inr rfl

/-- Clauses with a malformed one among them stand for nothing, also if one before it holds. -/
theorem ofCond_of_invalidClause? {clauses : List Value} {clause : Value}
    (h : invalidClause? clauses = some clause) :
    ofCond clauses = .error (.invalidClause clause) := by
  induction clauses with
  | nil => cases h
  | cons first clauses ih =>
    obtain ⟨predicate, actions, rfl⟩ | hfirst := clause_cases first
    · rw [invalidClause?_cons_list] at h
      rw [ofCond_cons_list]
      split at h
      · cases h
      · next helse =>
        rw [if_neg helse, ih h]
        rfl
    · rw [invalidClause?_cons_of_not_isClause hfirst] at h
      obtain rfl := Option.some.inj h
      exact ofCond_cons_of_not_isClause hfirst clauses

/-- Clauses that are well formed stand for an expression. -/
theorem ofCond_of_valid {clauses : List Value} (h : invalidClause? clauses = none) :
    ∃ expr, ofCond clauses = .ok expr := by
  induction clauses with
  | nil => exact ⟨_, rfl⟩
  | cons first clauses ih =>
    obtain ⟨predicate, actions, rfl⟩ | hfirst := clause_cases first
    · rw [invalidClause?_cons_list] at h
      rw [ofCond_cons_list]
      split at h
      · next helse => exact ⟨_, if_pos helse⟩
      · next helse =>
        obtain ⟨alternative, hrest⟩ := ih h
        rw [if_neg helse, hrest]
        exact ⟨_, rfl⟩
    · rw [invalidClause?_cons_of_not_isClause hfirst] at h
      cases h

/-- A list headed by the atom of a keyword is a form of that keyword. -/
theorem ofItems_keyword (keyword : Keyword) (operands : List Value) :
    ofItems (.atom keyword.text :: operands) =
      ofOperands (.list (.atom keyword.text :: operands)) operands keyword := by
  have hheading : Keyword.heading? (.atom keyword.text :: operands) = some keyword :=
    Keyword.ofText?_eq_some_iff.2 rfl
  rw [ofItems, hheading]
  rfl

end Form

/-! ### One level of evaluation -/

/-- The actions of a clause are evaluated as a sequence. -/
theorem eval_sequenceExpr (depth : Nat) (exprs : List Value) (s : ScopeId) :
    eval (depth + 1) (Form.sequenceExpr exprs) s = (eval depth).sequence exprs s :=
  eval_list_of_form (Form.ofItems_keyword .begin exprs) depth s

/-- A branch that is written out is evaluated as one. -/
theorem eval_branch (depth : Nat) (predicate consequent alternative : Value) (s : ScopeId) :
    eval (depth + 1) (.list [.atom Keyword.branch.text, predicate, consequent, alternative]) s =
      (eval depth).form s (.branch predicate consequent (some alternative)) :=
  eval_list_of_form (Form.ofItems_keyword .branch [predicate, consequent, alternative]) depth s

/-! ### Clauses one after the other -/

namespace Evaluator

/-- Evaluate the actions of a clause one after the other. The value is that of the last one; without
actions, it is the empty list. -/
def actions (ev : Evaluator Eval) (s : ScopeId) : List Value → Eval Value
  | [] => return .list []
  | [action] => ev action s
  | action :: rest => do
    let _ ← ev action s
    ev.actions s rest

/-- Evaluate clauses one after the other, in one scope. The actions of the first clause whose
predicate is true are evaluated, or those of the `else` clause if none is true before it; nothing
that comes later is looked at. If the clauses run out, the value is what the name `#f` stands for. A
predicate that is neither true nor false is a fault. -/
def clauses (ev : Evaluator Eval) (s : ScopeId) : List Value → Eval Value
  | [] => Eval.lookup s "#f"
  | .list (.atom "else" :: actions) :: _ => ev.actions s actions
  | .list (predicate :: actions) :: rest => do
    match ← ev predicate s with
    | .atom "#t" => ev.actions s actions
    | .atom "#f" => ev.clauses s rest
    | v => Eval.raise (.notBoolean v)
  | clause :: _ => Eval.raise (.invalidClause clause)

/-- Actions are evaluated as a sequence is. -/
theorem actions_eq_sequence (ev : Evaluator Eval) (s : ScopeId) (exprs : List Value) :
    ev.actions s exprs = ev.sequence exprs s := by
  have hfold : ∀ v, exprs ≠ [] →
      exprs.foldlM (fun _ x => ev x s) v = ev.actions s exprs := by
    induction exprs with
    | nil => exact fun _ hne => absurd rfl hne
    | cons x exprs ih =>
      intro v _
      rw [List.foldlM_cons]
      cases exprs with
      | nil => exact bind_pure (ev x s)
      | cons y exprs => exact congrArg (ev x s >>= ·) (funext fun v => ih v (by simp))
  cases exprs with
  | nil => rfl
  | cons x exprs => exact (hfold .nil (by simp)).symm

/-- Two computations are chosen from by the truth value that an atom stands for. -/
theorem truthiness_bind (v : Value) (act act' : Eval Value) :
    (do if ← Eval.ofExcept v.truthiness then act else act') =
      match v with
      | .atom "#t" => act
      | .atom "#f" => act'
      | v => Eval.raise (.notBoolean v) := by
  by_cases htrue : v = .atom "#t"
  · subst htrue
    rfl
  by_cases hfalse : v = .atom "#f"
  · subst hfalse
    rfl
  have hneither : v.truthiness = .error (.notBoolean v) := by
    unfold Value.truthiness
    split
    · exact absurd rfl htrue
    · exact absurd rfl hfalse
    · rfl
  rw [hneither]
  split
  · exact absurd rfl htrue
  · exact absurd rfl hfalse
  · rfl

/-- One clause, as the branch that it is expanded to evaluates it. -/
theorem clauses_cons_list (ev : Evaluator Eval) (s : ScopeId) (predicate : Value)
    (actions rest : List Value) :
    ev.clauses s (.list (predicate :: actions) :: rest) =
      if predicate.isAtomOf Form.elseText then ev.sequence actions s
      else (do
        let v ← ev predicate s
        if ← Eval.ofExcept v.truthiness then ev.sequence actions s
        else ev.clauses s rest) := by
  by_cases helse : predicate = .atom "else"
  · rw [if_pos (Value.isAtomOf_elseText_iff.2 helse), helse, clauses, actions_eq_sequence]
  · rw [if_neg fun h => helse (Value.isAtomOf_elseText_iff.1 h), clauses, actions_eq_sequence]
    · exact congrArg (ev predicate s >>= ·) (funext fun v => (truthiness_bind v _ _).symm)
    · exact helse

/-- The direct reading refuses a malformed clause where it meets it. -/
theorem clauses_cons_of_not_isClause (ev : Evaluator Eval) (s : ScopeId) {clause : Value}
    (h : clause.isClause = false) (rest : List Value) :
    ev.clauses s (clause :: rest) = Eval.raise (.invalidClause clause) := by
  match clause with
  | .list (_ :: _) => cases h
  | .list [] => rfl
  | .atom _ => rfl
  | .builtin _ => rfl
  | .closure _ _ => rfl

/-- A better evaluator does better on clauses. -/
theorem Refines.clauses {ev ev' : Evaluator Eval} (h : ev.Refines ev') (s : ScopeId)
    (clauses : List Value) : (ev.clauses s clauses).Refines (ev'.clauses s clauses) := by
  induction clauses with
  | nil => exact .refl _
  | cons clause rest ih =>
    obtain ⟨predicate, actions, rfl⟩ | hclause := Form.clause_cases clause
    · rw [clauses_cons_list, clauses_cons_list]
      split
      · exact Eval.Refines.respect.sequence h actions s
      · refine .bind (h predicate s) fun v => .bind (.refl _) fun b => ?_
        cases b with
        | true => exact Eval.Refines.respect.sequence h actions s
        | false => exact ih
    · rw [clauses_cons_of_not_isClause ev s hclause, clauses_cons_of_not_isClause ev' s hclause]
      exact .refl _

/-- The clauses, followed to some depth, are refined by the branches they stand for. Each clause
takes one level more than the one after it. -/
theorem clauses_refines (depth : Nat) (s : ScopeId) {clauses : List Value} {expr : Value}
    (h : Form.ofCond clauses = .ok expr) :
    ((eval depth).clauses s clauses).Refines (eval (depth + clauses.length + 2) expr s) := by
  induction clauses generalizing expr with
  | nil =>
    obtain rfl := Except.ok.inj h
    exact .refl _
  | cons clause rest ih =>
    obtain ⟨predicate, actions, rfl⟩ | hclause := Form.clause_cases clause
    · have hactions : ∀ more, ((eval depth).sequence actions s).Refines
          (eval (depth + more + 1) (Form.sequenceExpr actions) s) := by
        intro more
        rw [eval_sequenceExpr]
        exact Eval.Refines.respect.sequence (eval_refines (Nat.le_add_right depth more)) actions s
      rw [Form.ofCond_cons_list] at h
      rw [clauses_cons_list]
      split at h
      · next helse =>
        obtain rfl := Except.ok.inj h
        rw [if_pos helse]
        exact hactions (rest.length + 1 + 1)
      · next helse =>
        obtain ⟨alternative, hrest, h⟩ := Fault.bind_eq_ok_iff.1 h
        obtain rfl := Except.ok.inj h
        rw [if_neg helse, List.length_cons, eval_branch]
        have hpredicate : Refines (eval depth) (eval (depth + (rest.length + 1) + 1)) :=
          eval_refines (by omega)
        refine .bind (hpredicate predicate s) fun v => .bind (.refl _) fun b => ?_
        cases b with
        | true => exact hactions (rest.length + 1)
        | false => exact ih hrest
    · rw [Form.ofCond_cons_of_not_isClause hclause] at h
      cases h

end Evaluator

/-- The branches that clauses stand for, followed to some depth, are refined by the clauses. -/
theorem eval_expansion_refines (depth : Nat) (s : ScopeId) {clauses : List Value} {expr : Value}
    (h : Form.ofCond clauses = .ok expr) :
    (eval depth expr s).Refines ((eval depth).clauses s clauses) := by
  induction clauses generalizing expr depth with
  | nil =>
    obtain rfl := Except.ok.inj h
    cases depth with
    | zero => exact .tooDeep _
    | succ depth => exact .refl _
  | cons clause rest ih =>
    cases depth with
    | zero => exact .tooDeep _
    | succ depth =>
      have hstep : Evaluator.Refines (eval depth) (eval (depth + 1)) := eval_refines_succ depth
      obtain ⟨predicate, actions, rfl⟩ | hclause := Form.clause_cases clause
      · rw [Form.ofCond_cons_list] at h
        rw [Evaluator.clauses_cons_list]
        split at h
        · next helse =>
          obtain rfl := Except.ok.inj h
          rw [if_pos helse, eval_sequenceExpr]
          exact Refines.respect.sequence hstep actions s
        · next helse =>
          obtain ⟨alternative, hrest, h⟩ := Fault.bind_eq_ok_iff.1 h
          obtain rfl := Except.ok.inj h
          rw [if_neg helse, eval_branch]
          refine .bind (hstep predicate s) fun v => .bind (.refl _) fun b => ?_
          cases b with
          | true =>
            -- the actions are two levels below the branch, and none below the clause
            cases depth with
            | zero => exact .tooDeep _
            | succ depth =>
              show (eval (depth + 1) (Form.sequenceExpr actions) s).Refines _
              rw [eval_sequenceExpr]
              exact Refines.respect.sequence (eval_refines (by omega)) actions s
          | false => exact (ih depth hrest).trans (hstep.clauses s rest)
      · rw [Form.ofCond_cons_of_not_isClause hclause] at h
        cases h

/-- The form with the keyword `cond` and the given clauses. -/
def Value.condForm (clauses : List Value) : Value :=
  .list (.atom Keyword.cond.text :: clauses)

/-- A `cond` form is the expression that its clauses stand for. -/
theorem ofItems_condForm {clauses : List Value} {expr : Value}
    (h : Form.ofCond clauses = .ok expr) :
    Form.ofItems (.atom Keyword.cond.text :: clauses) = .ok (.expand expr) := by
  rw [Form.ofItems_keyword, Form.ofOperands, h]
  rfl

/-- **A `cond` form means its clauses.** If a clause before the `else` clause is not a list with a
predicate, the form is a fault that names the first such clause, and the session stays as it is,
whatever the clauses before it are. Otherwise the form and its clauses, evaluated one after the
other in the scope of the form, have the same results: the same value or error in the same context,
and the same session. This holds in every session, so with every definition of any name. -/
theorem cond_evaluates_clauses (clauses : List Value) (s : ScopeId) (session : Session) :
    (∀ clause, Form.invalidClause? clauses = some clause → ∀ depth,
      eval (depth + 1) (Value.condForm clauses) s session =
        .error (.error { fault := .invalidClause clause }) session) ∧
    (Form.invalidClause? clauses = none → ∀ result,
      Yields (fun depth => eval depth (Value.condForm clauses) s) session result ↔
        Yields (fun depth => (eval depth).clauses s clauses) session result) := by
  refine ⟨fun clause hclause depth => ?_, fun hvalid result => ?_⟩
  · have hfault : Form.ofItems (.atom Keyword.cond.text :: clauses) =
        .error (.invalidClause clause) := by
      rw [Form.ofItems_keyword, Form.ofOperands, Form.ofCond_of_invalidClause? hclause]
      rfl
    rw [Value.condForm, eval_list_of_fault hfault]
    rfl
  · obtain ⟨expr, hexpr⟩ := Form.ofCond_of_valid hvalid
    have hform := ofItems_condForm hexpr
    refine yields_iff_of_refines (fun depth => depth) (fun depth => depth + clauses.length + 3)
      (fun depth => ?_) fun depth => ?_
    · cases depth with
      | zero => exact .tooDeep _
      | succ depth =>
        show (eval (depth + 1) (Value.condForm clauses) s).Refines _
        rw [Value.condForm, eval_list_of_form hform]
        exact (eval_expansion_refines depth s hexpr).trans
          ((eval_refines_succ depth).clauses s clauses)
    · show Refines _ (eval (depth + clauses.length + 2 + 1) (Value.condForm clauses) s)
      rw [Value.condForm, eval_list_of_form hform]
      exact Evaluator.clauses_refines depth s hexpr

end AtomLisp
