import AtomLisp.Proofs.Clauses
import AtomLisp.Proofs.Preservation
import AtomLisp.Proofs.Shadowing

/-!
# Programs without procedures of their own

An expression that makes no closure, evaluated where no closure is bound, has only builtin
operations to apply. So nothing is evaluated but the parts of the expression, each at most once, and
evaluation ends within a number of levels that can be read off the expression (`Value.levels`).

Clauses need more levels than they are deep, as each is nested in the expansion of the one before
it. The expansion need not be measured: what it does is said without it, clause by clause, and there
only parts of the clauses are evaluated (`Eval.Settles.clauses`, `Eval.Settles.expansion`).

A computation that concludes maintains what is true of the store and is never cut short; it settles
if so it does in a scope that sees no closure. `settles_eval` shows this of every expression that is
free of procedures, and `procedure_free_finishes` that it has one result, at every depth from there
on.
-/

namespace AtomLisp

open Eval

namespace Value

/-- The list defines a procedure: it is a `define` with a list as its signature. -/
def isProcedureDefinition : List Value → Bool
  | .atom text :: .list _ :: _ => text == Keyword.define.text
  | _ => false

mutual

/-- Nothing in the expression is a closure, the atom `lambda`, or a `define` with a list as its
signature. -/
def isProcedureFree : Value → Bool
  | .atom text => text != Keyword.lambda.text
  | .list items => !isProcedureDefinition items && areProcedureFree items
  | .builtin _ => true
  | .closure _ _ => false

def areProcedureFree : List Value → Bool
  | [] => true
  | x :: xs => x.isProcedureFree && areProcedureFree xs

end

mutual

/-- A number of levels within which the expression can be evaluated, if it is free of procedures.
The elements of a list may be clauses, each of which takes one level more than the one after it. -/
def levels : Value → Nat
  | .list items => levelsOfAll items + items.length + 1
  | _ => 1

/-- The greatest number of levels of any of the expressions. -/
def levelsOfAll : List Value → Nat
  | [] => 0
  | x :: xs => max x.levels (levelsOfAll xs)

end

/-- The elements of a list that is free of procedures are so too. -/
theorem isProcedureFree_of_mem {items : List Value} {x : Value}
    (h : areProcedureFree items = true) (hx : x ∈ items) : x.isProcedureFree = true := by
  induction items with
  | nil => cases hx
  | cons y items ih =>
    rw [areProcedureFree, Bool.and_eq_true] at h
    rcases List.mem_cons.1 hx with rfl | hx
    · exact h.1
    · exact ih h.2 hx

/-- An element of a list has no more levels than all of them. -/
theorem levels_le_of_mem {items : List Value} {x : Value} (hx : x ∈ items) :
    x.levels ≤ levelsOfAll items := by
  induction items with
  | nil => cases hx
  | cons y items ih =>
    rw [levelsOfAll]
    rcases List.mem_cons.1 hx with rfl | hx
    · exact Nat.le_max_left _ _
    · exact Nat.le_trans (ih hx) (Nat.le_max_right _ _)

/-- A list has a level more for each of its elements, and one for itself. -/
theorem levels_list (items : List Value) :
    (list items).levels = levelsOfAll items + items.length + 1 := by
  rw [levels]

theorem levels_pos (x : Value) : 0 < x.levels := by
  cases x <;> simp [levels]

/-- An expression that is free of procedures is no closure. -/
theorem isClosure_eq_false_of_isProcedureFree {x : Value} (h : x.isProcedureFree = true) :
    x.isClosure = false := by
  cases x with
  | closure head body => cases h
  | _ => rfl

/-- A value is a closure whatever it is bound to. -/
theorem isClosure_named (name : String) (v : Value) : (v.named name).isClosure = v.isClosure := by
  cases v <;> rfl

/-- What a list of clauses needs below itself: levels for the expansion, and what is left of them is
enough for the parts of the clauses. -/
theorem exists_levels_of_clauses {items : List Value} (hne : items ≠ []) {depth : Nat}
    (h : (list items).levels ≤ depth + 1) :
    ∃ below, depth = below + items.tail.length + 2 ∧
      ∀ inner, list inner ∈ items.tail → ∀ x ∈ inner, x.levels ≤ below := by
  obtain ⟨keyword, clauses, rfl⟩ := List.exists_cons_of_ne_nil hne
  have hkeyword : keyword.levels ≤ levelsOfAll (keyword :: clauses) :=
    levels_le_of_mem List.mem_cons_self
  have hpos := keyword.levels_pos
  rw [levels_list, List.length_cons] at h
  rw [List.tail_cons]
  refine ⟨depth - clauses.length - 2, by omega, fun inner hinner x hx => ?_⟩
  have hclause := levels_le_of_mem (List.mem_cons_of_mem keyword hinner)
  rw [levels_list] at hclause
  have hpart := levels_le_of_mem hx
  have hlength := List.length_pos_of_mem hx
  omega

section List

variable {items : List Value} (h : (list items).isProcedureFree = true)
include h

/-- The elements of a list free of procedures are free of them. -/
theorem isProcedureFree_of_mem_list {x : Value} (hx : x ∈ items) : x.isProcedureFree = true := by
  rw [isProcedureFree, Bool.and_eq_true] at h
  exact isProcedureFree_of_mem h.2 hx

/-- The keyword of such a list does not ask for a closure. -/
theorem keyword_of_isProcedureFree {keyword : Keyword}
    (hheading : Keyword.heading? items = some keyword) :
    keyword ≠ .lambda ∧
      (keyword = .define → ∀ signature body, items.tail ≠ .list signature :: body) := by
  match items, hheading with
  | .atom text :: operands, hheading =>
    have htext : keyword.text = text := Keyword.ofText?_eq_some_iff.1 hheading
    have hatom : text ≠ Keyword.lambda.text := by
      simpa [isProcedureFree] using isProcedureFree_of_mem_list h List.mem_cons_self
    refine ⟨?_, ?_⟩
    · rintro rfl
      exact hatom htext.symm
    · rintro rfl signature body rfl
      subst htext
      simp [isProcedureFree, isProcedureDefinition] at h

end List

end Value

namespace Store

/-- No binding of this scope, or of one around it, is a closure, not even one that does not answer
any more. -/
def SeesNoClosure (st : Store) (s : ScopeId) : Prop :=
  ∀ t ∈ st.chain s, ∀ name b, st.binding? t name = some b → b.held.isClosure = false

namespace SeesNoClosure

variable {st : Store} {s : ScopeId} (h : st.SeesNoClosure s)
include h

/-- A scope that sees no closure answers with none. -/
theorem isClosure_lookup (name : String) : (st.lookup s name).isClosure = false := by
  rw [lookup]
  cases hfind : st.find? s name with
  | none =>
    rw [Option.getD_none, unbound]
    cases Builtin.ofName? name <;> rfl
  | some v =>
    obtain ⟨t, ht, b, hb, rfl⟩ := exists_binding_of_find? st s name v hfind
    exact h t ht name b hb

/-- A scope that sees no closure goes on so if it binds something else. -/
theorem define {name : String} {v : Value} (hv : v.isClosure = false) :
    (st.define s name v).SeesNoClosure s := by
  intro t ht key b hb
  rw [chain_define] at ht
  rw [binding?_define] at hb
  split at hb
  · obtain rfl := Option.some.inj hb
    rw [Binding.held_hold, Value.isClosure_named, hv]
  · exact h t ht key b hb

end SeesNoClosure

end Store

namespace Eval

variable {α β : Type}

/-- What `I` says of a store stays true of it, and the computation ends with a value of which `Q` is
true, or with an error; it is not cut short. -/
structure Concludes (I : Store → Prop) (Q : α → Prop) (act : Eval α) : Prop where
  maintains : Maintains I Q act
  finished (session : Session) (h : I session.store) : Finished (act session)

namespace Concludes

variable {I : Store → Prop} {Q : α → Prop} {R : β → Prop}

theorem pure {a : α} (h : Q a) : Concludes I Q (Pure.pure a) :=
  ⟨.pure h, fun _ _ _ hcut => nomatch hcut⟩

theorem raise (reason : Fault) : Concludes I Q (Eval.raise reason) :=
  ⟨.raise reason, fun _ _ _ hcut => nomatch hcut⟩

theorem emit (event : Event) : Concludes I (fun _ => True) (Eval.emit event) :=
  ⟨.emit event, fun _ _ _ hcut => nomatch hcut⟩

theorem write (text : String) : Concludes I (fun _ => True) (Eval.write text) :=
  ⟨.write text, fun _ _ _ hcut => nomatch hcut⟩

/-- Two steps conclude if each does, the second one with the value of the first. -/
theorem bind {act : Eval α} {next : α → Eval β} (hact : Concludes I Q act)
    (hnext : ∀ a, Q a → Concludes I R (next a)) : Concludes I R (act >>= next) := by
  refine ⟨.bind hact.maintains fun a ha => (hnext a ha).maintains, fun session hs t hcut => ?_⟩
  obtain ⟨hafter, hvalue⟩ := hact.maintains session hs
  simp only [Bind.bind, EStateM.bind] at hcut
  cases hrun : act session with
  | ok a later =>
    rw [hrun] at hcut
    rw [after, hrun] at hafter
    have ha : Q a := hvalue a (by rw [outcome, hrun])
    exact (hnext a ha).finished later hafter t hcut
  | error stop later =>
    rw [hrun] at hcut
    obtain ⟨rfl, rfl⟩ := EStateM.Result.error.inj hcut
    exact hact.finished session hs _ hrun

theorem within {act : Eval α} (h : Concludes I Q act) (form : Value) :
    Concludes I Q (Eval.within form act) := by
  refine ⟨h.maintains.within form, fun session hs t hcut => ?_⟩
  unfold Eval.within at hcut
  cases hrun : act session with
  | ok a later =>
    rw [hrun] at hcut
    cases hcut
  | error stop later =>
    rw [hrun] at hcut
    cases stop with
    | error e => cases hcut
    | tooDeep => exact h.finished session hs later hrun

/-- To conclude is a judgment that steps in order pass on. -/
theorem judgment : Judgment (Concludes I) where
  pure := pure
  raise := raise
  emit := emit
  write := write
  bind := bind

/-- Where a computation concludes, one that refines it does the same, so it concludes as well. -/
theorem of_refines {act act' : Eval α} (h : Concludes I Q act) (hrefines : act.Refines act') :
    Concludes I Q act' := by
  have heq : ∀ session, I session.store → act' session = act session :=
    fun session hs => hrefines.eq_of_finished (h.finished session hs)
  refine ⟨fun session hs => ?_, fun session hs => ?_⟩
  · rw [after, outcome, heq session hs]
    exact h.maintains session hs
  · rw [heq session hs]
    exact h.finished session hs

end Concludes

end Eval

/-! ### Evaluation where no closure is bound -/

/-- In a scope that sees no closure, the computation concludes with a value that is none, and the
scope still sees none. -/
abbrev Eval.Settles (s : ScopeId) (act : Eval Value) : Prop :=
  Concludes (fun st => st.SeesNoClosure s) (fun v => v.isClosure = false) act

namespace Eval.Settles

variable {s : ScopeId}

/-- Looking up a name yields no closure where none is bound. -/
theorem lookup (s : ScopeId) (name : String) : (Eval.lookup s name).Settles s := by
  refine ⟨fun session hs => ⟨hs, fun v hv => ?_⟩, fun _ _ _ hcut => nomatch hcut⟩
  obtain rfl := Except.ok.inj hv
  exact hs.isClosure_lookup name

/-- A definition of a value that is no closure settles. -/
theorem define (name : String) {v : Value} (hv : v.isClosure = false) :
    (Eval.define s name v).Settles s := by
  refine ⟨fun session hs => ⟨hs.define hv, fun u hu => ?_⟩, fun _ _ _ hcut => nomatch hcut⟩
  obtain rfl := Except.ok.inj hu
  rw [Value.isClosure_named, hv]

/-- A branch settles if its parts do, whichever is taken. -/
theorem branch {predicate consequent alternative : Eval Value} (hpredicate : predicate.Settles s)
    (hconsequent : consequent.Settles s) (halternative : alternative.Settles s) :
    Settles s (do
      let v ← predicate
      if ← Eval.ofExcept v.truthiness then consequent else alternative) := by
  refine .bind hpredicate fun v _ => ?_
  refine .bind (Concludes.judgment.ofExcept (Q := fun _ => True) fun _ _ => trivial) fun b _ => ?_
  cases b with
  | true => exact hconsequent
  | false => exact halternative

variable {ev : Evaluator Eval}

theorem sequence {exprs : List Value} (h : ∀ x ∈ exprs, (ev x s).Settles s) :
    (ev.sequence exprs s).Settles s :=
  Concludes.judgment.foldlM (fun _ _ x hx => h x hx) rfl

/-- What is applied is no closure, so it is a builtin operation or cannot be applied. -/
theorem application {items : List Value} (h : ∀ x ∈ items, (ev x s).Settles s) :
    (ev.application items s).Settles s := by
  cases items with
  | nil => exact .raise _
  | cons operator operands =>
    obtain ⟨hoperator, hoperands⟩ := List.forall_mem_cons.1 h
    refine .bind hoperator fun procedure hprocedure => ?_
    refine .bind (Concludes.judgment.mapM hoperands) fun args _ => ?_
    cases procedure with
    | builtin op => exact Concludes.judgment.call (fun _ => rfl) op args
    | closure head body => cases hprocedure
    | _ => exact .raise _

/-- Clauses are settled, well-formed or not, if all predicates and actions are. -/
theorem clauses {clauses : List Value}
    (h : ∀ items, .list items ∈ clauses → ∀ x ∈ items, (ev x s).Settles s) :
    (ev.clauses s clauses).Settles s := by
  induction clauses with
  | nil => exact lookup s "#f"
  | cons clause rest ih =>
    have hrest := ih fun items hitems => h items (List.mem_cons_of_mem _ hitems)
    match clause, h with
    | .list (predicate :: actions), h =>
      obtain ⟨hpredicate, hactions⟩ := List.forall_mem_cons.1 (h _ List.mem_cons_self)
      rw [Evaluator.clauses_cons_list]
      split
      · exact sequence hactions
      · exact branch hpredicate (sequence hactions) hrest
    | .list [], _ => exact .raise _
    | .atom _, _ => exact .raise _
    | .builtin _, _ => exact .raise _
    | .closure _ _, _ => exact .raise _

/-- The expansion of clauses takes one level more than the clauses need for each of them, and two
more. -/
theorem expansion {depth : Nat} {clauses : List Value} {expr : Value}
    (hexpr : Form.ofCond clauses = .ok expr)
    (h : ∀ items, .list items ∈ clauses → ∀ x ∈ items, (eval depth x s).Settles s) :
    (eval (depth + clauses.length + 2) expr s).Settles s :=
  (Settles.clauses h).of_refines (Evaluator.clauses_refines depth s hexpr)

/-- A form with a keyword that makes no closure is settled if its operands are, or what they stand
for as clauses. -/
theorem form {keyword : Keyword} {operands : List Value} {form : Form}
    (hmakes : Form.Makes keyword operands form) (hlambda : keyword ≠ .lambda)
    (hdefine : keyword = .define → ∀ signature body, operands ≠ .list signature :: body)
    (hclosure : ∀ x ∈ operands, x.isClosure = false)
    (h : ∀ x ∈ operands, (ev x s).Settles s)
    (hcond : ∀ expr, Form.ofCond operands = .ok expr → (ev expr s).Settles s) :
    (ev.form s form).Settles s := by
  cases hmakes with
  | lambda _ => exact absurd rfl hlambda
  | defineProcedure _ => exact absurd rfl (hdefine rfl _ _)
  | @defineValue name expr =>
    exact .bind (h expr (by simp)) fun v hv => define name hv
  | @branch predicate consequent =>
    exact branch (h predicate (by simp)) (h consequent (by simp)) (.pure rfl)
  | @branchElse predicate consequent alternative =>
    exact branch (h predicate (by simp)) (h consequent (by simp)) (h alternative (by simp))
  | @quote datum => exact .pure (hclosure datum List.mem_cons_self)
  | quoteAll _ => exact .pure rfl
  | cond hexpr => exact hcond _ hexpr
  | begin => exact sequence h

end Eval.Settles

/-- Within its levels, an expression that is free of procedures is settled. -/
theorem settles_eval (depth : Nat) (s : ScopeId) {x : Value} (hfree : x.isProcedureFree = true)
    (hlevels : x.levels ≤ depth) : (eval depth x s).Settles s := by
  -- Parts of clauses are evaluated several levels further down, so the induction is strong.
  induction depth using Nat.strongRecOn generalizing x with
  | _ depth ih =>
    match depth, hlevels with
    | 0, hlevels => exact absurd hlevels (Nat.not_le_of_lt x.levels_pos)
    | depth + 1, hlevels =>
      cases x with
      | atom name => exact .lookup s name
      | builtin op => exact .pure rfl
      | closure head body => cases hfree
      | list items =>
        cases hform : Form.ofItems items with
        | error reason =>
          rw [eval_list_of_fault hform]
          exact .raise reason
        | ok form =>
          rw [eval_list_of_form hform]
          rw [Value.levels_list] at hlevels
          have hitem : ∀ x ∈ items, (eval depth x s).Settles s := fun x hx =>
            ih depth (Nat.lt_succ_self depth) (Value.isProcedureFree_of_mem_list hfree hx)
              (by have := Value.levels_le_of_mem hx; omega)
          rw [Form.ofItems] at hform
          split at hform
          · next keyword hheading =>
            obtain ⟨hlambda, hdefine⟩ := Value.keyword_of_isProcedureFree hfree hheading
            have htail : ∀ x ∈ items.tail, x ∈ items := fun x => List.mem_of_mem_tail
            refine .form (Form.makes_of_ofOperands hform) hlambda hdefine ?_
              (fun x hx => hitem x (htail x hx)) fun expr hexpr => ?_
            · exact fun x hx => Value.isClosure_eq_false_of_isProcedureFree
                (Value.isProcedureFree_of_mem_list hfree (htail x hx))
            · have hne : items ≠ [] := by
                rintro rfl
                cases hheading
              obtain ⟨below, rfl, hlevel⟩ := Value.exists_levels_of_clauses hne hlevels
              refine Settles.expansion hexpr fun inner hinner x hx => ?_
              have hclause := Value.isProcedureFree_of_mem_list hfree (htail _ hinner)
              exact ih below (by omega) (Value.isProcedureFree_of_mem_list hclause hx)
                (hlevel inner hinner x hx)
          · obtain rfl := Except.ok.inj hform
            exact .within (Settles.application hitem) (.list items)

/-- **Programs without procedures of their own always finish.** Let nothing in an expression be a
closure, the atom `lambda`, or a `define` with a list as its signature, and let no scope on the
chain of `s` bind a closure. Then evaluation in `s` ends with a value that is no closure, or with an
error, within a number of levels that is read off the expression, whatever the session is, and more
levels change nothing. Afterwards there is still no closure bound on the chain. -/
theorem procedure_free_finishes {x : Value} (hx : x.isProcedureFree = true) {s : ScopeId}
    {session : Session} (hs : session.store.SeesNoClosure s) :
    ∃ t : Session, t.store.SeesNoClosure s ∧
      ((∃ v, v.isClosure = false ∧
          ∀ depth, x.levels ≤ depth → eval depth x s session = .ok v t) ∨
        ∃ e, ∀ depth, x.levels ≤ depth → eval depth x s session = .error (.error e) t) := by
  have hsettles := settles_eval x.levels s hx (Nat.le_refl _)
  have hfinished := hsettles.finished session hs
  obtain ⟨hafter, hvalue⟩ := hsettles.maintains session hs
  have hmore : ∀ depth, x.levels ≤ depth →
      eval depth x s session = eval x.levels x s session :=
    fun depth hle => (eval_refines hle x s).eq_of_finished hfinished
  unfold after at hafter
  unfold outcome at hvalue
  cases hrun : eval x.levels x s session with
  | ok v t =>
    rw [hrun] at hafter hvalue
    exact ⟨t, hafter, .inl ⟨v, hvalue v rfl, fun depth hle => (hmore depth hle).trans hrun⟩⟩
  | error stop t =>
    rw [hrun] at hafter
    cases stop with
    | error e => exact ⟨t, hafter, .inr ⟨e, fun depth hle => (hmore depth hle).trans hrun⟩⟩
    | tooDeep => exact absurd hrun (hfinished t)

/-- In a new root, an `else` clause that defines a name finishes within its levels. -/
theorem clauses_finish_in_new_root :
    let x : Value := .list [.atom "cond", .list [.atom "else",
      .list [.atom "define", .atom "x", .list [.atom "quote", .atom "y"]]]]
    ∃ t : Session, t.store.SeesNoClosure 0 ∧
      ∀ depth, x.levels ≤ depth → eval depth x 0 (Eval.newRoot.after {}) =
        .ok (.atom "y") t := by
  intro x
  have hs : (Eval.newRoot.after {}).store.SeesNoClosure 0 := by
    intro t _ name b hb
    rw [show (Eval.newRoot.after {}).store = Store.addScope {} none from rfl,
      Store.binding?_addScope, Store.binding?_of_nextScope_le _ _ _ (Nat.zero_le t)] at hb
    cases hb
  have hvalue : (eval x.levels x 0).outcome (Eval.newRoot.after {}) = .ok (.atom "y") := rfl
  obtain ⟨t, ht, h⟩ := procedure_free_finishes (show x.isProcedureFree = true from rfl) hs
  unfold outcome at hvalue
  refine ⟨t, ht, ?_⟩
  rcases h with ⟨v, -, hrun⟩ | ⟨e, hrun⟩
  · rw [hrun _ (Nat.le_refl _)] at hvalue
    obtain rfl := Except.ok.inj hvalue
    exact hrun
  · rw [hrun _ (Nat.le_refl _)] at hvalue
    cases hvalue

end AtomLisp
