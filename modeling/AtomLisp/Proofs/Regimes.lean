import AtomLisp.Program
import AtomLisp.Proofs.Occurrence
import AtomLisp.Proofs.Preservation
import Mathlib.Order.Basic

/-!
# Regimes

A regime says which closures may occur, which expressions may be evaluated and which faults may
arise while a program runs. What is known of a closure may refer to an account of the run so far,
which only ever grows. The conditions that a regime has to meet concern single steps: what a list is
as a form, and the making of one closure. Evaluation then stays within it, however it ends
(`Regime.obeys_eval`), and so do applications and programs.

The account plays the part of a typing of the store: it is not found in a session, and a computation
that makes closures leaves a longer one. All that is known of values at hand stays true of every
later account.
-/

namespace AtomLisp

open Store

/-- The expressions of a form that are evaluated, at once or when the closure that the form makes is
applied. A quoted datum is not. -/
def Form.evaluated : Form → List Value
  | .quote _ => []
  | form => form.parts

/-- What may occur, be evaluated and go wrong while a program runs. -/
structure Regime (Account : Type) [Preorder Account] where
  /-- The closures that may occur. -/
  procedure : Account → ClosureHead → List Value → Prop
  /-- The account is one of a run in which that many closures have been made. -/
  counts : Account → Nat → Prop
  /-- The expressions that may be evaluated. -/
  expression : Value → Prop
  /-- The faults that may arise. -/
  fault : Fault → Prop
  procedure_mono {w w' : Account} {head : ClosureHead} {body : List Value} :
    w ≤ w' → procedure w head body → procedure w' head body
  procedure_named {w : Account} {head : ClosureHead} {body : List Value} (name : Option String) :
    procedure w head body → procedure w { head with name } body
  expression_body {w : Account} {head : ClosureHead} {body : List Value} :
    procedure w head body → ∀ x ∈ body, expression x
  /-- The closure that is made next may occur, in a longer account. -/
  make {w : Account} {n : Nat} (params : List String) (s : ScopeId) {body : List Value} :
    counts w n → (∀ x ∈ body, expression x) →
    ∃ w', w ≤ w' ∧ counts w' (n + 1) ∧
      procedure w' { name := none, params, scope := s, id := n } body
  expression_evaluated {items : List Value} {form : Form} :
    expression (.list items) → Form.ofItems items = .ok form →
    ∀ x ∈ form.evaluated, expression x
  fault_ofItems {items : List Value} {reason : Fault} :
    expression (.list items) → Form.ofItems items = .error reason → fault reason
  /-- Only a list that has not the shape of its keyword is ever ruled out. -/
  fault_of_kind {reason : Fault} : reason.kind ≠ .malformed → fault reason

namespace Regime

variable {Account : Type} [Preorder Account] (R : Regime Account)

/-- The value may occur: all closures within it may. -/
def Admits (w : Account) (v : Value) : Prop :=
  v.EveryProcedure (R.procedure w)

/-- The expression may be evaluated, and all closures within it may occur. -/
structure Covers (w : Account) (x : Value) : Prop where
  expression : R.expression x
  admits : R.Admits w x

/-- The account is one of the run that has led to this store, and all bound values may occur. -/
structure Governs (w : Account) (st : Store) : Prop where
  counts : R.counts w st.closures
  admits (s : ScopeId) (name : String) (b : Binding) (h : st.binding? s name = some b) :
    R.Admits w b.held

variable {R} {w w' : Account}

theorem Admits.mono {v : Value} (h : R.Admits w v) (hle : w ≤ w') : R.Admits w' v :=
  Value.EveryProcedure.mono h fun _ _ => R.procedure_mono hle

/-- A name does not matter to whether a value may occur. -/
theorem Admits.named {v : Value} (h : R.Admits w v) (name : String) : R.Admits w (v.named name) :=
  Value.EveryProcedure.named h name fun _ _ name => R.procedure_named name

theorem Admits.atom (text : String) : R.Admits w (.atom text) :=
  Value.everyProcedure_atom text

theorem Admits.nil : R.Admits w .nil :=
  Value.everyProcedure_nil

theorem Covers.mono {x : Value} (h : R.Covers w x) (hle : w ≤ w') : R.Covers w' x :=
  ⟨h.expression, h.admits.mono hle⟩

/-- The forms in the body of a closure that may occur may be evaluated. -/
theorem Admits.covers_body {head : ClosureHead} {body : List Value}
    (h : R.Admits w (.closure head body)) : ∀ x ∈ body, R.Covers w x := by
  obtain ⟨hself, hbody⟩ := Value.everyProcedure_closure.1 h
  exact fun x hx => ⟨R.expression_body hself x hx, hbody x hx⟩

/-- The parts of a list that may be evaluated may occur, and those that are evaluated may be. -/
theorem Covers.parts {items : List Value} {form : Form} (h : R.Covers w (.list items))
    (hform : Form.ofItems items = .ok form) :
    (∀ x ∈ form.parts, R.Admits w x) ∧ ∀ x ∈ form.evaluated, R.expression x :=
  ⟨Form.forall_parts Value.hereditary_everyProcedure h.admits hform,
    R.expression_evaluated h.expression hform⟩

/-! ### What a regime says of changes to a store -/

namespace Governs

variable {st : Store}

theorem define (h : R.Governs w st) (s : ScopeId) (name : String) {v : Value}
    (hv : R.Admits w v) : R.Governs w (st.define s name v) :=
  ⟨h.counts, EveryBinding.define h.admits s (hv.named name)⟩

theorem addScope (h : R.Governs w st) (parent : Option ScopeId) :
    R.Governs w (st.addScope parent) :=
  ⟨h.counts, EveryBinding.addScope h.admits parent⟩

/-- To open a scope with what may occur keeps to the regime. -/
theorem extend (h : R.Governs w st) (s : ScopeId) {bindings : List (String × Value)}
    (hbindings : ∀ binding ∈ bindings, R.Admits w binding.2) :
    R.Governs w (st.extend s bindings) := by
  refine ⟨?_, EveryBinding.extend h.admits s fun binding hbinding => ?_⟩
  · rw [closures_extend]
    exact h.counts
  · exact (hbindings binding hbinding).named binding.1

theorem release (h : R.Governs w st) (s : ScopeId) : R.Governs w (st.release s) :=
  ⟨h.counts, EveryBinding.release h.admits s⟩

/-- A closure that is counted must be in the account. -/
theorem countClosure (h : R.Governs w st) (hle : w ≤ w')
    (hcounts : R.counts w' (st.closures + 1)) : R.Governs w' st.countClosure :=
  ⟨hcounts, fun t key b hb => (h.admits t key b hb).mono hle⟩

theorem admits_lookup (h : R.Governs w st) (s : ScopeId) (name : String) :
    R.Admits w (st.lookup s name) :=
  everyProcedure_lookup fun t _ b hb => h.admits t name b hb

end Governs

/-! ### Computations that stay within a regime -/

variable {α β : Type}

/-- The error may arise, and the forms in its context may occur. -/
structure Permits (R : Regime Account) (w : Account) (e : Error) : Prop where
  fault : R.fault e.fault
  context (form : Value) (h : form ∈ e.context) : R.Admits w form

/-- How a computation ends that was started with the account `w`. -/
inductive Ends (R : Regime Account) (w : Account) (Q : Account → α → Prop) :
    EStateM.Result Stop Session α → Prop where
  | value {w' : Account} {a : α} {t : Session} : w ≤ w' → R.Governs w' t.store → Q w' a →
      Ends R w Q (.ok a t)
  | error {w' : Account} {e : Error} {t : Session} : w ≤ w' → R.Governs w' t.store →
      R.Permits w' e → Ends R w Q (.error (.error e) t)
  | tooDeep {w' : Account} {t : Session} : w ≤ w' → R.Governs w' t.store →
      Ends R w Q (.error .tooDeep t)

/-- Started with the account `w` or a later one, the computation stays within the regime, and what
`Q` says holds of its value. -/
def Obeys (R : Regime Account) (w : Account) (Q : Account → α → Prop) (act : Eval α) : Prop :=
  ∀ w' session, w ≤ w' → R.Governs w' session.store → R.Ends w' Q (act session)

namespace Ends

variable {Q : Account → α → Prop}

/-- What ends a computation also ends one that began with an earlier account. -/
theorem trans {result : EStateM.Result Stop Session α} (h : R.Ends w' Q result) (hle : w ≤ w') :
    R.Ends w Q result := by
  cases h with
  | value hle' hgoverns hQ => exact .value (le_trans hle hle') hgoverns hQ
  | error hle' hgoverns hpermits => exact .error (le_trans hle hle') hgoverns hpermits
  | tooDeep hle' hgoverns => exact .tooDeep (le_trans hle hle') hgoverns

variable {act : Eval α} {session : Session}

/-- However a computation ends, the store that it leaves has an account. -/
theorem governs (h : R.Ends w Q (act session)) :
    ∃ w', w ≤ w' ∧ R.Governs w' (act.after session).store := by
  unfold Eval.after
  generalize act session = result at h
  cases h with
  | value hle hgoverns _ => exact ⟨_, hle, hgoverns⟩
  | error hle hgoverns _ => exact ⟨_, hle, hgoverns⟩
  | tooDeep hle hgoverns => exact ⟨_, hle, hgoverns⟩

/-- A value that is computed may occur, in a later account. -/
theorem of_outcome_ok (h : R.Ends w Q (act session)) {a : α}
    (ha : act.outcome session = .ok a) :
    ∃ w', w ≤ w' ∧ R.Governs w' (act.after session).store ∧ Q w' a := by
  unfold Eval.outcome at ha
  unfold Eval.after
  generalize act session = result at h ha
  cases h with
  | value hle hgoverns hQ =>
    obtain rfl := Except.ok.inj ha
    exact ⟨_, hle, hgoverns, hQ⟩
  | error _ _ _ => cases ha
  | tooDeep _ _ => cases ha

/-- An error that arises is permitted, in a later account. -/
theorem of_outcome_error (h : R.Ends w Q (act session)) {e : Error}
    (he : act.outcome session = .error (.error e)) :
    ∃ w', w ≤ w' ∧ R.Governs w' (act.after session).store ∧ R.Permits w' e := by
  unfold Eval.outcome at he
  unfold Eval.after
  generalize act session = result at h he
  cases h with
  | value _ _ _ => cases he
  | error hle hgoverns hpermits =>
    obtain rfl := Stop.error.inj (Except.error.inj he)
    exact ⟨_, hle, hgoverns, hpermits⟩
  | tooDeep _ _ => cases he

end Ends

namespace Obeys

variable {Q : Account → α → Prop} {P : Account → β → Prop}

/-- A computation stays within a regime with a longer account. -/
theorem mono {act : Eval α} (h : R.Obeys w Q act) (hle : w ≤ w') : R.Obeys w' Q act :=
  fun w'' session hle' => h w'' session (le_trans hle hle')

theorem pure {a : α} (h : ∀ w', w ≤ w' → Q w' a) : R.Obeys w Q (Pure.pure a) :=
  fun w' _ hle hgoverns => .value le_rfl hgoverns (h w' hle)

theorem raise {reason : Fault} (h : R.fault reason) : R.Obeys w Q (Eval.raise reason) :=
  fun _ _ _ hgoverns => .error le_rfl hgoverns ⟨h, fun _ hform => absurd hform List.not_mem_nil⟩

theorem tooDeep : R.Obeys w Q (throw .tooDeep) :=
  fun _ _ _ hgoverns => .tooDeep le_rfl hgoverns

/-- A check stays within a regime if its faults may arise. -/
theorem ofExcept {checked : Except Fault α}
    (hok : ∀ a, checked = .ok a → ∀ w', w ≤ w' → Q w' a)
    (herror : ∀ reason, checked = .error reason → R.fault reason) :
    R.Obeys w Q (Eval.ofExcept checked) := by
  cases checked with
  | ok a => exact pure (hok a rfl)
  | error reason => exact raise (herror reason rfl)

theorem emit (event : Event) : R.Obeys w (fun _ _ => True) (Eval.emit event) :=
  fun _ _ _ hgoverns => .value le_rfl hgoverns trivial

theorem write (text : String) : R.Obeys w (fun _ _ => True) (Eval.write text) :=
  fun _ _ _ hgoverns => .value le_rfl hgoverns trivial

/-- What comes next may use all that is known when the first computation has ended. -/
theorem bind {act : Eval α} {next : α → Eval β} (hact : R.Obeys w Q act)
    (hnext : ∀ w' a, w ≤ w' → Q w' a → R.Obeys w' P (next a)) :
    R.Obeys w P (act >>= next) := by
  intro w₁ session hle hgoverns
  have h := hact w₁ session hle hgoverns
  show R.Ends w₁ P (EStateM.bind act next session)
  unfold EStateM.bind
  generalize act session = result at h
  cases h with
  | @value w₂ a t hle' hgoverns' hQ =>
    have hrest := hnext w₂ a (le_trans hle hle') hQ w₂ t le_rfl hgoverns'
    exact hrest.trans hle'
  | error hle' hgoverns' hpermits => exact .error hle' hgoverns' hpermits
  | tooDeep hle' hgoverns' => exact .tooDeep hle' hgoverns'

/-- The context of an error must be made of what may occur. -/
theorem within {form : Value} (hform : R.Admits w form) {act : Eval α} (hact : R.Obeys w Q act) :
    R.Obeys w Q (Eval.within form act) := by
  intro w₁ session hle hgoverns
  have h := hact w₁ session hle hgoverns
  unfold Eval.within
  generalize act session = result at h
  cases h with
  | value hle' hgoverns' hQ => exact .value hle' hgoverns' hQ
  | tooDeep hle' hgoverns' => exact .tooDeep hle' hgoverns'
  | @error w₂ e t hle' hgoverns' hpermits =>
    refine .error hle' hgoverns' ⟨hpermits.fault, fun x hx => ?_⟩
    rw [Error.context_within] at hx
    rcases List.mem_append.1 hx with hx | hx
    · exact hpermits.context x hx
    · rw [List.mem_singleton.1 hx]
      exact hform.mono (le_trans hle hle')

/-! ### Steps that read and change the store -/

theorem lookup (s : ScopeId) (name : String) : R.Obeys w R.Admits (Eval.lookup s name) :=
  fun _ _ _ hgoverns => .value le_rfl hgoverns (hgoverns.admits_lookup s name)

theorem define (s : ScopeId) (name : String) {v : Value} (hv : R.Admits w v) :
    R.Obeys w R.Admits (Eval.define s name v) := by
  intro w' session hle hgoverns
  have hv' : R.Admits w' v := hv.mono hle
  exact .value le_rfl (hgoverns.define s name hv') (hv'.named name)

theorem extend (s : ScopeId) {bindings : List (String × Value)}
    (hbindings : ∀ binding ∈ bindings, R.Admits w binding.2) :
    R.Obeys w (fun _ _ => True) (Eval.extend s bindings) := by
  intro w' session hle hgoverns
  have hbindings' : ∀ binding ∈ bindings, R.Admits w' binding.2 :=
    fun binding hbinding => (hbindings binding hbinding).mono hle
  exact .value le_rfl (hgoverns.extend s hbindings') trivial

/-- The closure that is made next is entered in the account. -/
theorem makeClosure (params : List String) (s : ScopeId) {body : List Value}
    (hbody : ∀ x ∈ body, R.Covers w x) :
    R.Obeys w R.Admits (Eval.makeClosure params body s) := by
  intro w₁ session hle hgoverns
  have hexpression : ∀ x ∈ body, R.expression x := fun x hx => (hbody x hx).expression
  obtain ⟨w₂, hle', hcounts, hself⟩ := R.make params s hgoverns.counts hexpression
  refine .value hle' (hgoverns.countClosure hle' hcounts) ?_
  exact Value.everyProcedure_closure.2
    ⟨hself, fun x hx => (hbody x hx).admits.mono (le_trans hle hle')⟩

/-! ### Steps in order -/

/-- Steps that each take the value of the one before, one for each element of a list. -/
theorem foldlM {f : Value → α → Eval Value} {xs : List α}
    (h : ∀ w', w ≤ w' → ∀ v, ∀ x ∈ xs, R.Obeys w' R.Admits (f v x)) {v : Value}
    (hv : R.Admits w v) : R.Obeys w R.Admits (xs.foldlM f v) := by
  induction xs generalizing w v with
  | nil => exact pure fun w' hle => hv.mono hle
  | cons x xs ih =>
    rw [List.foldlM_cons]
    refine bind (h w le_rfl v x List.mem_cons_self) fun w' u hle hu => ?_
    refine ih (fun w'' hle' u' y hy => ?_) hu
    exact h w'' (le_trans hle hle') u' y (List.mem_cons_of_mem _ hy)

/-- Steps that yield the values of a list, one for each element of another list. -/
theorem mapM {f : α → Eval Value} {xs : List α}
    (h : ∀ w', w ≤ w' → ∀ x ∈ xs, R.Obeys w' R.Admits (f x)) :
    R.Obeys w (fun w' vs => ∀ v ∈ vs, R.Admits w' v) (xs.mapM f) := by
  induction xs generalizing w with
  | nil =>
    rw [List.mapM_nil]
    exact pure fun _ _ v hv => absurd hv List.not_mem_nil
  | cons x xs ih =>
    rw [List.mapM_cons]
    refine bind (h w le_rfl x List.mem_cons_self) fun w₁ v hle hv => ?_
    have hrest := ih (w := w₁) fun w' hle' y hy =>
      h w' (le_trans hle hle') y (List.mem_cons_of_mem _ hy)
    refine bind hrest fun w₂ vs hle' hvs => pure fun w₃ hle'' u hu => ?_
    rcases List.mem_cons.1 hu with rfl | hu
    · exact hv.mono (le_trans hle' hle'')
    · exact (hvs u hu).mono hle''

/-- What a list is as a form consists of expressions of the list. -/
theorem ofItems {items : List Value} (h : R.Covers w (.list items)) :
    R.Obeys w (fun w' form => (∀ x ∈ form.parts, R.Admits w' x) ∧
        ∀ x ∈ form.evaluated, R.expression x)
      (Eval.ofExcept (Form.ofItems items)) := by
  refine ofExcept (fun form hform w' hle => ?_) fun reason => R.fault_ofItems h.expression
  obtain ⟨hadmits, hevaluated⟩ := h.parts hform
  exact ⟨fun x hx => (hadmits x hx).mono hle, hevaluated⟩

/-- The value of a builtin operation is an atom, and its faults are ones that no regime rules
out. -/
theorem call (op : Builtin) (args : List Value) : R.Obeys w R.Admits (op.call args) := by
  refine Builtin.call_induction (P := R.Obeys w R.Admits)
    (fun text => pure fun w' _ => Admits.atom text)
    (fun reason hreason => raise (R.fault_of_kind hreason))
    (fun event next hnext => ?_) (fun text next hnext => ?_) op args
  · exact bind (emit event) fun w' _ hle _ => hnext.mono hle
  · exact bind (write text) fun w' _ hle _ => hnext.mono hle

end Obeys

/-! ### Evaluation -/

/-- The evaluator stays within the regime for all expressions that may be evaluated. -/
def ObeyedBy (R : Regime Account) (ev : Evaluator Eval) : Prop :=
  ∀ w x s, R.Covers w x → R.Obeys w R.Admits (ev x s)

namespace ObeyedBy

variable {ev : Evaluator Eval} (hev : R.ObeyedBy ev)
include hev

/-- A sequence of what may be evaluated stays within the regime. -/
theorem sequence {exprs : List Value} (hexprs : ∀ x ∈ exprs, R.Covers w x) (s : ScopeId) :
    R.Obeys w R.Admits (ev.sequence exprs s) :=
  Obeys.foldlM (fun w' hle _ x hx => hev w' x s ((hexprs x hx).mono hle)) .nil

/-- The body of a closure that may occur may be evaluated, in a scope that binds arguments. -/
theorem apply {procedure : Value} {args : List Value} (hprocedure : R.Admits w procedure)
    (hargs : ∀ x ∈ args, R.Admits w x) : R.Obeys w R.Admits (ev.apply procedure args) := by
  cases procedure with
  | atom text => exact .raise (R.fault_of_kind (by simp [Fault.kind]))
  | list items => exact .raise (R.fault_of_kind (by simp [Fault.kind]))
  | builtin op => exact .call op args
  | closure head body =>
    show R.Obeys w R.Admits (ev.applyClosure head body args)
    rw [Evaluator.applyClosure]
    by_cases hlength : head.params.length = args.length
    · rw [if_pos hlength]
      refine .bind (.emit _) fun w₁ _ hle₁ _ => ?_
      have hbindings : ∀ binding ∈ head.params.zip args, R.Admits w₁ binding.2 :=
        fun binding hbinding => (hargs _ (List.of_mem_zip hbinding).2).mono hle₁
      refine .bind (.extend head.scope hbindings) fun w₂ s hle₂ _ => ?_
      exact sequence hev (fun x hx => (hprocedure.covers_body x hx).mono (le_trans hle₁ hle₂)) s
    · rw [if_neg hlength]
      exact .raise (R.fault_of_kind (by simp [Fault.kind]))

/-- An application of what may be evaluated stays within the regime. -/
theorem application {items : List Value} (hitems : ∀ x ∈ items, R.Covers w x) (s : ScopeId) :
    R.Obeys w R.Admits (ev.application items s) := by
  cases items with
  | nil => exact .raise (R.fault_of_kind (by simp [Fault.kind]))
  | cons operator operands =>
    have hoperator := hev w operator s (hitems operator List.mem_cons_self)
    refine .bind hoperator fun w₁ procedure hle₁ hprocedure => ?_
    have hoperands : ∀ w', w₁ ≤ w' → ∀ x ∈ operands, R.Obeys w' R.Admits (ev x s) :=
      fun w' hle x hx =>
        hev w' x s ((hitems x (List.mem_cons_of_mem _ hx)).mono (le_trans hle₁ hle))
    refine .bind (.mapM hoperands) fun w₂ args hle₂ hargs => ?_
    exact apply hev (hprocedure.mono hle₂) hargs

/-- A form stays within the regime if its parts may occur and, where they are evaluated, may be. -/
theorem form {form : Form} (hadmits : ∀ x ∈ form.parts, R.Admits w x)
    (hevaluated : ∀ x ∈ form.evaluated, R.expression x) (s : ScopeId) :
    R.Obeys w R.Admits (ev.form s form) := by
  -- the parts of a form that is no quotation are the expressions that it evaluates
  have hparts : form.evaluated = form.parts → ∀ x ∈ form.parts, R.Covers w x :=
    fun heq x hx => ⟨hevaluated x (heq ▸ hx), hadmits x hx⟩
  cases form with
  | lambda params body => exact .makeClosure params s (hparts rfl)
  | defineProcedure name params body =>
    refine .bind (.makeClosure params s (hparts rfl)) fun w' closure _ hclosure => ?_
    exact .define s name hclosure
  | defineValue name expr =>
    refine .bind (hev w expr s (hparts rfl expr List.mem_cons_self)) fun w' v _ hv => ?_
    exact .define s name hv
  | branch predicate consequent alternative =>
    refine .bind (hev w predicate s (hparts rfl predicate List.mem_cons_self))
      fun w₁ v hle₁ _ => ?_
    have htest : R.Obeys w₁ (fun _ _ => True) (Eval.ofExcept v.truthiness) :=
      .ofExcept (fun _ _ _ _ => trivial) fun reason hreason =>
        R.fault_of_kind (Fault.NeverMalformed.truthiness v reason hreason)
    refine .bind htest fun w₂ b hle₂ _ => ?_
    have hnext : ∀ x ∈ (Form.branch predicate consequent alternative).parts,
        R.Obeys w₂ R.Admits (ev x s) :=
      fun x hx => hev w₂ x s ((hparts rfl x hx).mono (le_trans hle₁ hle₂))
    cases b with
    | true => exact hnext consequent (List.mem_cons_of_mem _ List.mem_cons_self)
    | false =>
      cases alternative with
      | none => exact .pure fun _ _ => .nil
      | some expr => exact hnext expr (by simp [Form.parts])
  | quote datum => exact .pure fun w' hle => (hadmits datum List.mem_cons_self).mono hle
  | expand expr => exact hev w expr s (hparts rfl expr List.mem_cons_self)
  | sequence exprs => exact sequence hev (hparts rfl) s
  | application items =>
    have hitems : R.Admits w (.list items) := Value.everyProcedure_list.2 hadmits
    exact .within hitems (application hev (hparts rfl) s)

theorem evalStep : R.ObeyedBy (evalStep ev) := by
  intro w x s hx
  cases x with
  | atom name => exact .lookup s name
  | list items =>
    exact .bind (.ofItems hx) fun w' f _ hf => form hev hf.1 hf.2 s
  | builtin op => exact .pure fun _ _ => Value.everyProcedure_builtin op
  | closure head body => exact .pure fun w' hle => hx.admits.mono hle

end ObeyedBy

/-- Evaluation stays within every regime. -/
theorem obeys_eval (R : Regime Account) (depth : Nat) : R.ObeyedBy (eval depth) := by
  induction depth with
  | zero => exact fun w x s _ => .tooDeep
  | succ depth ih => exact ih.evalStep

theorem obeys_evalSequence (depth : Nat) {exprs : List Value}
    (hexprs : ∀ x ∈ exprs, R.Covers w x) (s : ScopeId) :
    R.Obeys w R.Admits (evalSequence depth exprs s) :=
  (R.obeys_eval depth).sequence hexprs s

theorem obeys_apply (depth : Nat) {procedure : Value} {args : List Value}
    (hprocedure : R.Admits w procedure) (hargs : ∀ x ∈ args, R.Admits w x) :
    R.Obeys w R.Admits (AtomLisp.apply depth procedure args) :=
  (R.obeys_eval depth).apply hprocedure hargs

theorem obeys_runForms (depth : Nat) {forms : List Value} (hforms : ∀ x ∈ forms, R.Covers w x)
    (s : ScopeId) : R.Obeys w R.Admits (runForms depth forms s) := by
  refine .foldlM (fun w₁ hle₁ _ x hx => ?_) .nil
  refine .bind (.emit _) fun w₂ _ hle₂ _ => ?_
  exact R.obeys_eval depth w₂ x s ((hforms x hx).mono (le_trans hle₁ hle₂))

end Regime

end AtomLisp
