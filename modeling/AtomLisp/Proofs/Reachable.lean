import AtomLisp.Proofs.Simulation

/-!
# The states that can be reached

A host opens scopes, binds names and evaluates; what it binds or evaluates is made of values that it
has got from the same store. Whatever it does, and whether it fails or not, the store evolves by the
changes of `Store.Change`, and refers to nothing that does not exist: parents are older than their
children, and bound closures have been made. So every store that is reached is sound and has a
history (`Session.Reachable.sound`, `Session.Reachable.history`).

A sound store mirrors itself. That evaluation keeps it sound is therefore a case of two runs in lock
step, where both runs are the same.
-/

namespace AtomLisp

open Store

/-- Every scope is younger than its parent, and every bound value has been made in this store. -/
structure Store.Sound (st : Store) : Prop where
  parent_lt (s parent : ScopeId) (h : st.parent? s = some parent) : parent < s
  has (s : ScopeId) (name : String) (b : Binding) (h : st.binding? s name = some b) : st.Has b.held

/-- What has been made is there when scopes and closures are added. -/
theorem Store.Has.mono {st st' : Store} {v : Value} (h : st.Has v)
    (hscopes : st.nextScope ≤ st'.nextScope) (hclosures : st.closures ≤ st'.closures) :
    st'.Has v :=
  Value.EveryClosure.mono h fun _ ⟨hscope, hid⟩ =>
    ⟨Nat.lt_of_lt_of_le hscope hscopes, Nat.lt_of_lt_of_le hid hclosures⟩

/-! ### A sound store mirrors itself -/

namespace Mirror

/-- All scopes and all names are looked at, and every closure has been counted. -/
def total (ρ : Renaming) : Mirror where
  numbering := ρ
  visible _ := True
  foreign _ := False
  known _ := True
  known_false := trivial

@[simp] theorem total_numbering (ρ : Renaming) : (total ρ).numbering = ρ := rfl

variable {ρ : Renaming} {st : Store}

/-- If all is looked at, a value is admitted when its closures have been made. -/
theorem total_admits_iff {v : Value} : (total ρ).Admits st v ↔ st.Has v := by
  constructor
  · intro h head body hocc
    obtain ⟨⟨-, hscope, hid⟩, -⟩ := h head body hocc
    exact ⟨hscope, hid.resolve_right id⟩
  · intro h head body hocc
    obtain ⟨hscope, hid⟩ := h head body hocc
    exact ⟨⟨trivial, hscope, .inl hid⟩, fun x _ => .ofAtoms fun _ _ => trivial⟩

theorem total_covers_iff {x : Value} : (total ρ).Covers st x ↔ st.Has x :=
  ⟨fun h => total_admits_iff.1 h.admits,
    fun h => ⟨total_admits_iff.2 h, .ofAtoms fun _ _ => trivial⟩⟩

/-- A store mirrors itself if it is sound. -/
theorem total_stores_self_iff : (total .id).Stores st st ↔ st.Sound := by
  constructor
  · intro h
    refine ⟨fun s parent hparent => ?_, fun s name b hb => ?_⟩
    · exact (h.parent_visible s parent trivial hparent).2
    · exact total_admits_iff.1 (h.admits s name b trivial hb)
  · intro h
    refine ⟨rfl, rfl, fun n _ => trivial, fun n _ => rfl, fun n _ => rfl, ?_,
      fun s _ _ => rfl, ?_,
      fun s parent _ hparent => ⟨trivial, h.parent_lt s parent hparent⟩,
      fun s name b _ hb => total_admits_iff.2 (h.has s name b hb)⟩
    · intro s _ _
      show st.parent? s = (st.parent? s).map fun s => s
      rw [Option.map_id']
    · intro s _ _ name _
      show st.binding? s name = (st.binding? s name).map (Binding.rename .id)
      cases st.binding? s name with
      | none => rfl
      | some b => rw [Option.map_some, Binding.rename_id]

/-- A computation that runs in lock step with itself lets the store evolve and keeps it sound. -/
theorem LockStep.evolves_sound {α : Type} {Q : Store → α → α → Prop} {act : Eval α}
    {s : Session} (h : (total .id).LockStep s.store Q act act) (hs : s.store.Sound) :
    Evolves s.store (act.after s).store ∧ (act.after s).store.Sound := by
  have hprogress := h.progress .refl (total_stores_self_iff.2 hs)
  exact ⟨hprogress.evolves, total_stores_self_iff.1 hprogress.stores⟩

end Mirror

/-! ### What a host can do -/

namespace Session

/-- What a host does with scopes and values that exist. Evaluation may have a value or stop; either
way it leads to the session that it leaves. -/
inductive Step : Session → Session → Prop where
  | root (s : Session) : Step s (Eval.newRoot.after s)
  | extend {s : Session} {scope : ScopeId} {bindings : List (String × Value)} :
      scope < s.store.nextScope → (∀ binding ∈ bindings, s.store.Has binding.2) →
      Step s ((Eval.extend scope bindings).after s)
  | define {s : Session} {scope : ScopeId} (name : String) {v : Value} :
      scope < s.store.nextScope → s.store.Has v → Step s ((Eval.define scope name v).after s)
  | closure {s : Session} {scope : ScopeId} (params : List String) {body : List Value} :
      scope < s.store.nextScope → (∀ x ∈ body, s.store.Has x) →
      Step s ((Eval.makeClosure params body scope).after s)
  | eval {s : Session} {scope : ScopeId} (depth : Nat) {x : Value} :
      scope < s.store.nextScope → s.store.Has x → Step s ((eval depth x scope).after s)
  | sequence {s : Session} {scope : ScopeId} (depth : Nat) {exprs : List Value} :
      scope < s.store.nextScope → (∀ x ∈ exprs, s.store.Has x) →
      Step s ((evalSequence depth exprs scope).after s)
  | apply {s : Session} (depth : Nat) {procedure : Value} {args : List Value} :
      s.store.Has procedure → (∀ x ∈ args, s.store.Has x) →
      Step s ((apply depth procedure args).after s)
  | run {s : Session} {scope : ScopeId} (depth : Nat) (source : String) :
      scope < s.store.nextScope → Step s ((run depth source scope).after s)
  | load {s : Session} {scope : ScopeId} (depth : Nat) :
      scope < s.store.nextScope → Step s ((Library.load depth scope).after s)
  | release (s : Session) (scope : ScopeId) :
      Step s { s with store := s.store.release scope }

/-- The second session is a later state of the first one. -/
abbrev Later : Session → Session → Prop :=
  Relation.ReflTransGen Step

/-- The session is a state that a host can get to from the empty one. -/
def Reachable (s : Session) : Prop :=
  Later {} s

end Session

/-! ### What a step keeps -/

namespace Store.Sound

variable {st : Store}

theorem empty : Sound {} := by
  refine ⟨fun s parent hparent => ?_, EveryBinding.empty⟩
  rw [parent?_of_nextScope_le _ _ (Nat.zero_le s)] at hparent
  cases hparent

theorem addRoot (h : Sound st) : Sound (st.addScope none) := by
  refine ⟨fun s parent hparent => ?_, fun s name b hb => ?_⟩
  · rw [parent?_addScope] at hparent
    split at hparent
    · cases hparent
    · exact h.parent_lt s parent hparent
  · rw [binding?_addScope] at hb
    refine (h.has s name b hb).mono ?_ (Nat.le_refl _)
    rw [nextScope_addScope]
    exact Nat.le_succ _

theorem release (h : Sound st) (scope : ScopeId) : Sound (st.release scope) := by
  refine ⟨fun s parent hparent => ?_, fun s name b hb => ?_⟩
  · rw [parent?_release] at hparent
    exact h.parent_lt s parent hparent
  · rw [binding?_release] at hb
    exact (h.has s name b hb).mono (Nat.le_of_eq (nextScope_release ..).symm) (Nat.le_refl _)

end Store.Sound

namespace Mirror

variable {w : Store} {scope : ScopeId}

/-- A program, which holds no numbers, runs in lock step with itself. -/
theorem lockStep_run_self (depth : Nat) (source : String) (hscope : scope < w.nextScope) :
    (total .id).LockStep w (total .id).Image (run depth source scope) (run depth source scope) := by
  have hforms : ∀ x ∈ read source, (total .id).Covers w x :=
    fun x hx => total_covers_iff.2 (read_everyProcedure _ source x hx)
  have h := lockStep_runForms depth hforms trivial hscope
  rwa [total_numbering, Value.map_rename_id] at h

/-- Loading the library is in lock step with itself. -/
theorem lockStep_load_self (depth : Nat) (hscope : scope < w.nextScope) :
    (total .id).LockStep w (fun _ _ _ => True) (Library.load depth scope)
      (Library.load depth scope) := by
  refine LockStep.bind (lockStep_run_self depth _ hscope) fun st _ _ hst _ => ?_
  have hscope' : scope < st.nextScope := Nat.lt_of_lt_of_le hscope (Evolves.nextScope_le hst)
  refine LockStep.bind (lockStep_run_self depth _ hscope') fun _ _ _ _ _ => ?_
  exact LockStep.pure fun _ _ => trivial

end Mirror

namespace Session

open Mirror

variable {s t : Session}

/-- Whatever a host does, the store evolves by allowed changes and stays sound. -/
theorem Step.evolves_sound (h : Step s t) (hs : s.store.Sound) :
    Evolves s.store t.store ∧ t.store.Sound := by
  cases h with
  -- evaluation opens no root and releases no scope, so these two are not cases of lock step
  | root => exact ⟨Evolves.make s.store .root trivial, hs.addRoot⟩
  | release scope => exact ⟨Evolves.make s.store (.release scope) trivial, hs.release scope⟩
  | @extend scope bindings hscope hbindings =>
    have hadmits : ∀ binding ∈ bindings, (total .id).Admits s.store binding.2 :=
      fun binding hbinding => total_admits_iff.2 (hbindings binding hbinding)
    have h := LockStep.extend trivial hscope hadmits
    have hrename : bindings.map (Prod.map id (Value.rename .id)) = bindings := by
      rw [List.map_congr_left fun binding _ => ?_, List.map_id']
      exact Prod.ext rfl (Value.rename_id binding.2)
    rw [total_numbering, hrename] at h
    exact h.evolves_sound hs
  | @define scope name v hscope hv =>
    have hadmits : (total .id).Admits s.store v := total_admits_iff.2 hv
    have h := LockStep.define hscope name ⟨rfl, hadmits⟩
    rw [total_numbering, Value.rename_id] at h
    exact h.evolves_sound hs
  | @closure scope params body hscope hbody =>
    have hcovers : ∀ x ∈ body, (total .id).Covers s.store x :=
      fun x hx => total_covers_iff.2 (hbody x hx)
    have h := LockStep.makeClosure trivial hscope params hcovers
    rw [total_numbering, Value.map_rename_id] at h
    exact h.evolves_sound hs
  | @eval scope depth x hscope hx =>
    have hcovers : (total .id).Covers s.store x := total_covers_iff.2 hx
    have h := follows_eval depth s.store x scope hcovers trivial hscope
    rw [total_numbering, Value.rename_id] at h
    exact h.evolves_sound hs
  | @sequence scope depth exprs hscope hexprs =>
    have hcovers : ∀ x ∈ exprs, (total .id).Covers s.store x :=
      fun x hx => total_covers_iff.2 (hexprs x hx)
    have h := lockStep_evalSequence depth hcovers trivial hscope
    rw [total_numbering, Value.map_rename_id] at h
    exact h.evolves_sound hs
  | @apply depth procedure args hprocedure hargs =>
    have hadmits : ∀ x ∈ args, (total .id).Admits s.store x :=
      fun x hx => total_admits_iff.2 (hargs x hx)
    have hadmits' : (total .id).Admits s.store procedure := total_admits_iff.2 hprocedure
    have h := lockStep_apply depth hadmits' hadmits
    rw [total_numbering, Value.rename_id, Value.map_rename_id] at h
    exact h.evolves_sound hs
  | @run scope depth source hscope => exact (lockStep_run_self depth source hscope).evolves_sound hs
  | @load scope depth hscope => exact (lockStep_load_self depth hscope).evolves_sound hs

/-- A later state has evolved from the first one, and is sound if that was. -/
theorem Later.evolves_sound (h : Later s t) (hs : s.store.Sound) :
    Evolves s.store t.store ∧ t.store.Sound := by
  induction h with
  | refl => exact ⟨.refl, hs⟩
  | tail _ hstep ih =>
    obtain ⟨hevolves, hsound⟩ := ih
    obtain ⟨hevolves', hsound'⟩ := hstep.evolves_sound hsound
    exact ⟨hevolves.trans hevolves', hsound'⟩

/-- Every store that a host gets to is sound. -/
theorem Reachable.sound (h : Reachable s) : s.store.Sound :=
  (Later.evolves_sound h .empty).2

/-- Every store that a host gets to has a history. -/
theorem Reachable.history (h : Reachable s) : ∃ changes, History changes s.store := by
  obtain ⟨later, hlater⟩ := History.start.evolves (Later.evolves_sound h .empty).1
  exact ⟨later ++ [], hlater⟩

end Session

end AtomLisp
