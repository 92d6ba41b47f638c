import AtomLisp.Builtin.Call
import AtomLisp.Proofs.Mirror
import AtomLisp.Proofs.Preservation
import AtomLisp.Proofs.RenamedForms

/-!
# Computations in lock step

Two computations, started in stores that mirror one another, run in lock step: they end in the same
way, with the same value under new numbers, write the same text and emit the same events, and leave
stores that mirror one another again. The rules are those for steps in order
(`Mirror.LockStep.bind`, `Mirror.LockStep.foldlM`, `Mirror.LockStep.mapM`), for each elementary
step, and for the builtin operations (`Mirror.LockStep.call`).

A value stays admitted while the store evolves, so all that is known about the values at hand is
stated of the store at the start, and holds of every store that comes after it.
-/

namespace AtomLisp

open Store

/-- On the way from session `s` to session `t`, the text has been written and the events have been
emitted. -/
structure Session.Adds (s : Session) (text : String) (events : Array Event) (t : Session) :
    Prop where
  output_eq : t.output = s.output ++ text
  events_eq : t.events = s.events ++ events

namespace Session.Adds

variable {s t u : Session} {text text' : String} {events events' : Array Event}

theorem refl (s : Session) : s.Adds "" #[] s :=
  ⟨(String.append_empty).symm, Array.append_empty.symm⟩

/-- What is added after a while comes after what has been added before. -/
theorem trans (h : s.Adds text events t) (h' : t.Adds text' events' u) :
    s.Adds (text ++ text') (events ++ events') u := by
  refine ⟨?_, ?_⟩
  · rw [h'.output_eq, h.output_eq, String.append_assoc]
  · rw [h'.events_eq, h.events_eq, Array.append_assoc]

end Session.Adds

/-- The reason to stop under the new numbers. -/
def Stop.rename (ρ : Renaming) : Stop → Stop
  | error e => error (e.rename ρ)
  | tooDeep => tooDeep

namespace Stop

variable (ρ : Renaming)

/-- A failure is renamed with the form that it stands in. -/
theorem rename_within (stop : Stop) (form : Value) :
    (stop.within form).rename ρ = (stop.rename ρ).within (form.rename ρ) := by
  cases stop with
  | error e => exact congrArg Stop.error (e.rename_within ρ form)
  | tooDeep => rfl

/-- Under their own numbers, failures are the same. -/
@[simp] theorem rename_id (stop : Stop) : stop.rename .id = stop := by
  cases stop with
  | error e => rw [rename, Error.rename_id]
  | tooDeep => rfl

end Stop

namespace Mirror

variable (M : Mirror) {α α' β β' : Type}

/-- The runs from `s` and `s'` have come to `t` and `t'`: the stores mirror one another, and the
same text and the same events have been added. -/
structure Progress (s s' t t' : Session) : Prop where
  evolves : Evolves s.store t.store
  stores : M.Stores t.store t'.store
  added : ∃ text events, s.Adds text events t ∧ s'.Adds text events t'

/-- The second value is the first one under the new numbers, and captures only scopes that are
looked at. -/
def Image (st : Store) (v v' : Value) : Prop :=
  v' = v.rename M.numbering ∧ M.Admits st v

/-- Two computations have ended in the same way, with values that `Q` relates or for the same
reason. -/
inductive Outcome (Q : Store → α → α' → Prop) (s s' : Session) :
    EStateM.Result Stop Session α → EStateM.Result Stop Session α' → Prop where
  | ok {a : α} {a' : α'} {t t' : Session} : M.Progress s s' t t' → Q t.store a a' →
      Outcome Q s s' (.ok a t) (.ok a' t')
  | error {stop : Stop} {t t' : Session} : M.Progress s s' t t' →
      Outcome Q s s' (.error stop t) (.error (stop.rename M.numbering) t')

/-- The computations end in the same way, whenever they are started in a store that has evolved
from `w` and in one that mirrors it. -/
def LockStep (w : Store) (Q : Store → α → α' → Prop) (act : Eval α) (act' : Eval α') :
    Prop :=
  ∀ s s' : Session, Evolves w s.store → M.Stores s.store s'.store →
    M.Outcome Q s s' (act s) (act' s')

variable {M}

namespace Progress

variable {s s' t t' u u' : Session}

theorem refl (h : M.Stores s.store s'.store) : M.Progress s s' s s' :=
  ⟨.refl, h, "", #[], .refl s, .refl s'⟩

theorem trans (h : M.Progress s s' t t') (h' : M.Progress t t' u u') : M.Progress s s' u u' := by
  obtain ⟨text, events, hadds, hadds'⟩ := h.added
  obtain ⟨text', events', hmore, hmore'⟩ := h'.added
  exact ⟨h.evolves.trans h'.evolves, h'.stores, text ++ text', events ++ events',
    hadds.trans hmore, hadds'.trans hmore'⟩

end Progress

namespace Image

theorem atom (st : Store) (text : String) : M.Image st (.atom text) (.atom text) :=
  ⟨(Value.rename_atom _ text).symm, Value.everyProcedure_atom text⟩

theorem nil (st : Store) : M.Image st .nil .nil :=
  ⟨(Value.rename_nil _).symm, Value.everyProcedure_nil⟩

theorem evolves {st st' : Store} {v v' : Value} (h : M.Image st v v')
    (hevolves : Evolves st st') : M.Image st' v v' :=
  ⟨h.1, h.2.evolves hevolves⟩

end Image

namespace LockStep

variable {w : Store} {Q : Store → α → α' → Prop} {R : Store → β → β' → Prop}

/-- However they end, both runs have made the same progress. -/
theorem progress {act : Eval α} {act' : Eval α'} (h : M.LockStep w Q act act') {s s' : Session}
    (hs : Evolves w s.store) (hstores : M.Stores s.store s'.store) :
    M.Progress s s' (act.after s) (act'.after s') := by
  have hresult := h s s' hs hstores
  unfold Eval.after
  generalize act s = result, act' s' = result' at hresult ⊢
  cases hresult with
  | ok hprogress _ => exact hprogress
  | error hprogress => exact hprogress

/-- Where a value is the same up to the numbers, so is the way in which the computations end. -/
theorem outcome_eq {act : Eval Value} {act' : Eval Value} (h : M.LockStep w M.Image act act')
    {s s' : Session} (hs : Evolves w s.store) (hstores : M.Stores s.store s'.store) :
    act'.outcome s' = match act.outcome s with
      | .ok v => .ok (v.rename M.numbering)
      | .error stop => .error (stop.rename M.numbering) := by
  have hresult := h s s' hs hstores
  unfold Eval.outcome
  generalize act s = result, act' s' = result' at hresult ⊢
  cases hresult with
  | ok _ hv => exact congrArg Except.ok hv.1
  | error _ => rfl

theorem pure {a : α} {a' : α'} (h : ∀ st, Evolves w st → Q st a a') :
    M.LockStep w Q (Pure.pure a) (Pure.pure a') :=
  fun s _ hs hstores => .ok (.refl hstores) (h s.store hs)

theorem raise (fault : Fault) :
    M.LockStep w Q (Eval.raise fault) (Eval.raise (fault.rename M.numbering)) :=
  fun _ _ _ hstores => .error (.refl hstores)

/-- Both computations refuse to apply the same value. -/
theorem notProcedure {x x' : Value} (h : x.rename M.numbering = x') :
    M.LockStep w Q (Eval.raise (.notProcedure x)) (Eval.raise (.notProcedure x')) := by
  subst h
  exact raise (.notProcedure x)

theorem tooDeep : M.LockStep w Q (throw .tooDeep) (throw .tooDeep) :=
  fun _ _ _ hstores => .error (.refl hstores)

/-- A check that is made of the same values comes out in the same way. -/
theorem ofExcept {f : α → α'} {checked : Except Fault α}
    (h : ∀ a, checked = .ok a → ∀ st, Evolves w st → Q st a (f a)) :
    M.LockStep w Q (Eval.ofExcept checked) (Eval.ofExcept (M.numbering.onResult f checked)) := by
  cases checked with
  | ok a => exact pure (h a rfl)
  | error fault => exact raise fault

/-- What comes next may use all that is known when the first computation has ended. -/
theorem bind {act : Eval α} {act' : Eval α'} {next : α → Eval β} {next' : α' → Eval β'}
    (hact : M.LockStep w Q act act')
    (hnext : ∀ st a a', Evolves w st → Q st a a' → M.LockStep st R (next a) (next' a')) :
    M.LockStep w R (act >>= next) (act' >>= next') := by
  intro s s' hs hstores
  have h := hact s s' hs hstores
  simp only [Bind.bind, EStateM.bind]
  generalize act s = result, act' s' = result' at h
  cases h with
  | error hprogress => exact .error hprogress
  | @ok a a' t t' hprogress hQ =>
    -- the second step starts in the sessions that the first one has left
    have hrest := hnext t.store a a' (hs.trans hprogress.evolves) hQ t t' .refl hprogress.stores
    show M.Outcome R s s' (next a t) (next' a' t')
    generalize next a t = result, next' a' t' = result' at hrest ⊢
    cases hrest with
    | ok hprogress' hR => exact .ok (hprogress.trans hprogress') hR
    | error hprogress' => exact .error (hprogress.trans hprogress')

/-- Both errors get the same form for their context. -/
theorem within {act : Eval α} {act' : Eval α'} (h : M.LockStep w Q act act') (form : Value) :
    M.LockStep w Q (Eval.within form act) (Eval.within (form.rename M.numbering) act') := by
  intro s s' hs hstores
  have hresult := h s s' hs hstores
  unfold Eval.within
  generalize act s = result, act' s' = result' at hresult
  cases hresult with
  | ok hprogress hQ => exact .ok hprogress hQ
  | @error stop t t' hprogress =>
    show M.Outcome Q s s' (.error (stop.within form) t)
      (.error ((stop.rename M.numbering).within (form.rename M.numbering)) t')
    rw [← Stop.rename_within]
    exact .error hprogress

theorem emit (event : Event) :
    M.LockStep w (fun _ _ _ => True) (Eval.emit event) (Eval.emit event) := by
  intro s s' hs hstores
  refine .ok ⟨.refl, hstores, "", #[event], ⟨?_, ?_⟩, ⟨?_, ?_⟩⟩ trivial
  all_goals simp

theorem write (text : String) :
    M.LockStep w (fun _ _ _ => True) (Eval.write text) (Eval.write text) := by
  intro s s' hs hstores
  refine .ok ⟨.refl, hstores, text, #[], ⟨?_, ?_⟩, ⟨?_, ?_⟩⟩ trivial
  all_goals simp

/-! ### Steps that read and change the store -/

/-- A step that changes nothing but the store keeps the runs in lock step if the new stores mirror
one another. -/
theorem progress_store {s s' : Session} {st st' : Store} (hevolves : Evolves s.store st)
    (hstores : M.Stores st st') :
    M.Progress s s' { s with store := st } { s' with store := st' } :=
  ⟨hevolves, hstores, "", #[], ⟨String.append_empty.symm, Array.append_empty.symm⟩,
    ⟨String.append_empty.symm, Array.append_empty.symm⟩⟩

/-- A known name stands for the same in both stores. -/
theorem lookup {s : ScopeId} (hs : M.visible s) (hlt : s < w.nextScope) {name : String}
    (hname : M.known name) :
    M.LockStep w M.Image (Eval.lookup s name) (Eval.lookup (M.numbering.scope s) name) := by
  intro t t' ht hstores
  have hlt' := Nat.lt_of_lt_of_le hlt (Evolves.nextScope_le ht)
  exact .ok (.refl hstores)
    ⟨hstores.lookup_eq hs hlt' hname, hstores.admits_lookup hs hlt' name⟩

theorem define {s : ScopeId} (hlt : s < w.nextScope) (name : String) {v v' : Value}
    (hv : M.Image w v v') :
    M.LockStep w M.Image (Eval.define s name v) (Eval.define (M.numbering.scope s) name v') := by
  obtain ⟨rfl, hadmits⟩ := hv
  intro t t' ht hstores
  have hevolves : Evolves t.store (t.store.define s name v) :=
    Evolves.make t.store (.define s name v) (Nat.lt_of_lt_of_le hlt (Evolves.nextScope_le ht))
  have hadmits' := hadmits.evolves ht
  refine .ok (progress_store hevolves (hstores.define s name hadmits')) ⟨?_, ?_⟩
  · exact (Value.rename_named _ v name).symm
  · exact (hadmits'.evolves hevolves).named name

theorem makeClosure {s : ScopeId} (hs : M.visible s) (hlt : s < w.nextScope)
    (params : List String) {body : List Value} (hbody : ∀ x ∈ body, M.Covers w x) :
    M.LockStep w M.Image (Eval.makeClosure params body s)
      (Eval.makeClosure params (body.map (Value.rename M.numbering)) (M.numbering.scope s)) := by
  intro t t' ht hstores
  have hevolves : Evolves t.store t.store.countClosure := Evolves.make t.store .closure trivial
  have hlt' := Nat.lt_of_lt_of_le hlt (Evolves.nextScope_le ht)
  have hbody' : ∀ x ∈ body, M.Covers t.store x := fun x hx => (hbody x hx).evolves ht
  exact .ok (progress_store hevolves hstores.countClosure)
    ⟨hstores.nextClosure_eq params body s, Stores.admits_nextClosure hs hlt' hbody'⟩

/-- The scope that is opened is one to be looked at. -/
theorem extend {s : ScopeId} (hs : M.visible s) (hlt : s < w.nextScope)
    {bindings : List (String × Value)}
    (hbindings : ∀ binding ∈ bindings, M.Admits w binding.2) :
    M.LockStep w
      (fun st t t' => t' = M.numbering.scope t ∧ M.visible t ∧ t < st.nextScope)
      (Eval.extend s bindings)
      (Eval.extend (M.numbering.scope s)
        (bindings.map (Prod.map id (Value.rename M.numbering)))) := by
  intro t t' ht hstores
  have hlt' := Nat.lt_of_lt_of_le hlt (Evolves.nextScope_le ht)
  have hbindings' : ∀ binding ∈ bindings, M.Admits t.store binding.2 :=
    fun binding hbinding => (hbindings binding hbinding).evolves ht
  refine .ok (progress_store (Evolves.extend t.store hlt' bindings)
    (hstores.extend hs hlt' hbindings')) ⟨hstores.nextScope_eq, ?_, ?_⟩
  · exact hstores.visible_new _ (Nat.le_refl _)
  · rw [nextScope_extend]
    exact Nat.lt_succ_self _

/-! ### Steps in order -/

/-- Steps that each take the value of the one before, one for each element of a list. -/
theorem foldlM {f f' : Value → Value → Eval Value} {xs : List Value}
    (h : ∀ st v v', Evolves w st → M.Image st v v' → ∀ x ∈ xs,
      M.LockStep st M.Image (f v x) (f' v' (x.rename M.numbering)))
    {v v' : Value} (hv : M.Image w v v') :
    M.LockStep w M.Image (xs.foldlM f v) ((xs.map (Value.rename M.numbering)).foldlM f' v') := by
  induction xs generalizing w v v' with
  | nil => exact pure fun st hst => hv.evolves hst
  | cons x xs ih =>
    rw [List.map_cons, List.foldlM_cons, List.foldlM_cons]
    refine bind (h w v v' .refl hv x List.mem_cons_self) fun st u u' hst hu => ?_
    refine ih (fun st' a a' hst' ha y hy => ?_) hu
    exact h st' a a' (hst.trans hst') ha y (List.mem_cons_of_mem _ hy)

/-- Steps that yield the values of a list, one for each element of another list. -/
theorem mapM {f f' : Value → Eval Value} {xs : List Value}
    (h : ∀ st, Evolves w st → ∀ x ∈ xs,
      M.LockStep st M.Image (f x) (f' (x.rename M.numbering))) :
    M.LockStep w (fun st vs vs' => vs' = vs.map (Value.rename M.numbering) ∧
        ∀ v ∈ vs, M.Admits st v)
      (xs.mapM f) ((xs.map (Value.rename M.numbering)).mapM f') := by
  induction xs generalizing w with
  | nil =>
    rw [List.map_nil, List.mapM_nil, List.mapM_nil]
    exact pure fun st _ => ⟨rfl, fun v hv => absurd hv List.not_mem_nil⟩
  | cons x xs ih =>
    rw [List.map_cons, List.mapM_cons, List.mapM_cons]
    refine bind (h w .refl x List.mem_cons_self) fun st v v' hst hv => ?_
    obtain ⟨rfl, hadmits⟩ := hv
    have hrest := ih (w := st) fun st' hst' y hy =>
      h st' (hst.trans hst') y (List.mem_cons_of_mem _ hy)
    refine bind hrest fun st' vs vs' hst' hvs => ?_
    obtain ⟨rfl, hall⟩ := hvs
    refine pure fun st'' hst'' => ⟨rfl, fun u hu => ?_⟩
    rcases List.mem_cons.1 hu with rfl | hu
    · exact hadmits.evolves (hst'.trans hst'')
    · exact (hall u hu).evolves hst''

/-! ### Builtin operations -/

/-- The outcome of arithmetic is a number, which is the same under new numbers. -/
theorem ofInt {result result' : Except Fault Int}
    (h : result' = M.numbering.onResult id result) :
    M.LockStep w M.Image (do return .ofInt (← Eval.ofExcept result))
      (do return .ofInt (← Eval.ofExcept result')) := by
  subst h
  refine bind (Q := fun _ i i' => i' = i) (ofExcept fun _ _ _ _ => rfl) fun st i i' _ hi => ?_
  subst hi
  exact pure fun st' _ => .atom st' _

/-- A builtin operation sees nothing of the numbers in its arguments. -/
theorem call (op : Builtin) (args : List Value) :
    M.LockStep w M.Image (op.call args) (op.call (args.map (Value.rename M.numbering))) := by
  unfold Builtin.call
  rw [List.length_map]
  -- the event is emitted first, then every operation looks at its number of arguments
  refine bind (emit _) fun st _ _ _ _ => ?_
  cases op with
  | add => exact ofInt (Builtin.accumulate_rename ..)
  | subtract => exact ofInt (Builtin.difference_rename ..)
  | multiply => exact ofInt (Builtin.accumulate_rename ..)
  | divide =>
    match args with
    | [x, y] => exact ofInt (Builtin.quotient_rename ..)
    | [] => exact raise _
    | [_] => exact raise _
    | _ :: _ :: _ :: _ => exact raise _
  | isEq =>
    match args with
    | [x, y] =>
      refine pure fun st' _ => ?_
      have heq : (x.rename M.numbering == y.rename M.numbering) = (x == y) :=
        Value.same_rename M.numbering x y
      rw [heq]
      exact .atom st' _
    | [] => exact raise _
    | [_] => exact raise _
    | _ :: _ :: _ :: _ => exact raise _
  | display =>
    simp only [Value.renderAll_map_rename]
    exact bind (write _) fun _ _ _ _ _ => pure fun st' _ => .atom st' _
  | print =>
    simp only [Value.renderAll_map_rename]
    exact bind (write _) fun _ _ _ _ _ => pure fun st' _ => .atom st' _
  | format =>
    simp only [Value.renderAll_map_rename]
    exact pure fun st' _ => .atom st' _
  | raise =>
    simp only [Value.renderAll_map_rename]
    exact bind (emit _) fun _ _ _ _ _ => raise _
  | isLambda =>
    match args with
    | [x] =>
      refine pure fun st' _ => ?_
      rw [Value.isClosure_rename]
      exact .atom st' _
    | [] => exact raise _
    | _ :: _ :: _ => exact raise _
  | quit => exact raise _

end LockStep

end Mirror

end AtomLisp
