import AtomLisp.Proofs.DefinedNames
import AtomLisp.Proofs.Reachable

/-!
# Definitions that a program does not mention

Whatever has been defined in a root, a program that mentions none of the defined names does there
what it does in a root without definitions. It need not mention `#f` to depend on it: clauses that
run out stand for whatever `#f` is bound to, so this name must not have been defined either.

Any root mirrors a root without definitions, for names it does not bind (`Mirror.stores_intoRoot`),
so a program that mentions no others does the same in both (`run_alike`). `unmentioned_definitions`
applies this to a root in which texts have been run, and to one in which the library has been
loaded.
-/

namespace AtomLisp

open Store

/-! ### What can be told apart -/

/-- The two computations write the same text and emit the same events, and end in the same way:
with values that are the same up to their numbers, and so are written in the same way, with errors
of the same kind that have the same message in the same context, or by nesting too deep. -/
structure Eval.Alike (ρ : Renaming) (act act' : Eval Value) (s s' : Session) : Prop where
  added : ∃ text events, s.Adds text events (act.after s) ∧ s'.Adds text events (act'.after s')
  value (v : Value) (h : act.outcome s = .ok v) : ∃ v', act'.outcome s' = .ok v' ∧
    v' = v.rename ρ ∧ v'.render = v.render ∧ v'.short = v.short ∧ v'.inspect = v.inspect
  error (e : Error) (h : act.outcome s = .error (.error e)) :
    ∃ e', act'.outcome s' = .error (.error e') ∧ e'.fault.kind = e.fault.kind ∧
      e'.fault.message = e.fault.message ∧
      e'.context.map Value.render = e.context.map Value.render ∧ e'.text = e.text
  tooDeep (h : act.outcome s = .error .tooDeep) : act'.outcome s' = .error .tooDeep

namespace Mirror

variable {M : Mirror}

/-- Computations in lock step cannot be told apart. -/
theorem LockStep.alike {act act' : Eval Value} {s s' : Session}
    (h : M.LockStep s.store M.Image act act') (hstores : M.Stores s.store s'.store) :
    Eval.Alike M.numbering act act' s s' := by
  have houtcome := h.outcome_eq .refl hstores
  refine ⟨(h.progress .refl hstores).added, fun v hv => ?_, fun e he => ?_, fun hdeep => ?_⟩
  · rw [hv] at houtcome
    exact ⟨v.rename M.numbering, houtcome, rfl, v.render_rename _, v.short_rename _,
      v.inspect_rename _⟩
  · rw [he] at houtcome
    exact ⟨e.rename M.numbering, houtcome, e.fault.kind_rename _, e.fault.message_rename _,
      e.map_render_context_rename _, e.text_rename _⟩
  · rw [hdeep] at houtcome
    exact houtcome

end Mirror

/-! ### From a root without definitions to another one -/

section IntoRoot

variable {st : Store} {root : ScopeId} (hroot : root < st.nextScope)

/-- What is made in a store with a single root gets the numbers that it gets when it is made in
`st`, and the root itself gets the number `root`. -/
def Renaming.intoRoot (hroot : root < st.nextScope) : Renaming where
  scope
    | 0 => root
    | i + 1 => st.nextScope + i
  closure i := st.closures + i
  scope_strictMono := by
    refine strictMono_nat_of_lt_succ fun i => ?_
    cases i with
    | zero => exact hroot
    | succ i => exact Nat.lt_succ_self _
  closure_injective _ _ := Nat.add_left_cancel

/-- All scopes are looked at, and only those names that `known` holds of. -/
def Mirror.intoRoot (known : String → Prop) (hfalse : known "#f") : Mirror where
  numbering := .intoRoot hroot
  visible _ := True
  foreign _ := False
  known := known
  known_false := hfalse

/-- Any root mirrors a root without definitions, as far as names are concerned which it does not
bind. -/
theorem Mirror.stores_intoRoot {known : String → Prop} {hfalse : known "#f"}
    (hparent : st.parent? root = none) (hlive : st.isLive root = true)
    (hunbound : ∀ name, known name → st.binding? root name = none) :
    (Mirror.intoRoot hroot known hfalse).Stores (Store.addScope {} none) st where
  nextScope_eq := rfl
  closures_eq := rfl
  visible_new _ _ := trivial
  scope_succ n hn := by
    cases n with
    | zero => exact absurd hn (Nat.not_succ_le_zero 0)
    | succ n => rfl
  closure_succ _ _ := rfl
  parent_eq s _ hs := by
    obtain rfl : s = 0 := Nat.lt_one_iff.1 hs
    exact hparent
  isLive_eq s _ hs := by
    obtain rfl : s = 0 := Nat.lt_one_iff.1 hs
    exact hlive
  binding_eq s _ hs name hname := by
    obtain rfl : s = 0 := Nat.lt_one_iff.1 hs
    exact hunbound name hname
  parent_visible s parent _ h := ⟨trivial, (Sound.empty.addRoot).parent_lt s parent h⟩
  admits s name b _ h := by
    rw [binding?_addScope, binding?_of_nextScope_le _ _ _ (Nat.zero_le s)] at h
    cases h

end IntoRoot

/-- In a root that binds none of the names that a program mentions, and does not bind `#f`, the
program does what it does in a root without definitions. -/
theorem run_alike (depth : Nat) {source : String} {session : Session} {root : ScopeId}
    (hroot : root < session.store.nextScope) (hparent : session.store.parent? root = none)
    (hlive : session.store.isLive root = true)
    (hunmentioned : ∀ name, session.store.isBound root name = true →
      name ≠ "#f" ∧ ∀ x ∈ read source, ¬ x.Mentions name) :
    Eval.Alike (.intoRoot hroot) (run depth source 0) (run depth source root)
      (Eval.newRoot.after {}) session := by
  let known : String → Prop := fun name => name = "#f" ∨ ∃ x ∈ read source, x.Mentions name
  let M : Mirror := .intoRoot hroot known (.inl rfl)
  have hstores : M.Stores (Store.addScope {} none) session.store := by
    refine Mirror.stores_intoRoot hroot hparent hlive fun name hknown => ?_
    cases hb : session.store.binding? root name with
    | none => rfl
    | some b =>
      obtain ⟨hfalse, hsource⟩ := hunmentioned name ((isBound_iff _ _ _).2 ⟨b, hb⟩)
      rcases hknown with rfl | ⟨x, hx, hm⟩
      · exact absurd rfl hfalse
      · exact absurd hm (hsource x hx)
  have hcovers : ∀ x ∈ read source, M.Covers (Store.addScope {} none) x :=
    fun x hx =>
      ⟨read_everyProcedure _ source x hx, .ofAtoms fun name hm => .inr ⟨x, hx, hm⟩⟩
  have hrename : (read source).map (Value.rename M.numbering) = read source := by
    have hkept : ∀ x ∈ read source, x.rename M.numbering = x :=
      fun x hx => Value.rename_eq_self _ (read_everyProcedure _ source x hx)
    rw [List.map_congr_left hkept, List.map_id']
  have h := Mirror.lockStep_runForms depth (s := 0) hcovers trivial Nat.zero_lt_one
  rw [hrename] at h
  exact h.alike (s := Eval.newRoot.after {}) hstores

/-! ### Roots in which texts have been run -/

/-- The session after several texts have been run in scope `s`, each at its own depth, whether they
ended with a value or not. -/
def runTexts (s : ScopeId) (texts : List (Nat × String)) (session : Session) : Session :=
  texts.foldl (fun session (depth, text) => (run depth text s).after session) session

theorem runTexts_sameTree (s : ScopeId) (texts : List (Nat × String)) (session : Session) :
    SameTree session.store (runTexts s texts session).store := by
  induction texts generalizing session with
  | nil => exact .refl _
  | cons text texts ih => exact .trans _ _ _ (run_sameTree text.1 text.2 s session) (ih _)

/-- Texts that consist of definitions bind only the names that these define. -/
theorem runTexts_bindsOnly {s : ScopeId} {names : List String} {texts : List (Nat × String)}
    (h : ∀ text ∈ texts, (read text.2).all (Value.definesOneOf names) = true)
    (session : Session) : BindsOnly s names session.store (runTexts s texts session).store := by
  induction texts generalizing session with
  | nil => exact .refl _
  | cons text texts ih =>
    have htext : (run text.1 text.2 s).Keeps (BindsOnly s names) :=
      run_bindsOnly text.1 s (h text List.mem_cons_self)
    exact .trans _ _ _ (htext session) (ih (fun t ht => h t (List.mem_cons_of_mem text ht)) _)

section FreshRoot

variable (session₀ : Session)

theorem nextScope_lt_newRoot :
    session₀.store.nextScope < (Eval.newRoot.after session₀).store.nextScope := by
  show _ < (session₀.store.addScope none).nextScope
  rw [nextScope_addScope]
  exact Nat.lt_succ_self _

/-- A fresh root is live and stays so, and stays a root, while the tree of scopes is kept. So all
depends on what the root has come to bind. -/
theorem run_alike_of_sameTree (depth : Nat) {source : String} {session : Session}
    (h : SameTree (Eval.newRoot.after session₀).store session.store)
    (hunmentioned : ∀ name, session.store.isBound session₀.store.nextScope name = true →
      name ≠ "#f" ∧ ∀ x ∈ read source, ¬ x.Mentions name) :
    ∃ ρ, Eval.Alike ρ (run depth source 0) (run depth source session₀.store.nextScope)
      (Eval.newRoot.after {}) session := by
  have hnew := nextScope_lt_newRoot session₀
  refine ⟨_, run_alike depth (Nat.lt_of_lt_of_le hnew h.nextScope_le) ?_ ?_ hunmentioned⟩
  · rw [h.parent_eq _ hnew]
    exact (parent?_addScope ..).trans (if_pos rfl)
  · rw [h.isLive_eq _ hnew]
    exact (isLive_addScope ..).trans (if_pos rfl)

/-- A fresh root binds nothing, so later it binds only the names that it may have gained. -/
theorem mem_of_isBound_newRoot {names : List String} {session : Session} {name : String}
    (h : BindsOnly session₀.store.nextScope names (Eval.newRoot.after session₀).store
      session.store)
    (hbound : session.store.isBound session₀.store.nextScope name = true) : name ∈ names := by
  refine Decidable.byContradiction fun hname => ?_
  have hempty : (Eval.newRoot.after session₀).store.binding? session₀.store.nextScope name =
      none :=
    (binding?_addScope ..).trans (binding?_of_nextScope_le _ _ _ (Nat.le_refl _))
  rw [isBound, h.binding_eq (nextScope_lt_newRoot session₀) name hname, hempty] at hbound
  cases hbound

/-- A fresh root in which the library has been loaded binds names of the library only. -/
theorem mem_names_of_isBound_load {depth : Nat} {name : String}
    (h : ((Library.load depth session₀.store.nextScope).after
      (Eval.newRoot.after session₀)).store.isBound session₀.store.nextScope name = true) :
    name ∈ Library.names :=
  mem_of_isBound_newRoot session₀ (Library.load_bindsOnly depth _ _) h

/-- The library makes no difference to a program that mentions none of its names. -/
theorem run_alike_of_load (depth depth₀ : Nat) {source : String}
    (hunmentioned : ∀ name ∈ Library.names, ∀ x ∈ read source, ¬ x.Mentions name) :
    ∃ ρ, Eval.Alike ρ (run depth source 0) (run depth source session₀.store.nextScope)
      (Eval.newRoot.after {})
      ((Library.load depth₀ session₀.store.nextScope).after
        (Eval.newRoot.after session₀)) := by
  have htree := load_sameTree depth₀ session₀.store.nextScope (Eval.newRoot.after session₀)
  refine run_alike_of_sameTree session₀ depth htree fun name hbound => ?_
  have hname : name ∈ Library.names := mem_names_of_isBound_load session₀ hbound
  have hfalse : "#f" ∉ Library.names := by decide
  exact ⟨ne_of_mem_of_not_mem hname hfalse, hunmentioned name hname⟩

end FreshRoot

/-- **Unmentioned definitions do not matter.** Let any texts be run in a fresh root, with or without
success. If a program mentions none of the names that are bound in that root, and `#f` is none of
them, then the program does there what it does in the first root of an empty session, where nothing
is bound. So it does in a fresh root where the library has been loaded, if it mentions none of the
names of the library. -/
theorem unmentioned_definitions (session₀ : Session) (depth : Nat) (source : String) :
    let root := session₀.store.nextScope
    (∀ texts, let session := runTexts root texts (Eval.newRoot.after session₀)
      (∀ name, session.store.isBound root name = true →
        name ≠ "#f" ∧ ∀ x ∈ read source, ¬ x.Mentions name) →
      ∃ ρ, Eval.Alike ρ (run depth source 0) (run depth source root) (Eval.newRoot.after {})
        session) ∧
    ∀ depth₀, let session := (Library.load depth₀ root).after (Eval.newRoot.after session₀)
      (∀ name ∈ Library.names, ∀ x ∈ read source, ¬ x.Mentions name) →
      ∃ ρ, Eval.Alike ρ (run depth source 0) (run depth source root) (Eval.newRoot.after {})
        session := by
  intro root
  constructor
  · intro texts session hunmentioned
    exact run_alike_of_sameTree session₀ depth (runTexts_sameTree root texts _) hunmentioned
  · intro depth₀ session hunmentioned
    exact run_alike_of_load session₀ depth depth₀ hunmentioned

/-- A sum mentions neither the one name that a text has defined nor a name of the library. -/
theorem sum_beside_definition :
    let root := ({} : Session).store.nextScope
    let session := runTexts root [(3, "(define one 1)")] (Eval.newRoot.after {})
    session.store.isBound root "one" = true ∧
    (∀ name, session.store.isBound root name = true →
      name ≠ "#f" ∧ ∀ x ∈ read "(+ 1 2)", ¬ x.Mentions name) ∧
    (∃ ρ, Eval.Alike ρ (run 3 "(+ 1 2)" 0) (run 3 "(+ 1 2)" root) (Eval.newRoot.after {})
      session) ∧
    ∃ ρ, Eval.Alike ρ (run 3 "(+ 1 2)" 0) (run 3 "(+ 1 2)" root) (Eval.newRoot.after {})
      ((Library.load 3 root).after (Eval.newRoot.after {})) := by
  intro root session
  have hone : (runTexts 0 [(3, "(define one 1)")] (Eval.newRoot.after {})).store.isBound 0 "one" =
      true := by decide +kernel
  have hsum : read "(+ 1 2)" = [.list [.atom "+", .atom "1", .atom "2"]] := rfl
  have hdefinitions : ∀ text ∈ [(3, "(define one 1)")],
      (read text.2).all (Value.definesOneOf ["one"]) = true := by
    decide +kernel
  have hbinds : BindsOnly root ["one"] (Eval.newRoot.after {}).store session.store :=
    runTexts_bindsOnly hdefinitions (Eval.newRoot.after {})
  have hunmentioned : ∀ name, session.store.isBound root name = true →
      name ≠ "#f" ∧ ∀ x ∈ read "(+ 1 2)", ¬ x.Mentions name := by
    intro name hbound
    obtain rfl : name = "one" := List.mem_singleton.1 (mem_of_isBound_newRoot {} hbinds hbound)
    rw [hsum]
    exact ⟨by decide, by decide⟩
  have hlibrary : ∀ name ∈ Library.names, ∀ x ∈ read "(+ 1 2)", ¬ x.Mentions name := by
    rw [hsum]
    decide
  obtain ⟨htexts, hloaded⟩ := unmentioned_definitions {} 3 "(+ 1 2)"
  exact ⟨hone, hunmentioned, htexts [(3, "(define one 1)")] hunmentioned, hloaded 3 hlibrary⟩

end AtomLisp
