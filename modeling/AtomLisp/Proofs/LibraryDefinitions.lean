import AtomLisp.Proofs.Clauses
import AtomLisp.Proofs.DefinedNames
import AtomLisp.Proofs.Equality
import AtomLisp.Proofs.RoundTrip

/-!
# What the library defines

The library is a program of definitions. Loading it in a scope always succeeds
(`Library.outcome_load`), and after it the scope answers for each procedure of the library with a
closure over this very scope (`Library.lookup_load`).

Evaluating a definition of a procedure makes a closure and binds it (`eval_of_procedure?`), so a
program of such definitions has a value and binds all of them. To apply this to the library, its
text is read once and for all (`Library.read_procedures`).
-/

namespace AtomLisp

open Store

/-- The name, the parameters and the body of the procedure that a form defines, be it as a procedure
or as the value of a `lambda` form. -/
def Value.procedure? : Value → Option (String × List String × List Value)
  | .list items =>
    match Form.ofItems items with
    | .ok (.defineProcedure name params body) => some (name, params, body)
    | .ok (.defineValue name (.list parts)) =>
      match Form.ofItems parts with
      | .ok (.lambda params body) => some (name, params, body)
      | _ => none
    | _ => none
  | _ => none

/-- Either way, a closure is made and bound. -/
theorem eval_of_procedure? {x : Value} {name : String} {params : List String} {body : List Value}
    (hx : x.procedure? = some (name, params, body)) (depth : Nat) (s : ScopeId) :
    eval (depth + 2) x s = Eval.makeClosure params body s >>= Eval.define s name := by
  unfold Value.procedure? at hx
  split at hx
  · next items =>
    split at hx
    · next hform =>
      obtain ⟨rfl, rfl, rfl⟩ := Option.some.inj hx
      exact eval_list_of_form hform (depth + 1) s
    · next parts hform =>
      split at hx
      · next hparts =>
        obtain ⟨rfl, rfl, rfl⟩ := Option.some.inj hx
        rw [eval_list_of_form hform, Evaluator.form, eval_list_of_form hparts, Evaluator.form]
        rfl
      · cases hx
    · cases hx
  · cases hx

/-- A definition of a procedure has a value, in every session. -/
theorem outcome_eval_of_procedure? {x : Value} {name : String} {params : List String}
    {body : List Value} (hx : x.procedure? = some (name, params, body)) (depth : Nat) (s : ScopeId)
    (session : Session) : ∃ v, (eval (depth + 2) x s).outcome session = .ok v := by
  rw [eval_of_procedure? hx]
  exact ⟨_, rfl⟩

/-- The scope holds the closure weakly, under the name that it was defined by. -/
theorem binding?_eval_of_procedure? {x : Value} {name : String} {params : List String}
    {body : List Value} (hx : x.procedure? = some (name, params, body)) (depth : Nat) {s : ScopeId}
    (session : Session) (hs : s < session.store.nextScope) :
    ((eval (depth + 2) x s).after session).store.binding? s name =
      some (.weak { name := some name, params, scope := s, id := session.store.closures }
        body) := by
  rw [eval_of_procedure? hx]
  show (session.store.countClosure.define s name _).binding? s name = _
  rw [binding?_define, if_pos ⟨rfl, hs, rfl⟩]
  exact congrArg some (if_pos rfl)

/-! ### Programs of definitions -/

/-- The name under which a procedure is defined is the name that the form defines. -/
theorem name_of_procedure? {x : Value} {name key : String} {params : List String}
    {body : List Value} (hx : x.procedure? = some (name, params, body))
    (hkey : x.definedName? = some key) : name = key := by
  unfold Value.procedure? at hx
  unfold Value.definedName? at hkey
  split at hx
  · next items =>
    split at hx
    · next hform =>
      simp only [hform, Option.some.injEq] at hkey
      rw [← hkey, (Prod.mk.inj (Option.some.inj hx)).1]
    · next parts hform =>
      simp only [hform] at hkey
      split at hx
      · split at hkey
        · cases hkey
        · rw [← Option.some.inj hkey, (Prod.mk.inj (Option.some.inj hx)).1]
      · cases hx
    · cases hx
  · cases hx

/-- Run one form of a program. -/
def runForm (depth : Nat) (s : ScopeId) (form : Value) : Eval Value := do
  Eval.emit (.topLevelForm form.short)
  eval depth form s

/-- A form of a program finds the session with its announcement in it. -/
theorem after_runForm (depth : Nat) (s : ScopeId) (form : Value) (session : Session) :
    (runForm depth s form).after session = (eval depth form s).after
      { session with events := session.events.push (.topLevelForm form.short) } := rfl

/-- Run forms one after the other. The value of each is dropped for that of the next. -/
def runFormsAfter (depth : Nat) (s : ScopeId) (v : Value) (forms : List Value) : Eval Value :=
  forms.foldlM (fun _ form => runForm depth s form) v

/-- The first form gives its value to those after it. -/
theorem runFormsAfter_cons (depth : Nat) (s : ScopeId) (v x : Value) (forms : List Value) :
    runFormsAfter depth s v (x :: forms) =
      runForm depth s x >>= fun u => runFormsAfter depth s u forms :=
  List.foldlM_cons

/-- A program begins with the empty list as its value. -/
theorem run_eq_runFormsAfter (depth : Nat) (source : String) (s : ScopeId) :
    run depth source s = runFormsAfter depth s .nil (read source) := rfl

/-- Forms that define names bind these only. -/
theorem runFormsAfter_bindsOnly (depth : Nat) (s : ScopeId) (v : Value) {forms : List Value}
    {names : List String} (hnames : forms.map Value.definedName? = names.map some) :
    (runFormsAfter depth s v forms).Keeps (BindsOnly s names) := by
  refine (Eval.Keeps.stepwise BindsOnly.refl BindsOnly.trans).foldlM (fun x hx _ => ?_) v
  have hmem : x.definedName? ∈ names.map some := hnames ▸ List.mem_map_of_mem hx
  obtain ⟨name, hname, hx⟩ := List.mem_map.1 hmem
  exact Eval.Keeps.bind BindsOnly.trans (Eval.Keeps.emit BindsOnly.refl _) fun _ =>
    eval_bindsOnly depth hx.symm hname

section Definitions

variable {depth : Nat} {s : ScopeId} {forms : List Value} {names : List String}
  (hvalue : ∀ x ∈ forms, ∀ session, ∃ v, (eval (depth + 2) x s).outcome session = .ok v)
include hvalue

/-- A program whose forms all have a value has one. -/
theorem outcome_runFormsAfter (v : Value) (session : Session) :
    ∃ u, (runFormsAfter (depth + 2) s v forms).outcome session = .ok u := by
  induction forms generalizing v session with
  | nil => exact ⟨v, rfl⟩
  | cons x forms ih =>
    have hrest := ih fun y hy => hvalue y (List.mem_cons_of_mem x hy)
    have hx : ∃ u, (runForm (depth + 2) s x).outcome session = .ok u :=
      hvalue x List.mem_cons_self _
    obtain ⟨u, hu⟩ := hx
    rw [runFormsAfter_cons, Eval.outcome_bind_of_ok hu]
    exact hrest u _

/-- If the forms define different names, every procedure that they define is bound after them. -/
theorem binding?_runFormsAfter (hnames : forms.map Value.definedName? = names.map some)
    (hnodup : names.Nodup) (v : Value) {session : Session} (hs : s < session.store.nextScope)
    {x : Value} (hx : x ∈ forms) {name : String} {params : List String} {body : List Value}
    (hprocedure : x.procedure? = some (name, params, body)) : ∃ id,
    ((runFormsAfter (depth + 2) s v forms).after session).store.binding? s name =
      some (.weak { name := some name, params, scope := s, id } body) := by
  induction forms generalizing v session names with
  | nil => exact absurd hx List.not_mem_nil
  | cons y forms ih =>
    obtain _ | ⟨key, names⟩ := names
    · cases hnames
    rw [List.map_cons, List.map_cons] at hnames
    obtain ⟨hkey, hrest⟩ := List.cons.inj hnames
    obtain ⟨hnotMem, hnodup⟩ := List.nodup_cons.1 hnodup
    have hvalue' : ∀ z ∈ forms, ∀ session,
        ∃ v, (eval (depth + 2) z s).outcome session = .ok v :=
      fun z hz => hvalue z (List.mem_cons_of_mem y hz)
    obtain ⟨u, hu⟩ : ∃ u, (runForm (depth + 2) s y).outcome session = .ok u :=
      hvalue y List.mem_cons_self _
    rw [runFormsAfter_cons, Eval.after_bind_of_ok hu]
    have htouched : (runForm (depth + 2) s y).Keeps (TouchedOnlyAt s) :=
      Eval.Keeps.bind TouchedOnlyAt.trans (Eval.Keeps.emit TouchedOnlyAt.refl _) fun _ =>
        eval_touchedOnlyAt (depth + 2) y s
    have hs' : s < ((runForm (depth + 2) s y).after session).store.nextScope :=
      Nat.lt_of_lt_of_le hs (htouched session).nextScope_le
    rcases List.mem_cons.1 hx with rfl | hx
    · -- the forms that follow bind other names
      obtain rfl := name_of_procedure? hprocedure hkey
      have hbinds := runFormsAfter_bindsOnly (depth + 2) s u hrest
      rw [(hbinds _).binding_eq hs' _ hnotMem, after_runForm]
      exact ⟨_, binding?_eval_of_procedure? hprocedure depth _ hs⟩
    · exact ih hvalue' hrest hnodup u hs' hx

end Definitions

/-! ### The library -/

namespace Library

/-- What a pair does with a message. -/
def answerMessage : Value :=
  .list [.atom "if", .list [.atom "eq?", .atom "cmd", .atom "'car"], .atom "a",
    .list [.atom "if", .list [.atom "eq?", .atom "cmd", .atom "'cdr"], .atom "b",
      .list [.atom "error", .atom "no-such-method:", .atom "cmd", .atom "--", .atom "CONS"]]]

/-! The bodies of the procedures. -/

def isTrueBody : Value :=
  .list [.atom "eq?", .atom "x", .atom "#t"]

def isFalseBody : Value :=
  .list [.atom "not", .list [.atom "true?", .atom "x"]]

def notBody : Value :=
  .list [.atom "if", .list [.atom "true?", .atom "x"], .atom "#f", .atom "#t"]

def consBody : Value :=
  .list [.atom "lambda", .list [.atom "cmd"], answerMessage]

def carBody : Value :=
  .list [.atom "x", .atom "'car"]

def cdrBody : Value :=
  .list [.atom "x", .atom "'cdr"]

def cadrBody : Value :=
  .list [.atom "car", .list [.atom "cdr", .atom "x"]]

/-- The definition of a procedure as the value of a `lambda` form with the parameter `x`. -/
def lambdaDefinition (name : String) (body : Value) : Value :=
  .list [.atom "define", .atom name, .list [.atom "lambda", .list [.atom "x"], body]]

/-- The forms that the procedures of the library are read as. -/
def forms : List Value :=
  [.list [.atom "define", .atom "exit", .atom "quit"],
  .list [.atom "define", .list [.atom "true?", .atom "x"], isTrueBody],
  .list [.atom "define", .list [.atom "false?", .atom "x"], isFalseBody],
  .list [.atom "define", .list [.atom "not", .atom "x"], notBody],
  .list [.atom "define", .list [.atom "cons", .atom "a", .atom "b"], consBody],
  lambdaDefinition "car" carBody,
  lambdaDefinition "cdr" cdrBody,
  lambdaDefinition "cadr" cadrBody]

set_option maxRecDepth 8000 in
theorem read_procedures : read procedures = forms := by
  refine eq_of_sameAll (fun x hx y => eq_of_same (treeOf_of_mem_read procedures x hx)) ?_
  exact read_of_chars (P := fun xs => Value.sameAll xs forms) ⟨_, rfl, by decide +kernel⟩

/-- The names that these forms define. -/
theorem map_definedName?_forms : forms.map Value.definedName? =
    ["exit", "true?", "false?", "not", "cons", "car", "cdr", "cadr"].map some := by
  decide

set_option maxRecDepth 8000 in
/-- The text of the checks is read as a definition of `run-tests`. -/
theorem map_definedName?_checks : (read checks).map Value.definedName? = [some "run-tests"] :=
  eq_of_beq <| read_of_chars (P := fun xs => xs.map Value.definedName? == [some "run-tests"])
    ⟨_, rfl, by decide +kernel⟩

set_option maxRecDepth 8000 in
/-- The second part of the library defines procedures only. -/
theorem isSome_procedure?_checks : (read checks).all (fun x => x.procedure?.isSome) = true :=
  read_of_chars (P := (·.all fun x => x.procedure?.isSome)) ⟨_, rfl, by decide +kernel⟩

variable (depth : Nat) (s : ScopeId) (session : Session)

/-- Every form of the library has a value. -/
theorem exists_outcome_eval {x : Value} (hx : x ∈ forms ∨ x ∈ read checks) :
    ∃ v, (eval (depth + 2) x s).outcome session = .ok v := by
  have hprocedure : ∀ y : Value, y.procedure?.isSome = true →
      ∃ v, (eval (depth + 2) y s).outcome session = .ok v := by
    intro y hy
    obtain ⟨⟨name, params, body⟩, hdefined⟩ := Option.isSome_iff_exists.1 hy
    exact outcome_eval_of_procedure? hdefined depth s session
  rcases hx with hx | hx
  · rw [forms, List.mem_cons] at hx
    rcases hx with rfl | hx
    · -- `exit` is another name for `quit`, whatever that stands for
      exact ⟨_, rfl⟩
    · refine hprocedure x ?_
      revert x
      decide
  · exact hprocedure x (List.all_eq_true.1 isSome_procedure?_checks x hx)

theorem outcome_procedures : ∃ v, (run (depth + 2) procedures s).outcome session = .ok v := by
  rw [run_eq_runFormsAfter, read_procedures]
  exact outcome_runFormsAfter (fun _ hx later => exists_outcome_eval depth s later (.inl hx)) _ _

theorem outcome_checks : ∃ v, (run (depth + 2) checks s).outcome session = .ok v := by
  have hvalue : ∀ x ∈ read checks, ∀ later,
      ∃ v, (eval (depth + 2) x s).outcome later = .ok v :=
    fun x hx later => exists_outcome_eval depth s later (.inr hx)
  exact outcome_runFormsAfter hvalue .nil session

/-- Loading the library succeeds. -/
theorem outcome_load : (load (depth + 2) s).outcome session = .ok () := by
  obtain ⟨v, hv⟩ := outcome_procedures depth s session
  obtain ⟨u, hu⟩ := outcome_checks depth s ((run (depth + 2) procedures s).after session)
  rw [load, Eval.outcome_bind_of_ok hv, Eval.outcome_bind_of_ok hu]
  rfl

/-- Loading the library runs its two parts, one after the other. -/
theorem after_load : (load (depth + 2) s).after session =
    (run (depth + 2) checks s).after ((run (depth + 2) procedures s).after session) := by
  obtain ⟨v, hv⟩ := outcome_procedures depth s session
  obtain ⟨u, hu⟩ := outcome_checks depth s ((run (depth + 2) procedures s).after session)
  rw [load, Eval.after_bind_of_ok hv, Eval.after_bind_of_ok hu, Eval.after_pure]

variable {depth s session}

/-- After the library has been loaded, the scope binds each of its procedures. -/
theorem binding?_load (hs : s < session.store.nextScope) {x : Value} (hx : x ∈ forms)
    {name : String} {params : List String} {body : List Value}
    (hprocedure : x.procedure? = some (name, params, body)) : ∃ id,
    ((load (depth + 2) s).after session).store.binding? s name =
      some (.weak { name := some name, params, scope := s, id } body) := by
  have hname : name ∉ ["run-tests"] := by
    have hmem : x.definedName? ∈ forms.map Value.definedName? := List.mem_map_of_mem hx
    rw [map_definedName?_forms] at hmem
    obtain ⟨key, hkey, hdefined⟩ := List.mem_map.1 hmem
    have hother : ∀ key ∈ ["exit", "true?", "false?", "not", "cons", "car", "cdr", "cadr"],
        key ∉ ["run-tests"] := by decide
    rw [name_of_procedure? hprocedure hdefined.symm]
    exact hother key hkey
  have hchecks : (run (depth + 2) checks s).Keeps (BindsOnly s ["run-tests"]) := by
    rw [run_eq_runFormsAfter]
    exact runFormsAfter_bindsOnly (depth + 2) s .nil map_definedName?_checks
  have hs' : s < ((run (depth + 2) procedures s).after session).store.nextScope :=
    Nat.lt_of_lt_of_le hs (run_sameTree (depth + 2) procedures s session).nextScope_le
  rw [after_load, (hchecks _).binding_eq hs' name hname, run_eq_runFormsAfter, read_procedures]
  exact binding?_runFormsAfter (fun _ hx later => exists_outcome_eval depth s later (.inl hx))
    map_definedName?_forms (by decide) _ hs hx hprocedure

/-- If the scope is live, it answers with the procedure. -/
theorem lookup_load (hs : s < session.store.nextScope) (hlive : session.store.isLive s = true)
    {x : Value} (hx : x ∈ forms) {name : String} {params : List String} {body : List Value}
    (hprocedure : x.procedure? = some (name, params, body)) : ∃ id,
    ((load (depth + 2) s).after session).store.lookup s name =
      .closure { name := some name, params, scope := s, id } body := by
  obtain ⟨id, hid⟩ := binding?_load hs hx hprocedure
  have hlive' : ((load (depth + 2) s).after session).store.isLive s = true := by
    rw [(load_sameTree (depth + 2) s session).isLive_eq s hs, hlive]
  refine ⟨id, lookup_of_answer ?_⟩
  rw [answer?, hid, Option.bind_some, resolve, if_pos hlive']

end Library

end AtomLisp
