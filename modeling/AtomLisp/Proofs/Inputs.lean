import AtomLisp.CommandLine
import AtomLisp.Proofs.Appending

/-!
# Inputs in order

The inputs of a program are run one after the other in one scope, up to the first one that fails.
What becomes of them is described by rules, which say how each input ends, what it leaves to the
next one, and which inputs are run at all. Nothing else is looked at: neither the inputs after a
failure nor the files that they name (`Processes.of_stop`). Inputs are processed as the rules say
(`Processes.runInputs_eq`), and `inputs_run_in_order` adds the status and the reports of the
program.
-/

namespace AtomLisp

open Eval

section Rules

variable (depth : Nat) (files : Files) (s : ScopeId)

/-- How an input ends that is run in scope `s` of a store. If it names a file, the text of the file
is run, and if the file holds no text or cannot be read, nothing is; any other input is run inside a
call of `display`. -/
inductive InputEnds (input : String) (st : Store) : EStateM.Result Stop Session Value → Prop where
  | file {bytes : ByteArray} {text : String} : files input = some (.readable bytes) →
      String.fromUTF8? bytes = some text → InputEnds input st (run depth text s { store := st })
  | noText {bytes : ByteArray} : files input = some (.readable bytes) →
      String.fromUTF8? bytes = none →
      InputEnds input st (.error (.error { fault := .invalidEncoding }) { store := st })
  | unreadable {reason : String} : files input = some (.unreadable reason) →
      InputEnds input st (.error (.error { fault := .unreadable reason }) { store := st })
  | expression : files input = none →
      InputEnds input st (run depth ("(display " ++ input ++ ")") s { store := st })

/-- What is left when inputs have been processed: the inputs that have been run, the output of all
of them, the store, and why the last one of them has stopped, if it has. -/
structure Batch where
  run : List String := []
  output : String := ""
  store : Store
  stop : Option Stop := none

/-- What is left when inputs are processed in scope `s` of a store. Each is run in the store that
all before it have left, and the first one that fails is the last one. -/
inductive Processes : List String → Store → Batch → Prop where
  | done (st : Store) : Processes [] st { store := st }
  | value {input : String} {inputs : List String} {st : Store} {v : Value} {t : Session}
      {batch : Batch} : InputEnds depth files s input st (.ok v t) →
      Processes inputs t.store batch →
      Processes (input :: inputs) st
        { batch with run := input :: batch.run, output := t.output ++ batch.output }
  | failure {input : String} {st : Store} {stop : Stop} {t : Session} (inputs : List String) :
      InputEnds depth files s input st (.error stop t) →
      Processes (input :: inputs) st
        { run := [input], output := t.output, store := t.store, stop := some stop }

end Rules

/-! ### Single inputs -/

section Input

variable {depth : Nat} {files : Files} {s : ScopeId} {input : String}

/-- An input does the same whatever has been written before it. -/
theorem runInput_appends (depth : Nat) (file : Option File) (s : ScopeId) (input : String) :
    (runInput depth file s input).Appends := by
  cases file with
  | some file =>
    exact .bind (Appends.stepwise.ofExcept (fileText file)) fun source => run_appends depth source s
  | none => exact run_appends depth (displayed input) s

/-- An input ends as the rules say. -/
theorem InputEnds.runInput_eq {st : Store} {result : EStateM.Result Stop Session Value}
    (h : InputEnds depth files s input st result) :
    runInput depth (files input) s input { store := st } = result := by
  cases h with
  | file hbytes htext =>
    simp only [hbytes, runInput, runFile, fileText, htext]
    rfl
  | noText hbytes htext =>
    simp only [hbytes, runInput, runFile, fileText, htext]
    rfl
  | unreadable hreason =>
    rw [hreason]
    rfl
  | expression hnone =>
    rw [hnone]
    rfl

/-- There is a rule for every input. -/
theorem inputEnds_runInput (depth : Nat) (files : Files) (s : ScopeId) (input : String)
    (st : Store) :
    InputEnds depth files s input st
      (runInput depth (files input) s input { store := st }) := by
  have hresult : ∃ result, InputEnds depth files s input st result := by
    cases hfile : files input with
    | none => exact ⟨_, .expression hfile⟩
    | some file =>
      cases file with
      | unreadable reason => exact ⟨_, .unreadable hfile⟩
      | readable bytes =>
        cases htext : String.fromUTF8? bytes with
        | some text => exact ⟨_, .file hfile htext⟩
        | none => exact ⟨_, .noText hfile htext⟩
  obtain ⟨result, h⟩ := hresult
  rw [h.runInput_eq]
  exact h

/-- How an input ends depends on no other file than the one that it names. -/
theorem InputEnds.congr {files' : Files} {st : Store}
    {result : EStateM.Result Stop Session Value} (h : InputEnds depth files s input st result)
    (hfile : files' input = files input) : InputEnds depth files' s input st result := by
  cases h with
  | file hbytes htext => exact .file (hfile.trans hbytes) htext
  | noText hbytes htext => exact .noText (hfile.trans hbytes) htext
  | unreadable hreason => exact .unreadable (hfile.trans hreason)
  | expression hnone => exact .expression (hfile.trans hnone)

end Input

/-! ### Several inputs -/

/-- How the program ends, in the session `t`. -/
def Batch.result (batch : Batch) (t : Session) : EStateM.Result Stop Session Exit :=
  match batch.stop with
  | none => .ok {} t
  | some (.error e) => .ok (Exit.ofError e) t
  | some .tooDeep => .error .tooDeep t

/-- An input is attempted, and what comes next depends on how it ends. -/
theorem runInputs_cons_apply (depth : Nat) (files : Files) (s : ScopeId) (input : String)
    (inputs : List String) (session : Session) :
    runInputs depth files s (input :: inputs) session =
      match runInput depth (files input) s input { store := session.store } with
      | .ok _ t => runInputs depth files s inputs (t.since session.output session.events)
      | .error (.error e) t => .ok (Exit.ofError e) (t.since session.output session.events)
      | .error .tooDeep t => .error .tooDeep (t.since session.output session.events) := by
  rw [runInputs]
  show EStateM.bind (EStateM.bind (Eval.attempt (runInput depth (files input) s input)) _) _ session
    = _
  unfold EStateM.bind Eval.attempt
  rw [(runInput_appends depth (files input) s input).eq_of_store session]
  cases runInput depth (files input) s input { store := session.store } with
  | ok v t => rfl
  | error stop t =>
    cases stop with
    | error e => rfl
    | tooDeep => rfl

namespace Processes

variable {depth : Nat} {files : Files} {s : ScopeId} {inputs : List String} {st : Store}
  {batch : Batch}

/-- The inputs that are run are the first ones. -/
theorem run_prefix (h : Processes depth files s inputs st batch) : batch.run <+: inputs := by
  induction h with
  | done st => exact List.prefix_rfl
  | value _ _ ih => exact List.cons_prefix_cons.2 ⟨rfl, ih⟩
  | failure inputs _ => exact List.cons_prefix_cons.2 ⟨rfl, List.nil_prefix⟩

/-- If none of them has failed, these are all. -/
theorem run_eq_of_stop_eq_none (h : Processes depth files s inputs st batch)
    (hstop : batch.stop = none) : batch.run = inputs := by
  induction h with
  | done st => rfl
  | value _ _ ih => exact congrArg _ (ih hstop)
  | failure inputs _ => cases hstop

/-- After a failure, it makes no difference which inputs come next, or what other files hold. -/
theorem of_stop (h : Processes depth files s inputs st batch) {stop : Stop}
    (hstop : batch.stop = some stop) {files' : Files}
    (hfiles : ∀ input ∈ batch.run, files' input = files input) (later : List String) :
    Processes depth files' s (batch.run ++ later) st batch := by
  induction h with
  | done st => cases hstop
  | value hends _ ih =>
    obtain ⟨hfile, hrest⟩ := List.forall_mem_cons.1 hfiles
    exact .value (hends.congr hfile) (ih hstop hrest)
  | failure inputs hends =>
    exact .failure later (hends.congr (hfiles _ List.mem_cons_self))

/-- Inputs are processed as the rules say. -/
theorem runInputs_eq (h : Processes depth files s inputs st batch) {session : Session}
    (hst : session.store = st) :
    ∃ t : Session, runInputs depth files s inputs session = batch.result t ∧
      t.output = session.output ++ batch.output ∧ t.store = batch.store := by
  induction h generalizing session with
  | done st => exact ⟨session, rfl, String.append_empty.symm, hst⟩
  | @value input inputs st v t batch hends _ ih =>
    subst hst
    obtain ⟨u, hrest, houtput, hstore⟩ :=
      @ih (t.since session.output session.events) rfl
    refine ⟨u, ?_, ?_, hstore⟩
    · rw [runInputs_cons_apply, hends.runInput_eq]
      exact hrest
    · rw [houtput]
      exact String.append_assoc
  | @failure input st stop t inputs hends =>
    subst hst
    refine ⟨t.since session.output session.events, ?_, rfl, rfl⟩
    rw [runInputs_cons_apply, hends.runInput_eq]
    cases stop <;> rfl

end Processes

/-- There is a rule for everything that can become of inputs. -/
theorem exists_processes (depth : Nat) (files : Files) (s : ScopeId) (inputs : List String)
    (st : Store) : ∃ batch, Processes depth files s inputs st batch := by
  induction inputs generalizing st with
  | nil => exact ⟨_, .done st⟩
  | cons input inputs ih =>
    have hends := inputEnds_runInput depth files s input st
    cases hresult : runInput depth (files input) s input { store := st } with
    | ok v t =>
      rw [hresult] at hends
      obtain ⟨batch, hbatch⟩ := ih t.store
      exact ⟨_, .value hends hbatch⟩
    | error stop t =>
      rw [hresult] at hends
      exact ⟨_, .failure inputs hends⟩

/-- A program that is given inputs runs them in the root that it has opened. -/
theorem execute_of_inputs {options : Options} (hne : options.inputs ≠ [])
    (htest : options.selfTest = false) {depth : Nat} {root : ScopeId} {before session : Session}
    (hroot : options.openRoot depth before = .ok root session) (files : Files)
    (lines : List String) :
    (Request.run options).execute depth files lines before =
      runInputs depth files root options.inputs session := by
  have hattempt : Eval.attempt (options.openRoot depth) before = .ok (.ok root) session := by
    rw [Eval.attempt, hroot]
  have hreads : options.readsInput = false := by
    rw [Options.readsInput, List.isEmpty_eq_false_iff.2 hne]
    rfl
  show EStateM.bind (Eval.attempt (options.openRoot depth)) _ before = _
  rw [EStateM.bind, hattempt]
  simp only [hreads, htest, Bool.false_eq_true, if_false]

/-- **Inputs are run in order up to the first one that fails.** Whatever the inputs are, and
whatever the files hold, there is a rule for each thing that can become of them, and they are
processed as the rules say: from left to right in one scope, each in the store that those before it
have left. The output is that of all inputs that have been run, with what the failing one has
written. If none fails, all have been run, the status is zero, and nothing is reported. If one fails
because it asks to end, the status is zero as well, and nothing is reported; if it fails for another
reason, the status is one, and its text is reported on a line. After a failure it makes no
difference which inputs come next, or what the files hold that they name. A program that is given
inputs does all of this in the root that it has opened. -/
theorem inputs_run_in_order (depth : Nat) (files : Files) (s : ScopeId) (inputs : List String)
    (session : Session) :
    (∃ batch, Processes depth files s inputs session.store batch) ∧
    (∀ batch, Processes depth files s inputs session.store batch →
      batch.run <+: inputs ∧
      (∃ t : Session, t.output = session.output ++ batch.output ∧ t.store = batch.store ∧
        (batch.stop = none → batch.run = inputs ∧
          runInputs depth files s inputs session = .ok { status := 0, errors := "" } t) ∧
        (∀ e, batch.stop = some (.error e) → e.fault.kind = .quit →
          runInputs depth files s inputs session = .ok { status := 0, errors := "" } t) ∧
        (∀ e, batch.stop = some (.error e) → e.fault.kind ≠ .quit →
          runInputs depth files s inputs session =
            .ok { status := 1, errors := e.text ++ "\n" } t) ∧
        (batch.stop = some .tooDeep →
          runInputs depth files s inputs session = .error .tooDeep t)) ∧
      ∀ stop, batch.stop = some stop → ∀ files' later,
        (∀ input ∈ batch.run, files' input = files input) →
        Processes depth files' s (batch.run ++ later) session.store batch) ∧
    ∀ options lines before, options.inputs = inputs → inputs ≠ [] →
      options.selfTest = false → options.openRoot depth before = .ok s session →
      (Request.run options).execute depth files lines before =
        runInputs depth files s inputs session := by
  refine ⟨exists_processes depth files s inputs session.store, fun batch h => ?_, ?_⟩
  · obtain ⟨t, hresult, houtput, hstore⟩ := h.runInputs_eq rfl
    refine ⟨h.run_prefix, ⟨t, houtput, hstore, fun hstop => ?_, fun e hstop hquit => ?_,
      fun e hstop hquit => ?_, fun hstop => ?_⟩,
      fun stop hstop files' later hfiles => h.of_stop hstop hfiles later⟩
    all_goals rw [hresult, Batch.result, hstop]
    · exact ⟨h.run_eq_of_stop_eq_none hstop, rfl⟩
    · simp only [Exit.ofError, if_pos (Error.isQuit_iff.2 hquit)]
    · simp only [Exit.ofError, if_neg (mt Error.isQuit_iff.1 hquit), Exit.report]
  · rintro options lines before rfl hne htest hroot
    exact execute_of_inputs hne htest hroot files lines

/-- Of three inputs the second one asks to quit, so the third one is not looked at. -/
example : (runInputs 4 (fun _ => none) 0 ["1", "(quit)", "2"]).outcome (Eval.newRoot.after {}) =
    .ok { status := 0, errors := "" } := by
  cbv

end AtomLisp
