import AtomLisp.CommandLine
import AtomLisp.Proofs.Appending
import AtomLisp.Proofs.SourceLines

/-!
# Conversations

The read loop asks for lines and runs what they make up, in one go. Here its work is described by
rules, one for each thing that can become of a source, which say what is shown, what is reported and
which store the next source finds. The loop does what the rules say (`Conversation.records_repl`),
and there is a rule for everything, whatever the lines are (`read_loop_survives`).
-/

namespace AtomLisp

open Eval

/-- What is left of a conversation: what stands on the output and on the error output, and the
store. The conversation was cut short if some source nests too deep. -/
structure Transcript where
  output : String
  errors : String := ""
  store : Store
  cutShort : Bool := false

/-- The conversation that readings lead to, in scope `s` of a store. Each source is run inside a
call of `display`, in the store that all sources before it have left. -/
inductive Conversation (depth : Nat) (s : ScopeId) :
    List Reading → Store → Transcript → Prop where
  /-- There are no more sources. Lines of an unfinished one are not run. -/
  | endOfInput {shown : String} {st : Store} :
      Conversation depth s [.ended shown] st { output := shown, store := st }
  /-- A source of blanks only is passed over. -/
  | blank {text shown : String} {rest : List String} {readings : List Reading} {st : Store}
      {transcript : Transcript} : text.toList.all Text.isBlank = true →
      Conversation depth s readings st transcript →
      Conversation depth s (.source text shown rest :: readings) st
        { transcript with output := shown ++ transcript.output }
  /-- The source has been run. -/
  | value {text shown : String} {rest : List String} {readings : List Reading} {st : Store}
      {v : Value} {t : Session} {transcript : Transcript} :
      text.toList.all Text.isBlank = false →
      run depth ("(display " ++ text ++ ")") s { store := st } = .ok v t →
      Conversation depth s readings t.store transcript →
      Conversation depth s (.source text shown rest :: readings) st
        { transcript with output := shown ++ t.output ++ transcript.output }
  /-- The source has failed. This is reported, and the conversation goes on in the store that the
  failure has left. -/
  | failure {text shown : String} {rest : List String} {readings : List Reading} {st : Store}
      {e : Error} {t : Session} {transcript : Transcript} :
      text.toList.all Text.isBlank = false →
      run depth ("(display " ++ text ++ ")") s { store := st } = .error (.error e) t →
      e.fault.kind ≠ .quit →
      Conversation depth s readings t.store transcript →
      Conversation depth s (.source text shown rest :: readings) st
        { transcript with
          output := shown ++ t.output ++ transcript.output
          errors := e.text ++ "\n" ++ transcript.errors }
  /-- The source has asked to end. Whatever could be read after it is of no account. -/
  | quit {text shown : String} {rest : List String} {readings : List Reading} {st : Store}
      {e : Error} {t : Session} : text.toList.all Text.isBlank = false →
      run depth ("(display " ++ text ++ ")") s { store := st } = .error (.error e) t →
      e.fault.kind = .quit →
      Conversation depth s (.source text shown rest :: readings) st
        { output := shown ++ t.output, store := t.store }
  /-- The source nests too deep. -/
  | tooDeep {text shown : String} {rest : List String} {readings : List Reading} {st : Store}
      {t : Session} : text.toList.all Text.isBlank = false →
      run depth ("(display " ++ text ++ ")") s { store := st } = .error .tooDeep t →
      Conversation depth s (.source text shown rest :: readings) st
        { output := shown ++ t.output, store := t.store, cutShort := true }

/-- The computation ends with the reports, unless the conversation was cut short, and it leaves the
store of the transcript and the output of the transcript after what had been written before. -/
def Transcript.Records (transcript : Transcript) (act : Eval String) (session : Session) : Prop :=
  ∃ t : Session,
    act session = (if transcript.cutShort then .error .tooDeep t else .ok transcript.errors t) ∧
    t.output = session.output ++ transcript.output ∧ t.store = transcript.store

/-! ### Reading a source, and dealing with it -/

namespace Eval

variable {α : Type}

/-- The session after more has been written. -/
def written (text : String) (session : Session) : Session :=
  { session with output := session.output ++ text }

/-- What is written before a computation is in the output that it finds. -/
theorem write_bind_apply (text : String) (next : Eval α) (session : Session) :
    (Eval.write text >>= fun _ => next) session = next (written text session) := rfl

theorem bind_pure_apply {β : Type} (act : Eval α) (f : α → β) (session : Session) :
    (do return f (← act)) session = match act session with
      | .ok a t => .ok (f a) t
      | .error stop t => .error stop t := by
  simp only [bind, EStateM.bind]
  cases act session <;> rfl

/-- Two texts written one after the other are one text. -/
theorem write_bind_write (text more : String) (next : Eval α) :
    (Eval.write text >>= fun _ => Eval.write more >>= fun _ => next) =
      Eval.write (text ++ more) >>= fun _ => next := by
  funext session
  show next (written more (written text session)) = next (written (text ++ more) session)
  rw [written, written, written, String.append_assoc]

/-- Without a report of its own, a computation reports what comes after it. -/
theorem empty_report (act : Eval String) : (do return "" ++ (← act)) = act := by
  simp only [String.empty_append, bind_pure]

theorem write_empty_bind (next : Eval α) : (Eval.write "" >>= fun _ => next) = next := by
  funext session
  rw [write_bind_apply, written, String.append_empty]

end Eval

variable (depth : Nat) (s : ScopeId)

/-- Show the prompts of a reading, and deal with its source as the read loop does. -/
def proceed : Reading → Eval String
  | .ended shown => do
    Eval.write shown
    return ""
  | .source text shown rest => do
    Eval.write shown
    match ← respond depth s text with
    | .readOn next report => return report ++ (← repl depth s next rest)
    | .quit => return ""

/-- From within a source, the loop reads on to its end, and then deals with it. -/
theorem write_bind_repl (source shown : String) (lines : List String) :
    (Eval.write shown >>= fun _ => repl depth s source lines) =
      proceed depth s (readOn source shown lines) := by
  -- the prompts shown so far are gathered in front, one for each line
  induction lines generalizing source shown with
  | nil => exact write_bind_write shown (prompt source) (pure "")
  | cons line lines ih =>
    rw [repl, readOn, write_bind_write]
    by_cases hbalanced : isBalanced (source ++ line ++ "\n") = true
    · simp only [takeLine, if_pos hbalanced]
      rfl
    · simp only [takeLine, if_neg hbalanced, pure_bind, empty_report]
      exact ih (source ++ line ++ "\n") (shown ++ prompt source)

/-- The loop reads the lines of a source, and goes on with what they make up. -/
theorem repl_eq_proceed (lines : List String) :
    repl depth s "" lines = proceed depth s (readBalanced lines) := by
  rw [readBalanced, ← write_bind_repl, write_empty_bind]

/-! ### What becomes of a source -/

section Respond

variable {depth s} {text : String}

/-- A source of blanks only is not run. -/
theorem respond_of_blank (hblank : text.toList.all Text.isBlank = true) (session : Session) :
    respond depth s text session = .ok (.readOn "" "") session := by
  rw [respond, if_pos hblank]
  rfl

/-- What is done about a source that is run, by the way in which running it in the store ends. -/
theorem respond_of_not_blank (hblank : text.toList.all Text.isBlank = false) {session : Session}
    {st : Store} (hst : session.store = st) :
    respond depth s text session =
      match run depth (displayed text) s { store := st } with
      | .ok _ t => .ok (.readOn "" "") (t.since session.output session.events)
      | .error (.error e) t =>
        .ok (if e.isQuit then .quit else .readOn "" (e.text ++ "\n"))
          (t.since session.output session.events)
      | .error .tooDeep t => .error .tooDeep (t.since session.output session.events) := by
  subst hst
  rw [respond, if_neg (Bool.not_eq_true _ ▸ hblank)]
  show EStateM.bind (Eval.attempt (run depth (displayed text) s)) _ session = _
  unfold EStateM.bind Eval.attempt
  rw [(run_appends depth (displayed text) s).eq_of_store session]
  cases run depth (displayed text) s { store := session.store } with
  | ok v t => rfl
  | error stop t =>
    cases stop with
    | error e => rfl
    | tooDeep => rfl

variable {session t : Session} {st : Store} (hblank : text.toList.all Text.isBlank = false)
  (hst : session.store = st)
include hblank hst

/-- A source with a value is answered with nothing more than it has written. -/
theorem respond_of_value {v : Value}
    (hrun : run depth (displayed text) s { store := st } = .ok v t) :
    respond depth s text session =
      .ok (.readOn "" "") (t.since session.output session.events) := by
  rw [respond_of_not_blank hblank hst, hrun]

/-- An error is reported, and the loop goes on. -/
theorem respond_of_failure {e : Error}
    (hrun : run depth (displayed text) s { store := st } = .error (.error e) t)
    (hquit : e.fault.kind ≠ .quit) :
    respond depth s text session =
      .ok (.readOn "" (e.text ++ "\n")) (t.since session.output session.events) := by
  rw [respond_of_not_blank hblank hst, hrun]
  simp only [if_neg (mt Error.isQuit_iff.1 hquit)]

/-- A program's wish to end ends the loop. -/
theorem respond_of_quit {e : Error}
    (hrun : run depth (displayed text) s { store := st } = .error (.error e) t)
    (hquit : e.fault.kind = .quit) :
    respond depth s text session = .ok .quit (t.since session.output session.events) := by
  rw [respond_of_not_blank hblank hst, hrun]
  simp only [if_pos (Error.isQuit_iff.2 hquit)]

/-- Where the depth does not suffice, the loop cannot go on. -/
theorem respond_of_tooDeep
    (hrun : run depth (displayed text) s { store := st } = .error .tooDeep t) :
    respond depth s text session = .error .tooDeep (t.since session.output session.events) := by
  rw [respond_of_not_blank hblank hst, hrun]

end Respond

/-- The loop goes on after a source as the response to it says. -/
theorem proceed_source (text shown : String) (rest : List String) (session : Session) :
    proceed depth s (.source text shown rest) session =
      match respond depth s text (written shown session) with
      | .ok (.readOn next report) t =>
        (do return report ++ (← repl depth s next rest) : Eval String) t
      | .ok .quit t => .ok "" t
      | .error stop t => .error stop t := by
  show EStateM.bind (respond depth s text) _ (written shown session) = _
  unfold EStateM.bind
  cases respond depth s text (written shown session) with
  | ok response t => cases response <;> rfl
  | error stop t => rfl

/-! ### What the rules say is done -/

namespace Transcript.Records

variable {transcript : Transcript} {act act' : Eval String} {session session' : Session}

/-- A computation that goes on as another one does, after a text has been written, leaves that text
in front. -/
theorem after_text (h : transcript.Records act' session') (heq : act session = act' session')
    {text : String} (houtput : session'.output = session.output ++ text) :
    { transcript with output := text ++ transcript.output }.Records act session := by
  obtain ⟨t, hact, hwritten, hstore⟩ := h
  refine ⟨t, heq.trans hact, ?_, hstore⟩
  rw [hwritten, houtput, String.append_assoc]

/-- A report comes in front of the reports that follow it. -/
theorem after_report (h : transcript.Records act session) (report : String) :
    { transcript with errors := report ++ transcript.errors }.Records
      (do return report ++ (← act)) session := by
  obtain ⟨t, hact, hwritten, hstore⟩ := h
  refine ⟨t, ?_, hwritten, hstore⟩
  rw [Eval.bind_pure_apply, hact]
  cases transcript.cutShort <;> rfl

end Transcript.Records

/-- The first source of some lines is the one that the loop reads from them. -/
theorem readAll_eq_source_cons {lines rest : List String} {text shown : String}
    {readings : List Reading} (h : readAll lines = .source text shown rest :: readings) :
    readBalanced lines = .source text shown rest ∧ readings = readAll rest := by
  cases hread : readBalanced lines with
  | source text' shown' rest' =>
    rw [readAll_of_source hread] at h
    obtain ⟨hhead, rfl⟩ := List.cons.inj h
    obtain ⟨rfl, rfl, rfl⟩ := Reading.source.inj hhead
    exact ⟨rfl, rfl⟩
  | ended shown' =>
    rw [readAll_of_ended hread] at h
    cases h

/-- Lines without a source end the loop as soon as they are read. -/
theorem readAll_eq_ended_cons {lines : List String} {shown : String} {readings : List Reading}
    (h : readAll lines = .ended shown :: readings) : readBalanced lines = .ended shown := by
  cases hread : readBalanced lines with
  | source text' shown' rest' =>
    rw [readAll_of_source hread] at h
    cases h
  | ended shown' =>
    rw [readAll_of_ended hread] at h
    exact (List.cons.inj h).1

variable {depth s}

/-- The read loop does what the rules say. -/
theorem Conversation.records_repl {readings : List Reading} {st : Store} {transcript : Transcript}
    (h : Conversation depth s readings st transcript) {lines : List String}
    (hlines : readAll lines = readings) {session : Session} (hst : session.store = st) :
    transcript.Records (repl depth s "" lines) session := by
  -- in each case the rule says how running the source ends, so how the loop responds to it
  induction h generalizing lines session with
  | endOfInput =>
    subst hst
    rw [repl_eq_proceed, readAll_eq_ended_cons hlines]
    exact ⟨_, rfl, rfl, rfl⟩
  | @blank text shown rest readings st transcript hblank _ ih =>
    obtain ⟨hread, rfl⟩ := readAll_eq_source_cons hlines
    rw [repl_eq_proceed, hread]
    have hrest : transcript.Records (repl depth s "" rest) (written shown session) := ih rfl hst
    refine hrest.after_text ?_ rfl
    rw [proceed_source, respond_of_blank hblank]
    exact congrFun (empty_report _) _
  | @value text shown rest readings st v t transcript hblank hrun _ ih =>
    obtain ⟨hread, rfl⟩ := readAll_eq_source_cons hlines
    have hstore : (written shown session).store = st := hst
    have hrest : transcript.Records (repl depth s "" rest)
        (t.since (session.output ++ shown) session.events) := ih rfl rfl
    rw [repl_eq_proceed, hread]
    refine hrest.after_text ?_ String.append_assoc
    rw [proceed_source, respond_of_value hblank hstore hrun]
    exact congrFun (empty_report _) _
  | @failure text shown rest readings st e t transcript hblank hrun hquit _ ih =>
    obtain ⟨hread, rfl⟩ := readAll_eq_source_cons hlines
    have hstore : (written shown session).store = st := hst
    have hrest : transcript.Records (repl depth s "" rest)
        (t.since (session.output ++ shown) session.events) := ih rfl rfl
    rw [repl_eq_proceed, hread]
    refine (hrest.after_report (e.text ++ "\n")).after_text ?_ String.append_assoc
    rw [proceed_source, respond_of_failure hblank hstore hrun hquit]
    rfl
  | @quit text shown rest readings st e t hblank hrun hquit =>
    obtain ⟨hread, -⟩ := readAll_eq_source_cons hlines
    have hstore : (written shown session).store = st := hst
    rw [repl_eq_proceed, hread]
    refine ⟨t.since (session.output ++ shown) session.events, ?_, String.append_assoc, rfl⟩
    rw [proceed_source, respond_of_quit hblank hstore hrun hquit]
    rfl
  | @tooDeep text shown rest readings st t hblank hrun =>
    obtain ⟨hread, -⟩ := readAll_eq_source_cons hlines
    have hstore : (written shown session).store = st := hst
    rw [repl_eq_proceed, hread]
    refine ⟨t.since (session.output ++ shown) session.events, ?_, String.append_assoc, rfl⟩
    rw [proceed_source, respond_of_tooDeep hblank hstore hrun]
    rfl

/-- There is a rule for everything that can become of a source. -/
theorem exists_conversation (depth : Nat) (s : ScopeId) (lines : List String) (st : Store) :
    ∃ transcript, Conversation depth s (readAll lines) st transcript := by
  -- a source takes a line at least, so fewer lines are left after it
  induction hlength : lines.length using Nat.strongRecOn generalizing lines st with
  | _ n ih =>
    subst hlength
    cases hread : readBalanced lines with
    | ended shown =>
      rw [readAll_of_ended hread]
      exact ⟨_, .endOfInput⟩
    | source text shown rest =>
      rw [readAll_of_source hread]
      have hrest := fun st => ih rest.length (length_lt_of_readBalanced hread) rest st rfl
      cases hblank : text.toList.all Text.isBlank with
      | true =>
        obtain ⟨transcript, htranscript⟩ := hrest st
        exact ⟨_, .blank hblank htranscript⟩
      | false =>
        cases hrun : run depth (displayed text) s { store := st } with
        | ok v t =>
          obtain ⟨transcript, htranscript⟩ := hrest t.store
          exact ⟨_, .value hblank hrun htranscript⟩
        | error stop t =>
          cases stop with
          | tooDeep => exact ⟨_, .tooDeep hblank hrun⟩
          | error e =>
            by_cases hquit : e.fault.kind = .quit
            · exact ⟨_, .quit hblank hrun hquit⟩
            · obtain ⟨transcript, htranscript⟩ := hrest t.store
              exact ⟨_, .failure hblank hrun hquit htranscript⟩

/-- A program that reads its sources runs the read loop in the root that it has opened, and ends
with status zero. -/
theorem execute_of_readsInput {options : Options} (h : options.readsInput = true) {depth : Nat}
    {root : ScopeId} {before session : Session}
    (hroot : options.openRoot depth before = .ok root session) (files : Files)
    (lines : List String) :
    (Request.run options).execute depth files lines before =
      match repl depth root "" lines session with
      | .ok errors t => .ok { status := 0, errors } t
      | .error stop t => .error stop t := by
  have hattempt : Eval.attempt (options.openRoot depth) before = .ok (.ok root) session := by
    rw [Eval.attempt, hroot]
  show EStateM.bind (Eval.attempt (options.openRoot depth)) _ before = _
  rw [EStateM.bind, hattempt]
  simp only [h, if_true]
  rw [bind_pure_apply]
  cases repl depth root "" lines session <;> rfl

/-- **The read loop survives every input.** Whatever lines are read, there is a conversation that
follows the rules, and the loop leaves what the conversation does: sources are run in the order in
which they are read, all in one scope, each in the store that those before it have left, whether
they had values or failed; prompts and what the programs write stand on the output in this order,
and each failure adds its report. The conversation ends with the input or with the first source that
asks to end. A program that reads its sources in this way ends with status zero. -/
theorem read_loop_survives (depth : Nat) (s : ScopeId) (lines : List String) (session : Session) :
    (∃ transcript, Conversation depth s (readAll lines) session.store transcript) ∧
    ∀ transcript, Conversation depth s (readAll lines) session.store transcript →
      transcript.Records (repl depth s "" lines) session ∧
      ∀ options files before, options.readsInput = true →
        options.openRoot depth before = .ok s session →
        ∃ t : Session, (Request.run options).execute depth files lines before =
            (if transcript.cutShort then .error .tooDeep t
              else .ok { status := 0, errors := transcript.errors } t) ∧
          t.output = session.output ++ transcript.output ∧ t.store = transcript.store := by
  refine ⟨exists_conversation depth s lines session.store, fun transcript h => ?_⟩
  have hrecords : transcript.Records (repl depth s "" lines) session := h.records_repl rfl rfl
  refine ⟨hrecords, fun options files before hreads hroot => ?_⟩
  obtain ⟨t, hrepl, houtput, hstore⟩ := hrecords
  refine ⟨t, ?_, houtput, hstore⟩
  rw [execute_of_readsInput hreads hroot, hrepl]
  cases transcript.cutShort <;> rfl

end AtomLisp
