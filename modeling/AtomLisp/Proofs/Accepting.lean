import AtomLisp.Proofs.Completing
import AtomLisp.Proofs.SourceNames

/-!
# Accepting a completion

When a name that is offered takes the place of the one that was typed in, the line keeps all its
other tokens. This is because every name that programs bind can be written in source text: it begins
and ends like the atom that it replaces, so it merges with nothing around it, and does not fall
apart.

Characters have the same tokens wherever they begin (`LexesFrom.exists_moved`), so one atom in place
of another one changes no other token (`LexesFrom.exists_replaced`), and
`accepting_changes_only_the_name` says so of every name that is offered after programs.
-/

namespace AtomLisp

open String (utf8Len utf8Len_append utf8Len_toList)

/-- The bytes of the line, with those from `start` up to `stop` replaced by the name. -/
def Text.replaceBytes (line : String) (start stop : Nat) (name : String) : ByteArray :=
  line.toByteArray.extract 0 start ++ name.toByteArray ++
    line.toByteArray.extract stop line.utf8ByteSize

/-- To replace the bytes of a middle part is to put the name in its place. -/
theorem Text.replaceBytes_append (before part after name : String) :
    replaceBytes (before ++ part ++ after) before.utf8ByteSize (before ++ part).utf8ByteSize name =
      (before ++ name ++ after).toByteArray := by
  have hfront : (before ++ part ++ after).toByteArray.extract 0 before.utf8ByteSize =
      before.toByteArray := by
    rw [String.append_assoc, String.toByteArray_append]
    exact ByteArray.extract_append_eq_left String.size_toByteArray.symm
  have hback : (before ++ part ++ after).toByteArray.extract (before ++ part).utf8ByteSize
      (before ++ part ++ after).utf8ByteSize = after.toByteArray := by
    rw [String.toByteArray_append]
    refine ByteArray.extract_append_eq_right String.size_toByteArray.symm ?_
    rw [String.size_toByteArray, String.size_toByteArray, ← String.utf8ByteSize_append]
  rw [replaceBytes, hfront, hback, String.toByteArray_append, String.toByteArray_append]

/-! ### One atom in place of another one -/

namespace LexesFrom

variable {start : Nat} {cs : List Char} {ls : List Lexeme}

/-- Where characters begin makes no difference to their tokens. -/
theorem exists_moved (h : LexesFrom start cs ls) (place : Nat) :
    ∃ moved, LexesFrom place cs moved ∧ moved.map Lexeme.token = ls.map Lexeme.token := by
  induction h generalizing place with
  | nil start => exact ⟨[], .nil place, rfl⟩
  | blank hc _ ih =>
    obtain ⟨moved, h, htokens⟩ := ih (place + _)
    exact ⟨moved, .blank hc h, htokens⟩
  | token ht hseam _ ih =>
    obtain ⟨moved, h, htokens⟩ := ih (place + _)
    exact ⟨_ :: moved, .token ht hseam h, congrArg (_ :: ·) htokens⟩

/-- An atom can be replaced by any other one. The characters in front and their lexemes stay as they
are, those after it keep their tokens. -/
theorem exists_replaced (h : LexesFrom start cs ls) {front back : List Lexeme} {stem : String}
    {first stop : Nat} (hls : ls = front ++ ⟨.atom stem, first, stop⟩ :: back)
    (hstem : (Token.atom stem).IsWritten) {name : String} (hname : (Token.atom name).IsWritten) :
    ∃ before after moved, cs = before ++ (stem.toList ++ after) ∧
      start + utf8Len before = first ∧ first + stem.utf8ByteSize = stop ∧
      moved.map Lexeme.token = back.map Lexeme.token ∧
      LexesFrom start (before ++ (name.toList ++ after))
        (front ++ ⟨.atom name, first, first + name.utf8ByteSize⟩ :: moved) := by
  induction h generalizing front with
  | nil start => exact absurd hls.symm (List.append_ne_nil_of_right_ne_nil _ (List.cons_ne_nil _ _))
  | @blank start c cs ls hc _ ih =>
    obtain ⟨before, after, moved, rfl, rfl, hstop, htokens, h⟩ := ih hls
    refine ⟨c :: before, after, moved, rfl, ?_, hstop, htokens, .blank hc h⟩
    rw [String.utf8Len_cons]
    omega
  | @token start t rest ls ht hseam h ih =>
    cases front with
    | nil =>
      obtain ⟨hl, rfl⟩ := List.cons.inj hls
      obtain ⟨rfl, rfl, rfl⟩ := Lexeme.mk.inj hl
      obtain ⟨moved, hmoved, htokens⟩ := h.exists_moved (start + name.utf8ByteSize)
      -- what comes after the atom does not go on with it, nor with another one
      have hend : Text.Seam (Token.atom name).text.toList rest :=
        (Text.seam_text_left_iff hname).2 fun _ d _ hd =>
          (Text.seam_text_left_iff ht).1 hseam stem d rfl hd
      exact ⟨[], rest, moved, rfl, rfl, rfl, htokens, .token hname hend hmoved⟩
    | cons l front =>
      obtain ⟨rfl, hrest⟩ := List.cons.inj hls
      obtain ⟨before, after, moved, rfl, hfirst, hstop, htokens, h⟩ := ih hrest
      have hend : Text.Seam t.text.toList (before ++ (name.toList ++ after)) := by
        cases before with
        | nil =>
          exact (Text.seam_text_right_iff hname).2 fun _ c _ hc =>
            (Text.seam_text_right_iff hstem).1 hseam stem c rfl hc
        | cons d before => exact hseam
      refine ⟨t.text.toList ++ before, after, moved, ?_, ?_, hstop, htokens, ?_⟩
      · rw [List.append_assoc]
      · rw [utf8Len_append, utf8Len_toList]
        omega
      · rw [List.append_assoc]
        exact .token ht hend h

end LexesFrom

/-- Replacing an atom of a line by another one changes no other token. -/
theorem exists_edited {line stem name : String} {front back : List Lexeme} {start stop : Nat}
    (hline : lexemes line = front ++ ⟨.atom stem, start, stop⟩ :: back)
    (hname : Text.IsAtom name) :
    ∃ edited moved, edited.toByteArray = Text.replaceBytes line start stop name ∧
      lexemes edited = front ++ ⟨.atom name, start, start + name.utf8ByteSize⟩ :: moved ∧
      moved.map Lexeme.token = back.map Lexeme.token := by
  have hlexes : LexesFrom 0 line.toList (lexemes line) :=
    isLexing_iff_lexesFrom.1 (isLexing_iff.2 rfl)
  have hl : ⟨.atom stem, start, stop⟩ ∈ lexemes line := by
    rw [hline]
    exact List.mem_append_right _ List.mem_cons_self
  obtain ⟨before, after, moved, hchars, hstart, hstop, htokens, hedited⟩ :=
    hlexes.exists_replaced hline (standsIn_of_mem_lexemes hl).isWritten
      (Token.isWritten_atom.2 hname)
  obtain rfl : line = String.ofList before ++ stem ++ String.ofList after := by
    rw [← String.toList_inj, hchars, String.toList_append, String.toList_append,
      String.toList_ofList, String.toList_ofList, List.append_assoc]
  refine ⟨String.ofList before ++ name ++ String.ofList after, moved, ?_, ?_, htokens⟩
  · have hbefore : start = (String.ofList before).utf8ByteSize := by
      rw [String.utf8ByteSize_ofList, ← hstart, Nat.zero_add]
    have hpart : stop = (String.ofList before ++ stem).utf8ByteSize := by
      rw [String.utf8ByteSize_append, ← hbefore, hstop]
    rw [hbefore, hpart, Text.replaceBytes_append]
  · refine (isLexing_iff.1 (isLexing_iff_lexesFrom.2 ?_)).symm
    rwa [String.toList_append, String.toList_append, String.toList_ofList, String.toList_ofList,
      List.append_assoc]

/-! ### Names that are offered -/

/-- The names of operations can be written as atoms. -/
theorem Builtin.isAtom_of_mem_names : ∀ name ∈ Builtin.names, Text.IsAtom name := by
  decide

namespace Session.FromPrograms

variable {session : Session}

/-- A name that is offered can be written in source text. -/
theorem isAtom_of_mem_complete (h : session.FromPrograms) {s : ScopeId} {line name : String}
    {position : Nat} (hname : name ∈ (session.store.complete s line position).names) :
    Text.IsAtom name := by
  obtain ⟨hlive, start, stem, hl⟩ := Store.exists_of_mem_complete hname
  rw [Store.complete_of_mem_lexemes hlive hl] at hname
  obtain ⟨⟨t, -, hbound⟩ | hbuiltin, -⟩ := Store.mem_namesFrom_iff.1 hname
  · exact h.isAtom_of_isBound hbound
  · exact Builtin.isAtom_of_mem_names name hbuiltin

end Session.FromPrograms

/-- A name that is offered is offered again once it has been accepted. -/
theorem Store.mem_complete_edited {st : Store} {s : ScopeId} {line edited stem name : String}
    {start position : Nat} (hlive : st.isLive s = true)
    (hline : ⟨.atom stem, start, position⟩ ∈ lexemes line)
    (hedited : ⟨.atom name, start, start + name.utf8ByteSize⟩ ∈ lexemes edited)
    (hname : name ∈ (st.complete s line position).names) :
    name ∈ (st.complete s edited (start + name.utf8ByteSize)).names := by
  rw [complete_of_mem_lexemes hlive hline] at hname
  rw [complete_of_mem_lexemes hlive hedited]
  obtain ⟨hseen, -⟩ := mem_namesFrom_iff.1 hname
  exact mem_namesFrom_iff.2 ⟨hseen, "", String.append_empty.symm⟩

/-- **Accepting a completion changes just that name.** Let nothing have been done in a session but
to run programs, with whatever success. All names that its scopes bind are not empty, and no
character of them is blank or a parenthesis. If a name is offered at some byte of a line, in
whatever scope, then an atom of the line ends there. When the bytes of this atom are replaced by the
name, the line has the same tokens as before with the name in place of the atom, and right after the
name it is offered again. -/
theorem accepting_changes_only_the_name {session : Session} (h : session.FromPrograms) :
    (∀ s name, session.store.isBound s name = true → name ≠ "" ∧
      ∀ c ∈ name.toList, Text.isBlank c = false ∧ c ≠ '(' ∧ c ≠ ')') ∧
    ∀ s line position start names name,
      session.store.complete s line position = ⟨start, names⟩ →
      name ∈ names → ∃ front stem back edited,
        lexemes line = front ++ ⟨.atom stem, start, position⟩ :: back ∧
        edited.toByteArray = Text.replaceBytes line start position name ∧
        tokens edited = front.map Lexeme.token ++ .atom name :: back.map Lexeme.token ∧
        name ∈ (session.store.complete s edited (start + name.utf8ByteSize)).names := by
  refine ⟨fun s name hbound => h.isAtom_of_isBound hbound, ?_⟩
  intro s line position start names name hcomplete hmem
  have hname : name ∈ (session.store.complete s line position).names := by rwa [hcomplete]
  obtain ⟨hlive, first, stem, hl⟩ := Store.exists_of_mem_complete hname
  obtain rfl : first = start := by
    rw [Store.complete_of_mem_lexemes hlive hl] at hcomplete
    exact congrArg Completion.start hcomplete
  obtain ⟨front, back, hline⟩ := List.append_of_mem hl
  obtain ⟨edited, moved, hbytes, hedited, htokens⟩ :=
    exists_edited hline (h.isAtom_of_mem_complete hname)
  refine ⟨front, stem, back, edited, hline, hbytes, ?_, ?_⟩
  · rw [tokens, hedited, List.map_append, List.map_cons, htokens]
  · refine Store.mem_complete_edited hlive hl ?_ hname
    rw [hedited]
    exact List.mem_append_right _ List.mem_cons_self

/-- A program defines a name; it is offered for the beginning of an application, and once more when
it has been accepted. -/
theorem accepting_completion_of_defined_name :
    ∃ session : Session, session.FromPrograms ∧ session.store.isBound 0 "foo" = true ∧
      Text.IsAtom "foo" ∧ "foo" ∈ (session.store.complete 0 "(fo)" 3).names ∧
      "foo" ∈ (session.store.complete 0 "(foo)" 4).names := by
  let session : Session := (run 10 "(define foo 1)" 0).after (Eval.newRoot.after {})
  have hprograms : session.FromPrograms := .tail (.single (.root {})) (.run _ 10 _ 0)
  have hbound : session.store.isBound 0 "foo" = true := by decide +kernel
  have hlive : session.store.isLive 0 = true := by decide +kernel
  have hself : (0 : ScopeId) ∈ session.store.chain 0 := by
    rw [Store.chain]
    exact List.mem_cons_self
  have hline : ⟨.atom "fo", 1, 3⟩ ∈ lexemes "(fo)" := by decide
  have hcomplete := Store.complete_of_mem_lexemes hlive hline
  have hoffered : "foo" ∈ session.store.namesFrom 0 "fo" :=
    Store.mem_namesFrom_iff.2 ⟨.inl ⟨0, hself, hbound⟩, "o", rfl⟩
  obtain ⟨hnames, haccept⟩ := accepting_changes_only_the_name hprograms
  obtain ⟨_, _, _, edited, -, hbytes, -, hagain⟩ :=
    haccept 0 "(fo)" 3 1 _ "foo" hcomplete hoffered
  obtain rfl : edited = "(foo)" := String.toByteArray_inj.1 (hbytes.trans (by decide +kernel))
  refine ⟨session, hprograms, hbound, hnames 0 "foo" hbound, ?_, hagain⟩
  rw [hcomplete]
  exact hoffered

end AtomLisp
