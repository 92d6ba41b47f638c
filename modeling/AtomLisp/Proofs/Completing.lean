import AtomLisp.Completion
import AtomLisp.Proofs.Lexing
import AtomLisp.Proofs.Shadowing

/-!
# What completion offers

The name in front of the cursor is the atom that ends there. Its start is where the atom starts, and
what it may become are the names seen from the scope that begin with it, in the order of their
bytes. Where no atom ends there is nothing to offer.

`Store.complete?` is the completion with the name cut out of the token by bytes, which would fail if
a character were cut. `completion_is_exact` shows that it never does, and says which names are
offered; that they are found is because no two lexemes end at the same place
(`filter_stop_lexemes`).
-/

namespace AtomLisp

/-- The first `n` bytes of a text, if it has as many and they are whole characters. -/
def Text.firstBytes? (text : String) (n : Nat) : Option String :=
  if n ≤ text.utf8ByteSize then String.fromUTF8? (text.toByteArray.extract 0 n) else none

/-- The completion, with the part of the token in front of the cursor counted in bytes. It fails
where this part is more than the token or ends inside a character. -/
def Store.complete? (st : Store) (s : ScopeId) (line : String) (position : Nat) :
    Option Completion :=
  if st.isLive s then
    match (lexemes line).find? fun l => l.start ≤ position && l.stop = position with
    | some { token := .atom text, start, .. } =>
      (Text.firstBytes? text (position - start)).map fun stem =>
        { start, names := st.namesFrom s stem }
    | _ => some {}
  else some {}

/-! ### Cutting texts -/

theorem Text.firstBytes?_utf8ByteSize (text : String) :
    firstBytes? text text.utf8ByteSize = some text := by
  have hall : text.toByteArray.extract 0 text.utf8ByteSize = text.toByteArray := by
    rw [← String.size_toByteArray, ByteArray.extract_zero_size]
  rw [firstBytes?, if_pos (Nat.le_refl _), hall, String.fromUTF8?, dif_pos text.isValidUTF8]
  rfl

/-! ### The token at the cursor -/

variable {line stem name : String} {position start : Nat} {l : Lexeme}

theorem standsIn_of_mem_lexemes (hl : l ∈ lexemes line) : l.StandsIn line :=
  (isLexing_iff.2 rfl).standsIn l hl

/-- Lexemes end one after the other. -/
theorem pairwise_stop_lexemes (line : String) :
    (lexemes line).Pairwise fun l m => l.stop < m.stop := by
  have hlexing : IsLexing line 0 (lexemes line) := isLexing_iff.2 rfl
  refine hlexing.ordered.imp_of_mem fun _ hm hle => ?_
  exact Nat.lt_of_le_of_lt hle (hlexing.standsIn _ hm).nonempty

/-- A lexeme is the only one that ends where it does. -/
theorem filter_stop_lexemes (hl : l ∈ lexemes line) :
    (lexemes line).filter (fun m => m.stop = l.stop) = [l] := by
  have hstops := pairwise_stop_lexemes line
  obtain ⟨front, back, hsplit⟩ := List.append_of_mem hl
  rw [hsplit] at hstops ⊢
  obtain ⟨-, hback, hfront⟩ := List.pairwise_append.1 hstops
  have hbefore : ∀ m ∈ front, m.stop < l.stop := fun m hm => hfront m hm l List.mem_cons_self
  have hafter : ∀ m ∈ back, l.stop < m.stop := (List.pairwise_cons.1 hback).1
  rw [List.filter_append, List.filter_cons, if_pos (decide_eq_true rfl)]
  rw [List.filter_eq_nil_iff.2 fun m hm => ?_, List.filter_eq_nil_iff.2 fun m hm => ?_]
  · rfl
  · have hlt := hafter m hm
    simp only [decide_eq_true_eq]
    omega
  · have hlt := hbefore m hm
    simp only [decide_eq_true_eq]
    omega

/-- The search for the token at the cursor finds the one that ends there. -/
theorem find?_lexemes_eq_some_iff :
    ((lexemes line).find? fun m => m.start ≤ position && m.stop = position) = some l ↔
      l ∈ lexemes line ∧ l.stop = position := by
  constructor
  · intro h
    have hat := List.find?_some h
    simp only [Bool.and_eq_true, decide_eq_true_eq] at hat
    exact ⟨List.mem_of_find?_eq_some h, hat.2⟩
  · rintro ⟨hl, rfl⟩
    have hat : (decide (l.start ≤ l.stop) && decide (l.stop = l.stop)) = true := by
      have hlt := (standsIn_of_mem_lexemes hl).nonempty
      rw [decide_eq_true hlt.le, decide_eq_true rfl, Bool.and_self]
    cases hfind : (lexemes line).find? fun m => m.start ≤ l.stop && m.stop = l.stop with
    | none => exact absurd hat (List.find?_eq_none.1 hfind l hl)
    | some m =>
      have hstop := List.find?_some hfind
      simp only [Bool.and_eq_true, decide_eq_true_eq] at hstop
      -- both end there
      have hmem : m ∈ (lexemes line).filter (fun m => m.stop = l.stop) :=
        List.mem_filter.2 ⟨List.mem_of_find?_eq_some hfind, decide_eq_true hstop.2⟩
      rw [filter_stop_lexemes hl] at hmem
      rw [List.mem_singleton.1 hmem]

/-- The atom that ends at a place is the one lexeme that does. -/
theorem atomEndingAt?_eq_some_iff :
    atomEndingAt? line position = some (start, stem) ↔
      ⟨.atom stem, start, position⟩ ∈ lexemes line := by
  unfold atomEndingAt?
  constructor
  · intro h
    split at h
    · next text start' stop hfind =>
      obtain ⟨rfl, rfl⟩ := Prod.mk.inj (Option.some.inj h)
      obtain ⟨hl, rfl⟩ := find?_lexemes_eq_some_iff.1 hfind
      exact hl
    · cases h
  · intro h
    rw [find?_lexemes_eq_some_iff.2 ⟨h, rfl⟩]

theorem atomEndingAt?_eq_none
    (h : ∀ start stem, ⟨.atom stem, start, position⟩ ∉ lexemes line) :
    atomEndingAt? line position = none := by
  refine Option.eq_none_iff_forall_ne_some.2 fun ⟨start, stem⟩ hat => ?_
  exact h start stem (atomEndingAt?_eq_some_iff.1 hat)

/-- The part in front of the cursor is the whole token. -/
theorem firstBytes?_of_mem_lexemes (h : ⟨.atom stem, start, position⟩ ∈ lexemes line) :
    Text.firstBytes? stem (position - start) = some stem := by
  obtain ⟨-, -, -, -, hstop, -⟩ := (standsIn_of_mem_lexemes h).exists_cut
  have hsize : position - start = stem.utf8ByteSize :=
    Nat.sub_eq_of_eq_add' (show position = start + stem.utf8ByteSize from hstop.symm)
  rw [hsize, Text.firstBytes?_utf8ByteSize]

/-! ### The names offered -/

/-- Names in order, each kept once, are strictly in order. -/
theorem pairwise_lt_eraseDups {names : List String} (h : names.Pairwise (· ≤ ·)) :
    names.eraseDups.Pairwise (· < ·) := by
  induction hlength : names.length using Nat.strongRecOn generalizing names with
  | _ n ih =>
    subst hlength
    cases names with
    | nil => exact .nil
    | cons name names =>
      obtain ⟨hle, hrest⟩ := List.pairwise_cons.1 h
      have hlength := List.length_filter_le (fun key => !key == name) names
      rw [List.eraseDups_cons]
      refine List.pairwise_cons.2 ⟨fun key hkey => ?_, ?_⟩
      · obtain ⟨hmem, hne⟩ := List.mem_filter.1 (List.mem_eraseDups.1 hkey)
        exact lt_of_le_of_ne (hle key hmem) fun heq => by simp [heq] at hne
      · exact ih _ (Nat.lt_succ_of_le hlength) (hrest.filter _) rfl

namespace Store

variable {st : Store} {s : ScopeId}

/-- A name can be looked up if a scope of the chain binds it, or if it is an operation's. -/
theorem mem_keys_iff :
    name ∈ st.keys s ↔ (∃ t ∈ st.chain s, st.isBound t name = true) ∨
      name ∈ Builtin.names := by
  rw [keys, List.mem_append, List.mem_flatMap]
  simp only [mem_scopeKeys_iff]

/-- The names offered are those that are seen from the scope and begin with the stem. -/
theorem mem_namesFrom_iff :
    name ∈ st.namesFrom s stem ↔
      ((∃ t ∈ st.chain s, st.isBound t name = true) ∨ name ∈ Builtin.names) ∧
        ∃ rest, name = stem ++ rest := by
  have hstem : stem.toList.isPrefixOf name.toList = true ↔ ∃ rest, name = stem ++ rest := by
    rw [List.isPrefixOf_iff_prefix]
    constructor
    · rintro ⟨rest, hrest⟩
      refine ⟨String.ofList rest, String.toList_inj.1 ?_⟩
      rw [String.toList_append, String.toList_ofList, hrest]
    · rintro ⟨rest, rfl⟩
      exact ⟨rest.toList, String.toList_append.symm⟩
  rw [namesFrom, List.mem_eraseDups, List.mem_mergeSort, List.mem_filter, mem_keys_iff, hstem]

/-- The names offered are in the order of their bytes, each once. -/
theorem pairwise_bytes_namesFrom (st : Store) (s : ScopeId) (stem : String) :
    (st.namesFrom s stem).Pairwise fun a b => Text.bytes a < Text.bytes b := by
  have hsorted : ((st.keys s).filter fun key => stem.toList.isPrefixOf key.toList).mergeSort
      (fun a b => decide (a ≤ b)) |>.Pairwise (· ≤ ·) := by
    refine (List.pairwise_mergeSort (fun a b c => ?_) (fun a b => ?_) _).imp of_decide_eq_true
    · simp only [decide_eq_true_eq]
      exact le_trans
    · simp only [Bool.or_eq_true, decide_eq_true_eq]
      exact le_total a b
  exact (pairwise_lt_eraseDups hsorted).imp Text.lt_iff_bytes_lt.1

/-- At the end of an atom, the names are offered that begin with it. -/
theorem complete_of_mem_lexemes (hlive : st.isLive s = true)
    (h : ⟨.atom stem, start, position⟩ ∈ lexemes line) :
    st.complete s line position = ⟨start, st.namesFrom s stem⟩ := by
  rw [complete, if_pos hlive, atomEndingAt?_eq_some_iff.2 h]

/-- At any other place nothing is offered. -/
theorem complete_of_notMem_lexemes
    (h : ∀ start stem, ⟨.atom stem, start, position⟩ ∉ lexemes line) :
    st.complete s line position = ⟨0, []⟩ := by
  rw [complete, atomEndingAt?_eq_none h, ite_self]

/-- Names are offered in a live scope and where an atom ends, and nowhere else. -/
theorem exists_of_mem_complete (h : name ∈ (st.complete s line position).names) :
    st.isLive s = true ∧ ∃ start stem, ⟨.atom stem, start, position⟩ ∈ lexemes line := by
  constructor
  · by_contra hlive
    rw [complete, if_neg hlive] at h
    cases h
  · by_contra hat
    rw [complete_of_notMem_lexemes fun start stem hl => hat ⟨start, stem, hl⟩] at h
    cases h

/-- To cut the name out of the token never fails. -/
theorem complete?_eq (st : Store) (s : ScopeId) (line : String) (position : Nat) :
    st.complete? s line position = some (st.complete s line position) := by
  unfold complete? complete atomEndingAt?
  by_cases hlive : st.isLive s = true
  · rw [if_pos hlive, if_pos hlive]
    cases hfind : (lexemes line).find? fun l => l.start ≤ position && l.stop = position with
    | none => rfl
    | some l =>
      obtain ⟨token, start, stop⟩ := l
      obtain ⟨hl, rfl⟩ := find?_lexemes_eq_some_iff.1 hfind
      cases token with
      | lparen => rfl
      | rparen => rfl
      | atom text =>
        show (Text.firstBytes? text (stop - start)).map _ = _
        rw [firstBytes?_of_mem_lexemes hl, Option.map_some]
  · rw [if_neg hlive, if_neg hlive]

end Store

/-- **Completion is sound and complete.** In a live scope, with the cursor at any byte of a line,
the name to be completed is cut out of its token without fail. If an atom ends at the cursor, it is
the only token that does; the completion starts at its first byte, and offers exactly those names
that are bound in a scope of the chain or are builtin operations, and begin with the atom; each is
offered once, in the order of the bytes. Everywhere else there is nothing to offer. The chain is the
scope and all those around it. -/
theorem completion_is_exact {st : Store} {s : ScopeId} (hlive : st.isLive s = true) (line : String)
    (position : Nat) :
    st.complete? s line position = some (st.complete s line position) ∧
    (∀ start stem, ⟨.atom stem, start, position⟩ ∈ lexemes line →
      (lexemes line).filter (fun l => l.stop = position) = [⟨.atom stem, start, position⟩] ∧
      line.toByteArray.extract start position = stem.toByteArray ∧
      (st.complete s line position).start = start ∧
      (∀ name, name ∈ (st.complete s line position).names ↔
        ((∃ t ∈ st.chain s, st.isBound t name = true) ∨ name ∈ Builtin.names) ∧
          ∃ rest, name = stem ++ rest) ∧
      (st.complete s line position).names.Pairwise fun a b => Text.bytes a < Text.bytes b) ∧
    ((∀ start stem, ⟨.atom stem, start, position⟩ ∉ lexemes line) →
      st.complete s line position = ⟨0, []⟩) ∧
    ((∀ t parent, st.parent? t = some parent → parent < t) →
      ∀ t, t ∈ st.chain s ↔ ∃ way, st.Way s way t) := by
  refine ⟨st.complete?_eq s line position, fun start stem h => ?_,
    Store.complete_of_notMem_lexemes, fun hparent t => ⟨fun ht => ?_, ?_⟩⟩
  · rw [Store.complete_of_mem_lexemes hlive h]
    exact ⟨filter_stop_lexemes h, (standsIn_of_mem_lexemes h).bytes, rfl,
      fun name => Store.mem_namesFrom_iff, st.pairwise_bytes_namesFrom s stem⟩
  · obtain ⟨way, rest, hchain⟩ := List.append_of_mem ht
    exact ⟨way, Store.way_of_chain hparent hchain⟩
  · rintro ⟨way, hway⟩
    obtain ⟨rest, hchain⟩ := hway.exists_chain hparent
    rw [hchain]
    exact List.mem_append_right way List.mem_cons_self

/-- Next to an operation is offered a name that the scope binds and that begins in the same way, and
after a blank there is nothing to offer. -/
theorem completion_of_defined_name :
    ∃ st : Store, st.isLive 0 = true ∧ (st.complete 0 "(disp" 5).start = 1 ∧
      "display" ∈ (st.complete 0 "(disp" 5).names ∧
      "display-all" ∈ (st.complete 0 "(disp" 5).names ∧
      st.complete 0 "(foo " 5 = ⟨0, []⟩ := by
  let st : Store := (Store.addScope {} none).define 0 "display-all" (.list [])
  have hlive : st.isLive 0 = true := rfl
  have hself : (0 : ScopeId) ∈ st.chain 0 := by
    rw [Store.chain]
    exact List.mem_cons_self
  obtain ⟨-, hatom, -⟩ := completion_is_exact hlive "(disp" 5
  obtain ⟨-, -, hstart, hnames, -⟩ := hatom 1 "disp" (by decide)
  obtain ⟨-, -, hnothing, -⟩ := completion_is_exact hlive "(foo " 5
  refine ⟨st, hlive, hstart, (hnames _).2 ⟨.inr (by decide), "lay", rfl⟩,
    (hnames _).2 ⟨.inl ⟨0, hself, rfl⟩, "lay-all", rfl⟩, hnothing fun start stem h => ?_⟩
  have hlexemes : lexemes "(foo " = [⟨.lparen, 0, 1⟩, ⟨.atom "foo", 1, 4⟩] := rfl
  simp [hlexemes] at h

end AtomLisp
