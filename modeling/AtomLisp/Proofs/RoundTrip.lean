import AtomLisp.Proofs.Reading
import AtomLisp.Proofs.TokensOfText
import AtomLisp.Value.Render
import Mathlib.Tactic.TFAE

/-!
# Writing and reading are inverse

A tree whose atoms can be written in source text is read back from its text (`read_render`). What
has been read from a text is such a tree. A tree with any other atom in it never comes back from its
text. `reading_inverts_rendering` states these together; they rest on the text of a tree being split
into the tokens of the tree (`tokensAfter_render`).
-/

namespace AtomLisp

open Value

/-- The text without its first and its last character. -/
def Text.inner (text : String) : String :=
  String.ofList text.toList.tail.dropLast

/-- Inside its parentheses a list is written as its elements. -/
theorem inner_render_list (items : List Value) :
    Text.inner (render (.list items)) = renderItems items := by
  simp [Text.inner, render, String.toList_append]

/-! ### The tokens of a text that has been written -/

/-- An atom ends before the elements that follow it. -/
theorem breaks_renderTail {rest : List Char} (hrest : Breaks rest) (xs : List Value) :
    Breaks ((renderTail xs).toList ++ rest) := by
  cases xs with
  | nil => simpa [renderTail] using hrest
  | cons x xs =>
    rw [renderTail, String.toList_append]
    exact breaks_blank (by decide) _

theorem tokensAfter_renderTail {xs : List Value}
    (h : ∀ x ∈ xs, ∀ rest, Breaks rest →
      tokensAfter [] ((render x).toList ++ rest) = flatten x ++ tokensAfter [] rest)
    {rest : List Char} (hrest : Breaks rest) :
    tokensAfter [] ((renderTail xs).toList ++ rest) = flattenAll xs ++ tokensAfter [] rest := by
  induction xs with
  | nil => simp [renderTail, flattenAll]
  | cons x xs ih =>
    have hxs := ih fun y hy => h y (List.mem_cons_of_mem _ hy)
    have hspace : (" " : String).toList = [' '] := rfl
    rw [renderTail, String.toList_append, String.toList_append, hspace, List.append_assoc,
      List.append_assoc, List.singleton_append, tokensAfter_blank (by decide),
      h x List.mem_cons_self _ (breaks_renderTail hrest xs), hxs, flattenAll, List.append_assoc]
    rfl

/-- Values one after the other, with one space between each two of them. -/
theorem tokensAfter_renderItems {xs : List Value}
    (h : ∀ x ∈ xs, ∀ rest, Breaks rest →
      tokensAfter [] ((render x).toList ++ rest) = flatten x ++ tokensAfter [] rest)
    {rest : List Char} (hrest : Breaks rest) :
    tokensAfter [] ((renderItems xs).toList ++ rest) = flattenAll xs ++ tokensAfter [] rest := by
  cases xs with
  | nil => simp [renderItems, flattenAll]
  | cons x xs =>
    have hxs := tokensAfter_renderTail (fun y hy => h y (List.mem_cons_of_mem _ hy)) hrest
    rw [renderItems, String.toList_append, List.append_assoc,
      h x List.mem_cons_self _ (breaks_renderTail hrest xs), hxs, flattenAll, List.append_assoc]

/-- The text of a tree is split into the tokens of the tree, if an atom would end where the rest of
the text begins. -/
theorem tokensAfter_render {x : Value} (h : TreeOf Text.IsAtom x) {rest : List Char}
    (hrest : Breaks rest) :
    tokensAfter [] ((render x).toList ++ rest) = flatten x ++ tokensAfter [] rest := by
  induction h generalizing rest with
  | atom htext =>
    rw [render, flatten, List.singleton_append]
    exact tokensAfter_append_of_isAtom htext hrest
  | @list items _ ih =>
    have hopen : Token.ofChar? '(' = some .lparen := rfl
    have hclose : Token.ofChar? ')' = some .rparen := rfl
    have hitems := tokensAfter_renderItems (fun x hx rest hrest => ih x hx hrest)
      (breaks_paren hclose rest)
    have htext : (render (.list items)).toList ++ rest =
        '(' :: ((renderItems items).toList ++ ')' :: rest) := by
      simp [render, String.toList_append]
    rw [htext, tokensAfter_paren hopen, hitems, tokensAfter_paren hclose, flatten]
    simp [wordTokens]

/-! ### Reading what has been written -/

/-- The text of several trees is split into their tokens. -/
theorem tokens_renderItems {xs : List Value} (h : ∀ x ∈ xs, TreeOf Text.IsAtom x) :
    tokens (renderItems xs) = flattenAll xs := by
  have htokens := tokensAfter_renderItems (fun x hx _ hrest => tokensAfter_render (h x hx) hrest)
    breaks_nil
  rwa [List.append_nil, tokensAfter_nil, wordTokens, List.append_nil,
    ← tokens_eq_tokensAfter] at htokens

/-- Trees written with one space between each two of them are read as these trees. -/
theorem read_renderItems {xs : List Value} (h : ∀ x ∈ xs, TreeOf Text.IsAtom x) :
    read (renderItems xs) = xs := by
  rw [read, tokens_renderItems h, parse_flattenAll h]

/-- A tree is read back from its text. -/
theorem read_render {x : Value} (h : TreeOf Text.IsAtom x) : read (render x) = [x] := by
  have hsingle : ∀ y ∈ [x], TreeOf Text.IsAtom y := fun y hy => List.mem_singleton.1 hy ▸ h
  have hread := read_renderItems hsingle
  rwa [renderItems, renderTail, String.append_empty] at hread

/-- What is read from a text are trees of atoms that can be written in source text. -/
theorem treeOf_of_mem_read (source : String) : ∀ x ∈ read source, TreeOf Text.IsAtom x :=
  treeOf_of_mem_parse fun _ => isAtom_of_mem_tokens

/-! ### Equality of trees -/

theorem eq_of_sameAll {xs ys : List Value} (h : ∀ x ∈ xs, ∀ y, same x y = true → x = y)
    (hsame : sameAll xs ys = true) : xs = ys := by
  induction xs generalizing ys with
  | nil =>
    cases ys with
    | nil => rfl
    | cons y ys => cases hsame
  | cons x xs ih =>
    cases ys with
    | nil => cases hsame
    | cons y ys =>
      rw [sameAll, Bool.and_eq_true] at hsame
      rw [h x List.mem_cons_self y hsame.1,
        ih (fun z hz => h z (List.mem_cons_of_mem _ hz)) hsame.2]

/-- A tree is equal to no other value than itself. -/
theorem eq_of_same {P : String → Prop} {x y : Value} (hx : TreeOf P x)
    (hsame : same x y = true) : x = y := by
  induction hx generalizing y with
  | atom _ =>
    cases y with
    | atom text => exact congrArg Value.atom (by simpa [same] using hsame)
    | _ => simp [same] at hsame
  | list _ ih =>
    cases y with
    | list items =>
      rw [same] at hsame
      exact congrArg Value.list (eq_of_sameAll (fun x hx _ => ih x hx) hsame)
    | _ => simp [same] at hsame

theorem sameAll_self {xs : List Value} (h : ∀ x ∈ xs, same x x = true) :
    sameAll xs xs = true := by
  induction xs with
  | nil => rfl
  | cons x xs ih =>
    rw [sameAll, h x List.mem_cons_self, ih fun y hy => h y (List.mem_cons_of_mem _ hy)]
    rfl

/-- Every value is equal to itself. -/
theorem same_self (x : Value) : same x x = true := by
  induction x with
  | atom text => simp [same]
  | builtin op => simp [same]
  | closure head body _ => simp [same]
  | list items ih => exact sameAll_self ih

/-- **Writing and reading are inverse.** A tree of atoms that are not empty and free of blanks and
parentheses is read back from its text. What has been read from any text is such a tree, and comes
back from its text without the outer parentheses. For tokens with atoms of any texts, the trees read
from them come back, in every detail or as equal ones, just when all their atoms can be written. -/
theorem reading_inverts_rendering :
    (∀ x, TreeOf Text.IsAtom x → read (render x) = [x]) ∧
    (∀ source, (∀ x ∈ read source, TreeOf Text.IsAtom x) ∧
      read (Text.inner (render (.list (read source)))) = read source) ∧
    ∀ ts, [∀ x ∈ parse ts, TreeOf Text.IsAtom x,
      read (Text.inner (render (.list (parse ts)))) = parse ts,
      (Value.list (read (Text.inner (render (.list (parse ts))))) == Value.list (parse ts)) = true
      ].TFAE := by
  refine ⟨fun x hx => read_render hx,
    fun source => ⟨treeOf_of_mem_read source, ?_⟩, fun ts => ?_⟩
  · rw [inner_render_list, read_renderItems (treeOf_of_mem_read source)]
  · tfae_have 1 → 2 := fun h => by rw [inner_render_list, read_renderItems h]
    tfae_have 2 → 3 := fun h => by
      rw [h]
      exact same_self _
    -- what comes back has been read from a text, so all its atoms can be written
    tfae_have 3 → 1 := fun h => by
      have htree := treeOf_of_mem_read (Text.inner (render (.list (parse ts))))
      have heq := eq_of_same (.list htree) h
      rwa [Value.list.inj heq] at htree
    tfae_finish

end AtomLisp
