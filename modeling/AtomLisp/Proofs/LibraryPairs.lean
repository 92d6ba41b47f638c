import AtomLisp.Proofs.LibraryDefinitions
import AtomLisp.Proofs.QuietResults
import AtomLisp.Proofs.Reachable
import AtomLisp.Proofs.UnmentionedNames

/-!
# Pairs and truth values of the library

A pair of the library is a closure over a scope that holds its halves, and it answers two messages.
Whatever else has been defined since the library was loaded, pairs work as long as their scopes, the
procedures on them and a few names are left alone (`Library.Intact`). The same goes for the
procedures on truth values.

What the procedures come to is followed through their bodies: `Library.gives_isTrue`,
`Library.gives_not` and `Library.gives_isFalse` for truth values, `Library.gives_reply` for what a
pair does with a message, `Library.isPairScope_after_cons` for making one. The parts of the law are
`Library.WorksAsPair` and `Library.TakesForTrue`; `library_pairs_hold_any_values` states it in every
state after the library has been loaded.
-/

namespace AtomLisp

open Store Eval

/-- Truth values are taken for what they are. -/
theorem Value.truthiness_ofBool (b : Bool) : (ofBool b).truthiness = .ok b := by
  cases b <;> rfl

/-- A value is written in the same way under any name. -/
theorem Value.render_named (key : String) (v : Value) : (v.named key).render = v.render := by
  cases v <;> rfl

/-- Call the procedure that a name stands for in scope `s`. -/
def callIn (depth : Nat) (s : ScopeId) (name : String) (args : List Value) : Eval Value := do
  apply depth (← Eval.lookup s name) args

namespace Library

/-- A root has kept what the library, which was loaded in it earlier, defines under some names, and
defines nothing under some others. -/
structure Intact (loaded : Store) (root : ScopeId) (kept free : List String) (st : Store) :
    Prop where
  parent?_root : st.parent? root = none
  lookup_eq (name : String) (hname : name ∈ kept) : st.lookup root name = loaded.lookup root name
  isBound_eq (name : String) (hname : name ∈ free) : st.isBound root name = false

/-- Pairs work in the root as they did when the library was loaded. -/
abbrev KeepsPairs (loaded : Store) (root : ScopeId) : Store → Prop :=
  Intact loaded root ["cons", "car", "cdr", "cadr"] ["eq?", "'car", "'cdr"]

/-- Truth values work in the root as they did when the library was loaded. -/
abbrev KeepsTruth (loaded : Store) (root : ScopeId) : Store → Prop :=
  Intact loaded root ["true?", "not", "false?"] ["eq?", "#t", "#f"]

/-- A procedure with the single parameter `x`, as it is defined in a root. -/
def procedure (root : ScopeId) (id : Nat) (name : String) (expr : Value) : Value :=
  .closure { name := some name, params := ["x"], scope := root, id } [expr]

/-- The procedure that makes pairs, as it is defined in a root. -/
def consProcedure (root : ScopeId) (id : Nat) : Value :=
  .closure { name := some "cons", params := ["a", "b"], scope := root, id } [consBody]

/-- A pair, under some name or none. -/
def pair (name : Option String) (scope : ScopeId) (id : Nat) : Value :=
  .closure { name, params := ["cmd"], scope, id } [answerMessage]

/-- The scope in which a pair keeps its halves `a` and `b`. -/
structure IsPairScope (root : ScopeId) (a b : Value) (scope : ScopeId) (st : Store) : Prop where
  parent?_eq : st.parent? scope = some root
  root_lt : root < scope
  isLive_eq : st.isLive scope = true
  binding?_left : st.binding? scope "a" = some (.hold scope (a.named "a"))
  binding?_right : st.binding? scope "b" = some (.hold scope (b.named "b"))
  binding?_eq_none (name : String) (ha : name ≠ "a") (hb : name ≠ "b") :
    st.binding? scope name = none

/-- The names by which a pair knows its messages stand for what they stand for unbound. -/
structure KnowsMessages (root : ScopeId) (st : Store) : Prop where
  isEq : st.Finds root "eq?" (.builtin .isEq)
  car : st.Finds root "'car" (.atom "'car")
  cdr : st.Finds root "'cdr" (.atom "'cdr")

/-- The names of the truth values stand for these. -/
structure KnowsTruth (root : ScopeId) (st : Store) : Prop where
  isEq : st.Finds root "eq?" (.builtin .isEq)
  true : st.Finds root "#t" (.atom "#t")
  false : st.Finds root "#f" (.atom "#f")

/-- The report of a message that a pair does not answer. -/
def refusal : Value :=
  .list [.atom "error", .atom "no-such-method:", .atom "cmd", .atom "--", .atom "CONS"]

/-- The words of this report, apart from the message. -/
def refusalWords : List String :=
  ["error", "no-such-method:", "--", "CONS"]

/-- What the pair of `a` and `b` does with the message `m`. -/
def reply (a b m : Value) : Except Stop Value :=
  if m == .atom "'car" then .ok (a.named "a")
  else if m == .atom "'cdr" then .ok (b.named "b")
  else .error (.error
    { fault := .user ("no-such-method:" ++ m.render ++ "--CONS"), context := [refusal] })

/-- In this session the value `p` works as the pair of `a` and `b`: its halves are got from it, and
a message that is not one of its own is refused, if the root leaves the words of the refusal
alone. -/
structure WorksAsPair (depth : Nat) (root : ScopeId) (a b p : Value) (session : Session) :
    Prop where
  car : ∃ u, (callIn depth root "car" [p]).EndsQuietly session (.ok u) ∧ (u == a) = true
  cdr : ∃ u, (callIn depth root "cdr" [p]).EndsQuietly session (.ok u) ∧ (u == b) = true
  refusal (hfree : ∀ name ∈ refusalWords, session.store.isBound root name = false) (m : Value)
    (hcar : m ≠ .atom "'car") (hcdr : m ≠ .atom "'cdr") :
    ∃ e, (apply depth p [m]).EndsQuietly session (.error (.error e)) ∧
      e.fault = .user ("no-such-method:" ++ m.render ++ "--CONS")

/-- In this session the procedures on truth values take `x` for true or not, as `b` says. -/
structure TakesForTrue (depth : Nat) (root : ScopeId) (x : Value) (b : Bool) (session : Session) :
    Prop where
  isTrue : (callIn depth root "true?" [x]).EndsQuietly session (.ok (.ofBool b))
  not : (callIn depth root "not" [x]).EndsQuietly session (.ok (.ofBool !b))
  isFalse : (callIn depth root "false?" [x]).EndsQuietly session (.ok (.ofBool !b))

variable {st st' : Store} {root scope s : ScopeId} {a b v : Value} {id : Nat}

/-- Messages stay known while no scope is touched. -/
theorem KnowsMessages.mono (h : KnowsMessages root st) (huntouched : Untouched st st') :
    KnowsMessages root st' :=
  ⟨h.isEq.mono huntouched, h.car.mono huntouched, h.cdr.mono huntouched⟩

theorem KnowsTruth.mono (h : KnowsTruth root st) (huntouched : Untouched st st') :
    KnowsTruth root st' :=
  ⟨h.isEq.mono huntouched, h.true.mono huntouched, h.false.mono huntouched⟩

/-- Two names are compared by what they stand for. -/
theorem gives_isEq (heq : st.Finds s "eq?" (.builtin .isEq)) {key key' : String} {u v : Value}
    (hu : st.Finds s key u) (hv : st.Finds s key' v) (depth : Nat) :
    (eval (depth + 2) (.list [.atom "eq?", .atom key, .atom key']) s).Gives st
      (.ok (.ofBool (u == v))) :=
  .call rfl heq (.cons hu (.cons hv .nil)) (.isEq u v)

/-! ### Truth values -/

section TruthValues

variable (htruth : KnowsTruth root st) (x : Value) (depth : Nat)
include htruth

/-- Only the atom `#t` is true. -/
theorem gives_isTrue (id : Nat) :
    (apply (depth + 2) (procedure root id "true?" isTrueBody) [x]).Gives st
      (.ok (.ofBool (x == .atom "#t"))) := by
  refine .unary rfl fun st₁ s₁ _ hx hother => ?_
  have hnamed : (x.named "x" == .atom "#t") = (x == .atom "#t") := Value.same_named "x" x _
  rw [← hnamed]
  exact gives_isEq (hother _ _ (by decide) htruth.isEq) hx
    (hother _ _ (by decide) htruth.true) depth

variable (hisTrue : st.Finds root "true?" (procedure root id "true?" isTrueBody))
include hisTrue

/-- Everything else is turned into `#t`. -/
theorem gives_not (id' : Nat) :
    (apply (depth + 4) (procedure root id' "not" notBody) [x]).Gives st
      (.ok (.ofBool !(x == .atom "#t"))) := by
  refine .unary rfl fun st₁ s₁ hst₁ hx hother => .form rfl ?_
  have hnamed : (x.named "x" == .atom "#t") = (x == .atom "#t") := Value.same_named "x" x _
  have hpredicate : (eval (depth + 3) (.list [.atom "true?", .atom "x"]) s₁).Gives st₁
      (.ok (.ofBool (x == .atom "#t"))) := by
    rw [← hnamed]
    exact .call rfl (hother _ _ (by decide) hisTrue) (.cons hx .nil)
      (gives_isTrue (htruth.mono hst₁) (x.named "x") depth id)
  refine .branch _ hpredicate (Value.truthiness_ofBool _) ?_
  cases x == .atom "#t" with
  | true => exact .atom (hother _ _ (by decide) htruth.false) _
  | false => exact .atom (hother _ _ (by decide) htruth.true) _

theorem gives_isFalse {id' : Nat} (hnot : st.Finds root "not" (procedure root id' "not" notBody))
    (id'' : Nat) :
    (apply (depth + 5) (procedure root id'' "false?" isFalseBody) [x]).Gives st
      (.ok (.ofBool !(x == .atom "#t"))) := by
  refine .unary rfl fun st₁ s₁ hst₁ hx hother => .form rfl ?_
  have hnamed : (x.named "x" == .atom "#t") = (x == .atom "#t") := Value.same_named "x" x _
  have hoperand : (eval (depth + 4) (.list [.atom "true?", .atom "x"]) s₁).Gives st₁
      (.ok (.ofBool (x == .atom "#t"))) := by
    rw [← hnamed]
    exact .call rfl (hother _ _ (by decide) hisTrue) (.cons hx .nil)
      (gives_isTrue (htruth.mono hst₁) (x.named "x") (depth + 1) id)
  have hresult := gives_not (htruth.mono hst₁) (.ofBool (x == .atom "#t")) depth
    (hisTrue.mono hst₁) id'
  have hbool : ∀ b, (Value.ofBool b == .atom "#t") = b := by decide
  rw [hbool] at hresult
  exact .application (.atom (hother _ _ (by decide) hnot) _) (.cons hoperand .nil) hresult

end TruthValues

/-! ### The scope of a pair -/

namespace IsPairScope

theorem lt_nextScope (h : IsPairScope root a b scope st) : scope < st.nextScope :=
  lt_of_parent? h.parent?_eq

/-- The halves are where they were as long as this very scope has not been changed. -/
theorem of_scopes_eq (h : IsPairScope root a b scope st)
    (heq : st'.scopes[scope]? = st.scopes[scope]?) : IsPairScope root a b scope st' := by
  have hbinding : ∀ name, st'.binding? scope name = st.binding? scope name := by
    intro name
    rw [binding?, heq, binding?]
  refine ⟨?_, h.root_lt, ?_, ?_, ?_, fun name ha hb => ?_⟩
  · rw [parent?, heq, ← parent?, h.parent?_eq]
  · rw [isLive, heq, ← isLive, h.isLive_eq]
  · rw [hbinding, h.binding?_left]
  · rw [hbinding, h.binding?_right]
  · rw [hbinding, h.binding?_eq_none name ha hb]

/-- A pair keeps its halves while no scope is touched. -/
theorem mono (h : IsPairScope root a b scope st) (huntouched : Untouched st st') :
    IsPairScope root a b scope st' :=
  h.of_scopes_eq (huntouched.scopes_eq scope h.lt_nextScope)

variable (h : IsPairScope root a b scope st)
include h

theorem finds_left : st.Finds scope "a" (a.named "a") :=
  .here (by rw [answer?, h.binding?_left, Option.bind_some, resolve_hold st h.isLive_eq])

theorem finds_right : st.Finds scope "b" (b.named "b") :=
  .here (by rw [answer?, h.binding?_right, Option.bind_some, resolve_hold st h.isLive_eq])

/-- All other names stand for what they stand for in the root. -/
theorem finds_of_root {key : String} (ha : key ≠ "a") (hb : key ≠ "b")
    (hfinds : st.Finds root key v) : st.Finds scope key v :=
  .up h.parent?_eq h.root_lt (h.binding?_eq_none key ha hb) hfinds

end IsPairScope

/-! ### Asking a pair -/

/-- What a pair says when it refuses a message. -/
theorem renderAll_refusal (m : Value) :
    Value.renderAll [.atom "no-such-method:", m.named "cmd", .atom "--", .atom "CONS"] =
      "no-such-method:" ++ m.render ++ "--CONS" := by
  simp [Value.renderAll, Value.render, Value.render_named, String.append_assoc]

/-- The words that a pair refuses a message with stand for what they stand for unbound. -/
structure KnowsRefusal (root : ScopeId) (st : Store) : Prop where
  error : st.Finds root "error" (.builtin .raise)
  word (text : String) (h : text ∈ ["no-such-method:", "--", "CONS"]) :
    st.Finds root text (.atom text)

section Messages

variable (hscope : IsPairScope root a b scope st) (hknows : KnowsMessages root st)
include hscope hknows

/-- A pair has a reply to every message. The words of its refusal matter only if it refuses. -/
theorem gives_reply (name : Option String) (id : Nat) (m : Value) (depth : Nat)
    (hrefuses : (m == .atom "'car") = false → (m == .atom "'cdr") = false →
      KnowsRefusal root st) :
    (apply (depth + 4) (pair name scope id) [m]).Gives st (reply a b m) := by
  refine .unary rfl fun st₁ s₁ hst₁ hm hother => .form rfl ?_
  have houtside : ∀ key v, key ≠ "cmd" ∧ key ≠ "a" ∧ key ≠ "b" →
      st.Finds root key v →
      st₁.Finds s₁ key v :=
    fun key v hne hfinds => hother key v hne.1 (hscope.finds_of_root hne.2.1 hne.2.2 hfinds)
  have heq := houtside _ _ (by decide) hknows.isEq
  have hcar := houtside _ _ (by decide) hknows.car
  have hcdr := houtside _ _ (by decide) hknows.cdr
  have hnamed : ∀ word, (m.named "cmd" == .atom word) = (m == .atom word) :=
    fun word => Value.same_named "cmd" m _
  refine .branch _ (gives_isEq heq hm hcar (depth + 1)) (Value.truthiness_ofBool _) ?_
  rw [hnamed, reply]
  cases hfirst : m == .atom "'car" with
  | true => exact .atom (hother _ _ (by decide) hscope.finds_left) _
  | false =>
    refine .form rfl (.branch _ (gives_isEq heq hm hcdr depth) (Value.truthiness_ofBool _) ?_)
    rw [hnamed]
    cases hsecond : m == .atom "'cdr" with
    | true => exact .atom (hother _ _ (by decide) hscope.finds_right) _
    | false =>
      obtain ⟨herror, hwords⟩ := hrefuses hfirst hsecond
      have hmethod := houtside _ _ (by decide) (hwords "no-such-method:" (by decide))
      have hdashes := houtside _ _ (by decide) (hwords "--" (by decide))
      have hcons := houtside _ _ (by decide) (hwords "CONS" (by decide))
      rw [← renderAll_refusal m]
      exact .call rfl (houtside _ _ (by decide) herror)
        (.cons hmethod (.cons hm (.cons hdashes (.cons hcons .nil)))) (.raiseUser _)

/-- A procedure that sends a message to its argument gives what a pair replies. -/
theorem gives_selector {word : String} {half : Value} (hreply : reply a b (.atom word) = .ok half)
    (hword : st.Finds root word (.atom word)) (hne : word ≠ "x") (selector : String)
    (name : Option String) (id id' : Nat) (depth : Nat) :
    (apply (depth + 5) (procedure root id' selector (.list [.atom "x", .atom word]))
      [pair name scope id]).Gives st (.ok half) := by
  refine .unary rfl fun st₁ s₁ hst₁ hx hother => ?_
  have hanswer : (apply (depth + 4) ((pair name scope id).named "x") [.atom word]).Gives st₁
      (.ok half) := by
    rw [← hreply]
    refine gives_reply (hscope.mono hst₁) (hknows.mono hst₁) _ id (.atom word) depth
      fun hfirst hsecond => ?_
    rw [reply, hfirst, hsecond] at hreply
    cases hreply
  exact .call rfl hx (.cons (hother _ _ hne hword) .nil) hanswer

/-- The first half of a pair, asked for by its message. -/
theorem gives_car (name : Option String) (id id' : Nat) (depth : Nat) :
    (apply (depth + 5) (procedure root id' "car" carBody) [pair name scope id]).Gives st
      (.ok (a.named "a")) :=
  gives_selector hscope hknows rfl hknows.car (by decide) "car" name id id' depth

theorem gives_cdr (name : Option String) (id id' : Nat) (depth : Nat) :
    (apply (depth + 5) (procedure root id' "cdr" cdrBody) [pair name scope id]).Gives st
      (.ok (b.named "b")) :=
  gives_selector hscope hknows rfl hknows.cdr (by decide) "cdr" name id id' depth

end Messages

/-- If the second half of a pair is a pair itself, its first half is what `cadr` gives. -/
theorem gives_cadr {c : Value} {inner outer : ScopeId} {name name' : Option String}
    {id id' : Nat} (hinner : IsPairScope root b c inner st)
    (houter : IsPairScope root a (pair name inner id) outer st) (hknows : KnowsMessages root st)
    {idCar idCdr : Nat} (hcar : st.Finds root "car" (procedure root idCar "car" carBody))
    (hcdr : st.Finds root "cdr" (procedure root idCdr "cdr" cdrBody)) (idCadr depth : Nat) :
    (apply (depth + 7) (procedure root idCadr "cadr" cadrBody) [pair name' outer id']).Gives st
      (.ok (b.named "a")) := by
  refine .unary rfl fun st₁ s₁ hst₁ hx hother => .form rfl ?_
  have hoperand : (eval (depth + 6) (.list [.atom "cdr", .atom "x"]) s₁).Gives st₁
      (.ok ((pair name inner id).named "b")) :=
    .call rfl (hother _ _ (by decide) hcdr) (.cons hx .nil)
      (gives_cdr (houter.mono hst₁) (hknows.mono hst₁) _ id' idCdr depth)
  exact .application (.atom (hother _ _ (by decide) hcar) _) (.cons hoperand .nil)
    (gives_car (hinner.mono hst₁) (hknows.mono hst₁) _ id idCar (depth + 1))

/-! ### Making a pair -/

section Cons

variable (root id a b) (depth : Nat) (session : Session)

/-- Making a pair yields a closure over a new scope, and writes nothing. -/
theorem cons_endsQuietly : (apply (depth + 1) (consProcedure root id) [a, b]).EndsQuietly session
    (.ok (pair none session.store.nextScope session.store.closures)) :=
  ⟨rfl, rfl, apply_untouched (depth + 1) (consProcedure root id) [a, b] session⟩

/-- The new scope holds the two halves. -/
theorem isPairScope_after_cons (hroot : root < session.store.nextScope) :
    IsPairScope root a b session.store.nextScope
      ((apply (depth + 1) (consProcedure root id) [a, b]).after session).store := by
  have hopened : IsPairScope root a b session.store.nextScope
      (session.store.extend root [("a", a), ("b", b)]) := by
    refine ⟨parent?_extend_self _, hroot, isLive_extend_self root _, ?_, ?_,
      fun name ha hb => ?_⟩
    · exact binding?_extend root [] [("b", b)] a (by simp)
    · exact binding?_extend root [("a", a)] [] b List.not_mem_nil
    · exact binding?_extend_of_notMem _ (by simp [ha, hb])
  exact hopened.mono (.countClosure _)

end Cons

/-! ### What the root has kept -/

/-- The root of the store knows the procedures of the library. -/
structure Defines (root : ScopeId) (st : Store) : Prop where
  isTrue : ∃ id, st.lookup root "true?" = procedure root id "true?" isTrueBody
  isFalse : ∃ id, st.lookup root "false?" = procedure root id "false?" isFalseBody
  not : ∃ id, st.lookup root "not" = procedure root id "not" notBody
  cons : ∃ id, st.lookup root "cons" = consProcedure root id
  car : ∃ id, st.lookup root "car" = procedure root id "car" carBody
  cdr : ∃ id, st.lookup root "cdr" = procedure root id "cdr" cdrBody
  cadr : ∃ id, st.lookup root "cadr" = procedure root id "cadr" cadrBody

/-- The root in which the library has been loaded binds what the library defines. -/
theorem defines_load {session : Session} (hroot : root < session.store.nextScope)
    (hlive : session.store.isLive root = true) (depth : Nat) :
    Defines root ((load (depth + 2) root).after session).store where
  isTrue := lookup_load hroot hlive (List.mem_of_getElem? (i := 1) rfl) rfl
  isFalse := lookup_load hroot hlive (List.mem_of_getElem? (i := 2) rfl) rfl
  not := lookup_load hroot hlive (List.mem_of_getElem? (i := 3) rfl) rfl
  cons := lookup_load hroot hlive (List.mem_of_getElem? (i := 4) rfl) rfl
  car := lookup_load hroot hlive (List.mem_of_getElem? (i := 5) rfl) rfl
  cdr := lookup_load hroot hlive (List.mem_of_getElem? (i := 6) rfl) rfl
  cadr := lookup_load hroot hlive (List.mem_of_getElem? (i := 7) rfl) rfl

namespace Intact

variable {loaded : Store} {kept free : List String} {name : String}

/-- A closure that the root has kept is found there. -/
theorem finds_kept (h : Intact loaded root kept free st) (hname : name ∈ kept)
    {head : ClosureHead} {body : List Value}
    (hloaded : loaded.lookup root name = .closure head body) :
    st.Finds root name (.closure head body) := by
  have hlookup : st.lookup root name = .closure head body := (h.lookup_eq name hname).trans hloaded
  cases hanswer : st.answer? root name with
  | some u =>
    obtain rfl := (lookup_of_answer hanswer).symm.trans hlookup
    exact .here hanswer
  | none =>
    rw [lookup_of_root h.parent?_root, hanswer, Option.getD_none, unbound] at hlookup
    split at hlookup <;> cases hlookup

/-- A name that has been left free has no binding. -/
theorem binding?_eq_none (h : Intact loaded root kept free st) (hname : name ∈ free) :
    st.binding? root name = none := by
  have hbound := h.isBound_eq name hname
  cases hb : st.binding? root name with
  | none => rfl
  | some b =>
    rw [isBound, hb] at hbound
    cases hbound

/-- A name that the root leaves alone stands for what it stands for unbound. -/
theorem finds_free (h : Intact loaded root kept free st) (hroot : root < st.nextScope)
    (hname : name ∈ free) : st.Finds root name (unbound name) :=
  .root hroot h.parent?_root (h.binding?_eq_none hname)

/-- What is intact stays so while no scope is touched. -/
theorem mono (h : Intact loaded root kept free st) (hroot : root < st.nextScope)
    (hkept : ∀ name ∈ kept, ∃ head body, loaded.lookup root name = .closure head body)
    (huntouched : Untouched st st') : Intact loaded root kept free st' := by
  refine ⟨?_, fun name hname => ?_, fun name hname => ?_⟩
  · rw [huntouched.parent?_eq hroot, h.parent?_root]
  · obtain ⟨head, body, hclosure⟩ := hkept name hname
    rw [((h.finds_kept hname hclosure).mono huntouched).lookup_eq, hclosure]
  · rw [isBound, huntouched.binding?_eq hroot]
    exact h.isBound_eq name hname

end Intact

section KeepsPairs

variable {loaded : Store} (hdefines : Defines root loaded) (h : KeepsPairs loaded root st)
include hdefines h

theorem KeepsPairs.exists_finds_cons : ∃ id, st.Finds root "cons" (consProcedure root id) :=
  hdefines.cons.imp fun _ hid => h.finds_kept (by decide) hid

theorem KeepsPairs.exists_finds_car :
    ∃ id, st.Finds root "car" (procedure root id "car" carBody) :=
  hdefines.car.imp fun _ hid => h.finds_kept (by decide) hid

theorem KeepsPairs.exists_finds_cdr :
    ∃ id, st.Finds root "cdr" (procedure root id "cdr" cdrBody) :=
  hdefines.cdr.imp fun _ hid => h.finds_kept (by decide) hid

theorem KeepsPairs.exists_finds_cadr :
    ∃ id, st.Finds root "cadr" (procedure root id "cadr" cadrBody) :=
  hdefines.cadr.imp fun _ hid => h.finds_kept (by decide) hid

theorem KeepsPairs.lt_nextScope : root < st.nextScope := by
  obtain ⟨id, hfinds⟩ := h.exists_finds_cons hdefines
  exact hfinds.lt_nextScope

/-- As long as pairs are kept, their messages are known. -/
theorem KeepsPairs.knowsMessages : KnowsMessages root st := by
  have hroot := h.lt_nextScope hdefines
  have heq : unbound "eq?" = .builtin .isEq := unbound_of_name_eq rfl
  have hcar : unbound "'car" = .atom "'car" := unbound_of_notMem_names (by decide)
  have hcdr : unbound "'cdr" = .atom "'cdr" := unbound_of_notMem_names (by decide)
  exact ⟨heq ▸ h.finds_free hroot (by decide), hcar ▸ h.finds_free hroot (by decide),
    hcdr ▸ h.finds_free hroot (by decide)⟩

/-- If the root leaves the words of the refusal alone, these are known too. -/
theorem KeepsPairs.knowsRefusal
    (hfree : ∀ name ∈ refusalWords, st.isBound root name = false) :
    KnowsRefusal root st := by
  have hwords : Intact loaded root [] refusalWords st :=
    ⟨h.parent?_root, fun _ hname => absurd hname List.not_mem_nil, hfree⟩
  have hroot := h.lt_nextScope hdefines
  have herror : unbound "error" = .builtin .raise := unbound_of_name_eq rfl
  have hunbound : ∀ word ∈ ["no-such-method:", "--", "CONS"], word ∉ Builtin.names := by
    decide
  refine ⟨herror ▸ hwords.finds_free hroot (by decide), fun word hword => ?_⟩
  rw [← unbound_of_notMem_names (hunbound word hword)]
  exact hwords.finds_free hroot (List.mem_cons_of_mem _ hword)

/-- A computation that changes no scope leaves the root as it was kept. -/
theorem KeepsPairs.of_untouched (huntouched : Untouched st st') : KeepsPairs loaded root st' := by
  refine h.mono (h.lt_nextScope hdefines) (fun name hname => ?_) huntouched
  simp only [List.mem_cons, List.not_mem_nil, or_false] at hname
  obtain rfl | rfl | rfl | rfl := hname
  · exact hdefines.cons.elim fun _ hid => ⟨_, _, hid⟩
  · exact hdefines.car.elim fun _ hid => ⟨_, _, hid⟩
  · exact hdefines.cdr.elim fun _ hid => ⟨_, _, hid⟩
  · exact hdefines.cadr.elim fun _ hid => ⟨_, _, hid⟩

end KeepsPairs

section KeepsTruth

variable {loaded : Store} (hdefines : Defines root loaded) (h : KeepsTruth loaded root st)
include hdefines h

theorem KeepsTruth.exists_finds_isTrue :
    ∃ id, st.Finds root "true?" (procedure root id "true?" isTrueBody) :=
  hdefines.isTrue.imp fun _ hid => h.finds_kept (by decide) hid

theorem KeepsTruth.exists_finds_not :
    ∃ id, st.Finds root "not" (procedure root id "not" notBody) :=
  hdefines.not.imp fun _ hid => h.finds_kept (by decide) hid

theorem KeepsTruth.exists_finds_isFalse :
    ∃ id, st.Finds root "false?" (procedure root id "false?" isFalseBody) :=
  hdefines.isFalse.imp fun _ hid => h.finds_kept (by decide) hid

/-- As long as the procedures on truth values are kept, so are these. -/
theorem KeepsTruth.knowsTruth : KnowsTruth root st := by
  obtain ⟨id, hfinds⟩ := h.exists_finds_isTrue hdefines
  have hroot := hfinds.lt_nextScope
  have heq : unbound "eq?" = .builtin .isEq := unbound_of_name_eq rfl
  have htrue : unbound "#t" = .atom "#t" := unbound_of_notMem_names (by decide)
  have hfalse : unbound "#f" = .atom "#f" := unbound_of_notMem_names (by decide)
  exact ⟨heq ▸ h.finds_free hroot (by decide), htrue ▸ h.finds_free hroot (by decide),
    hfalse ▸ h.finds_free hroot (by decide)⟩

end KeepsTruth

/-! ### Calls -/

/-- To call a name is to apply what it stands for. -/
theorem callIn_gives {depth : Nat} {name : String} {args : List Value} {f : Value}
    {result : Except Stop Value} (hfinds : st.Finds s name f)
    (h : (apply depth f args).Gives st result) : (callIn depth s name args).Gives st result :=
  (Gives.lookup hfinds).bind h

/-- To call a name changes nothing before what it stands for is applied. -/
theorem callIn_apply {depth : Nat} {name : String} {f : Value} {session : Session}
    (hfinds : session.store.Finds s name f) (args : List Value) :
    callIn depth s name args session = apply depth f args session := by
  show apply depth (session.store.lookup s name) args session = _
  rw [hfinds.lookup_eq]

section Calls

variable {loaded : Store} (hdefines : Defines root loaded) (depth : Nat)
include hdefines

/-- Making a pair in a root that pairs work in. -/
theorem callIn_cons (a b : Value) {session : Session}
    (h : KeepsPairs loaded root session.store) :
    (callIn (depth + 1) root "cons" [a, b]).EndsQuietly session
      (.ok (pair none session.store.nextScope session.store.closures)) ∧
    IsPairScope root a b session.store.nextScope
      ((callIn (depth + 1) root "cons" [a, b]).after session).store ∧
    KeepsPairs loaded root ((callIn (depth + 1) root "cons" [a, b]).after session).store := by
  obtain ⟨id, hfinds⟩ := h.exists_finds_cons hdefines
  have hcall : callIn (depth + 1) root "cons" [a, b] session =
      apply (depth + 1) (consProcedure root id) [a, b] session := callIn_apply hfinds [a, b]
  have hquiet : (callIn (depth + 1) root "cons" [a, b]).EndsQuietly session
      (.ok (pair none session.store.nextScope session.store.closures)) := by
    obtain ⟨houtcome, houtput, huntouched⟩ := cons_endsQuietly root a b id depth session
    rw [outcome, ← hcall, ← outcome] at houtcome
    rw [after, ← hcall, ← after] at houtput huntouched
    exact ⟨houtcome, houtput, huntouched⟩
  have hscope := isPairScope_after_cons root a b id depth session (h.lt_nextScope hdefines)
  rw [after, ← hcall, ← after] at hscope
  exact ⟨hquiet, hscope, h.of_untouched hdefines hquiet.untouched⟩

variable (h : KeepsPairs loaded root st)
include h

theorem callIn_car (hscope : IsPairScope root a b scope st) (name : Option String) (id : Nat) :
    (callIn (depth + 5) root "car" [pair name scope id]).Gives st (.ok (a.named "a")) := by
  obtain ⟨idCar, hcar⟩ := h.exists_finds_car hdefines
  exact callIn_gives hcar (gives_car hscope (h.knowsMessages hdefines) name id idCar depth)

theorem callIn_cdr (hscope : IsPairScope root a b scope st) (name : Option String) (id : Nat) :
    (callIn (depth + 5) root "cdr" [pair name scope id]).Gives st (.ok (b.named "b")) := by
  obtain ⟨idCdr, hcdr⟩ := h.exists_finds_cdr hdefines
  exact callIn_gives hcdr (gives_cdr hscope (h.knowsMessages hdefines) name id idCdr depth)

/-- The first half of the second half, by calling `cadr`. -/
theorem callIn_cadr {c : Value} {inner outer : ScopeId} {name name' : Option String}
    {id id' : Nat} (hinner : IsPairScope root b c inner st)
    (houter : IsPairScope root a (pair name inner id) outer st) :
    (callIn (depth + 7) root "cadr" [pair name' outer id']).Gives st (.ok (b.named "a")) := by
  obtain ⟨idCar, hcar⟩ := h.exists_finds_car hdefines
  obtain ⟨idCdr, hcdr⟩ := h.exists_finds_cdr hdefines
  obtain ⟨idCadr, hcadr⟩ := h.exists_finds_cadr hdefines
  exact callIn_gives hcadr
    (gives_cadr hinner houter (h.knowsMessages hdefines) hcar hcdr idCadr depth)

/-- A message that a pair does not know is refused. -/
theorem apply_refused (hscope : IsPairScope root a b scope st)
    (hfree : ∀ name ∈ refusalWords, st.isBound root name = false)
    (name : Option String) (id : Nat) {m : Value} (hcar : m ≠ .atom "'car")
    (hcdr : m ≠ .atom "'cdr") :
    (apply (depth + 4) (pair name scope id) [m]).Gives st (.error (.error
      { fault := .user ("no-such-method:" ++ m.render ++ "--CONS"), context := [refusal] })) := by
  have hne : ∀ word, m ≠ .atom word → (m == .atom word) = false :=
    fun word hm => Bool.eq_false_iff.2 fun heq => hm (Value.beq_atom_iff.1 heq)
  have hreply := gives_reply hscope (h.knowsMessages hdefines) name id m depth
    fun _ _ => h.knowsRefusal hdefines hfree
  rw [reply, hne _ hcar, hne _ hcdr] at hreply
  exact hreply

end Calls

section Truth

variable {loaded : Store} (hdefines : Defines root loaded) (h : KeepsTruth loaded root st)
  (x : Value) (depth : Nat)
include hdefines h

theorem callIn_isTrue :
    (callIn (depth + 2) root "true?" [x]).Gives st (.ok (.ofBool (x == .atom "#t"))) := by
  obtain ⟨id, hfinds⟩ := h.exists_finds_isTrue hdefines
  exact callIn_gives hfinds (gives_isTrue (h.knowsTruth hdefines) x depth id)

theorem callIn_not :
    (callIn (depth + 4) root "not" [x]).Gives st (.ok (.ofBool !(x == .atom "#t"))) := by
  obtain ⟨id, hisTrue⟩ := h.exists_finds_isTrue hdefines
  obtain ⟨id', hnot⟩ := h.exists_finds_not hdefines
  exact callIn_gives hnot (gives_not (h.knowsTruth hdefines) x depth hisTrue id')

theorem callIn_isFalse :
    (callIn (depth + 5) root "false?" [x]).Gives st (.ok (.ofBool !(x == .atom "#t"))) := by
  obtain ⟨id, hisTrue⟩ := h.exists_finds_isTrue hdefines
  obtain ⟨id', hnot⟩ := h.exists_finds_not hdefines
  obtain ⟨id'', hisFalse⟩ := h.exists_finds_isFalse hdefines
  exact callIn_gives hisFalse (gives_isFalse (h.knowsTruth hdefines) x depth hisTrue hnot id'')

end Truth

section Sessions

variable {loaded : Store} (hdefines : Defines root loaded) {session : Session} (depth : Nat)
include hdefines

/-- A pair works while its scope is what it was. -/
theorem worksAsPair (h : KeepsPairs loaded root session.store)
    (hscope : IsPairScope root a b scope session.store) (id : Nat) :
    WorksAsPair (depth + 7) root a b (pair none scope id) session where
  car := ⟨_, callIn_car hdefines (depth + 2) h hscope none id session (.refl _),
    Value.same_named_self "a" a⟩
  cdr := ⟨_, callIn_cdr hdefines (depth + 2) h hscope none id session (.refl _),
    Value.same_named_self "b" b⟩
  refusal hfree _ hcar hcdr :=
    ⟨_, apply_refused hdefines (depth + 3) h hscope hfree none id hcar hcdr session (.refl _),
      rfl⟩

/-- Truth values are told apart while the procedures on them are what they were. -/
theorem takesForTrue (h : KeepsTruth loaded root session.store) {x : Value} {b : Bool}
    (hb : b = true ↔ x = .atom "#t") : TakesForTrue (depth + 7) root x b session := by
  have htest : (x == .atom "#t") = b := by
    rw [Bool.eq_iff_iff, Value.beq_atom_iff, hb]
  subst htest
  exact ⟨callIn_isTrue hdefines h x (depth + 5) session (.refl _),
    callIn_not hdefines h x (depth + 3) session (.refl _),
    callIn_isFalse hdefines h x (depth + 2) session (.refl _)⟩

end Sessions

end Library

open Library

/-- **Pairs of the library hold any values.** Let the library be loaded in a root. In every later
state in which the root has kept the procedures on pairs and leaves the names of their messages
alone, `cons` makes a closure. From then on, whatever is defined otherwise, this closure works as a
pair as long as its scope is not changed: `car` has a value that is equal to the first half and
`cdr` one that is equal to the second, and a message that is not one of theirs is refused.
Evaluation in any other scope leaves that scope alone. If the second half is such a pair itself,
`cadr` has a value that is equal to its first half. Nothing is printed, and no scope that existed is
changed. In the same way, `true?` tells the atom `#t` from all other values, and `not` and `false?`
do the opposite. -/
theorem library_pairs_hold_any_values {start : Session} {root : ScopeId}
    (hstart : start.Reachable) (hroot : root < start.store.nextScope)
    (hparent : start.store.parent? root = none) (hlive : start.store.isLive root = true)
    (depth₀ depth : Nat) :
    let load := Library.load (depth₀ + 2) root
    let loaded := (load.after start).store
    let cons (x y : Value) := callIn (depth + 7) root "cons" [x, y]
    load.outcome start = .ok () ∧
    (∀ kept free session, Session.Later (load.after start) session →
      (∀ name ∈ kept, session.store.lookup root name = loaded.lookup root name) →
      (∀ name ∈ free, session.store.isBound root name = false) →
      Intact loaded root kept free session.store) ∧
    (∀ session, KeepsPairs loaded root session.store → ∀ a b, ∃ head body,
      let p := Value.closure head body
      let paired := (cons a b).after session
      (cons a b).EndsQuietly session (.ok p) ∧ KeepsPairs loaded root paired.store ∧
      ∀ later, KeepsPairs loaded root later.store →
        later.store.scopes[head.scope]? = paired.store.scopes[head.scope]? →
        WorksAsPair (depth + 7) root a b p later) ∧
    (∀ session, KeepsPairs loaded root session.store → ∀ a b c, ∃ head body head' body',
      let q := Value.closure head body
      let p := Value.closure head' body'
      let inner := (cons b c).after session
      let outer := (cons a q).after inner
      (cons b c).EndsQuietly session (.ok q) ∧ (cons a q).EndsQuietly inner (.ok p) ∧
      ∀ later, KeepsPairs loaded root later.store →
        later.store.scopes[head.scope]? = inner.store.scopes[head.scope]? →
        later.store.scopes[head'.scope]? = outer.store.scopes[head'.scope]? →
        ∃ u, (callIn (depth + 7) root "cadr" [p]).EndsQuietly later (.ok u) ∧
          (u == b) = true) ∧
    ∀ session, KeepsTruth loaded root session.store → ∀ x b, (b = true ↔ x = .atom "#t") →
      TakesForTrue (depth + 7) root x b session := by
  intro load loaded cons
  have hdefines : Defines root loaded := defines_load hroot hlive depth₀
  refine ⟨outcome_load depth₀ root start, ?_, ?_, ?_, ?_⟩
  · intro kept free session hlater hkept hfree
    have hload : Session.Step start (load.after start) := .load (depth₀ + 2) hroot
    obtain ⟨hevolves, hsound⟩ := hload.evolves_sound hstart.sound
    have hevolves' := hevolves.trans (hlater.evolves_sound hsound).1
    exact ⟨(Evolves.parent?_eq hevolves' hroot).trans hparent, hkept, hfree⟩
  · intro session h a b
    obtain ⟨hcons, hscope, hkept⟩ := callIn_cons hdefines (depth + 6) a b h
    exact ⟨_, _, hcons, hkept, fun later hlater hsame =>
      worksAsPair hdefines depth hlater (hscope.of_scopes_eq hsame) session.store.closures⟩
  · intro session h a b c
    obtain ⟨hinner, hinnerScope, hkept⟩ := callIn_cons hdefines (depth + 6) b c h
    obtain ⟨houter, houterScope, -⟩ := callIn_cons hdefines (depth + 6) a _ hkept
    refine ⟨_, _, _, _, hinner, houter, fun later hlater hsame hsame' => ?_⟩
    refine ⟨b.named "a", ?_, Value.same_named_self "a" b⟩
    exact callIn_cadr hdefines depth hlater (hinnerScope.of_scopes_eq hsame)
      (houterScope.of_scopes_eq hsame') later (.refl _)
  · exact fun session h x b hb => takesForTrue hdefines depth h hb

/-- In the first root, right after the library has been loaded, a pair of an atom and a builtin
operation hands out the operation, and refuses a message that it does not know. -/
theorem library_pairs_of_first_root :
    let start : Session := Eval.newRoot.after {}
    let loaded := (Library.load 2 0).after start
    let paired := (callIn 7 0 "cons" [.atom "1", .builtin .quit]).after loaded
    start.Reachable ∧ 0 < start.store.nextScope ∧ start.store.parent? 0 = none ∧
      start.store.isLive 0 = true ∧ KeepsPairs loaded.store 0 loaded.store ∧
      ∃ p, (callIn 7 0 "cons" [.atom "1", .builtin .quit]).EndsQuietly loaded (.ok p) ∧
        (∃ u, (callIn 7 0 "cdr" [p]).EndsQuietly paired (.ok u) ∧
          (u == .builtin .quit) = true) ∧
        ∃ e, (apply 7 p [.atom "'length"]).EndsQuietly paired (.error (.error e)) ∧
          e.fault = .user "no-such-method:'length--CONS" := by
  have hstart : (Eval.newRoot.after {} : Session).Reachable := .single (.root {})
  have hroot : 0 < (Eval.newRoot.after {} : Session).store.nextScope := by decide
  have hparent : (Eval.newRoot.after {} : Session).store.parent? 0 = none := by decide
  have hlive : (Eval.newRoot.after {} : Session).store.isLive 0 = true := by decide
  have hbound (name : String) : ((Library.load 2 0).after (Eval.newRoot.after {})).store.isBound 0
      name = true → name ∈ Library.names := mem_names_of_isBound_load {}
  have hlt : 0 < ((Library.load 2 0).after (Eval.newRoot.after {})).store.nextScope :=
    Nat.lt_of_lt_of_le hroot (load_sameTree 2 0 _).nextScope_le
  have hlaws := library_pairs_hold_any_values hstart hroot hparent hlive 0 0
  simp only [Nat.zero_add] at hlaws
  refine ⟨hstart, hroot, hparent, hlive, ?_⟩
  -- The loaded session becomes a variable, so that nothing below runs the library.
  generalize (Library.load 2 0).after (Eval.newRoot.after {}) = loaded at hbound hlt hlaws ⊢
  obtain ⟨-, hintact, hpairs, -⟩ := hlaws
  have hfree (words : List String) (hwords : ∀ name ∈ words, name ∉ Library.names) :
      ∀ name ∈ words, loaded.store.isBound 0 name = false :=
    fun name hname => Bool.eq_false_iff.2 fun h => hwords name hname (hbound name h)
  have hkept : KeepsPairs loaded.store 0 loaded.store :=
    hintact _ _ loaded .refl (fun _ _ => rfl) (hfree _ (by decide))
  obtain ⟨head, body, hcons, hkept', hanswers⟩ :=
    hpairs loaded hkept (.atom "1") (.builtin .quit)
  obtain ⟨-, hcdr, hrefuses⟩ := hanswers _ hkept' rfl
  refine ⟨hkept, _, hcons, hcdr, hrefuses (fun name hname => ?_) _ (by simp) (by simp)⟩
  rw [isBound, hcons.untouched.binding?_eq hlt]
  exact hfree refusalWords (by decide) name hname

end AtomLisp
