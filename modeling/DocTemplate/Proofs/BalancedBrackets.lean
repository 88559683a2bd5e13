import DocTemplate.Expression.Brackets
import DocTemplate.Text.Measure
import Mathlib.Data.List.Basic

/-!
# Balanced expressions

What the outer form of an expression should be is said here by a grammar: characters that mean
nothing, literals, and balanced texts in brackets, one behind the other. The check reads the text
only once, with a stack of open brackets; it finds no fault exactly when the grammar derives the
text.

A scan says nothing wrong as long as each closing bracket meets its partner. So at any place of a
text without faults, the rest of the text is what closes the brackets that are open there, behind
what is left of a literal.

## Main statements

- `Balanced.foldl_step`: a balanced text leaves a scan as it was
- `demands_of_finish_eq_nil`: what a scan without faults demands of the rest of the text
- `compile_errors_eq_nil_iff`: the compiler accepts exactly the balanced texts
-/

namespace DocTemplate.Brackets

/-! ## The grammar -/

/-- What may stand between the quotes of a literal: characters other than the quote and the
backslash, and pairs of a backslash and any character. -/
inductive LiteralContent : List Char → Prop where
  | nil : LiteralContent []
  | plain {c : Char} {cs : List Char} (hquote : c ≠ '\x27') (hbackslash : c ≠ '\\')
      (hrest : LiteralContent cs) : LiteralContent (c :: cs)
  | escape (c : Char) {cs : List Char} (hrest : LiteralContent cs) : LiteralContent ('\\' :: c :: cs)

/-- The three kinds of brackets, an opening one with its closing one. -/
def pairs : List (Char × Char) := [('(', ')'), ('[', ']'), ('\x7b', '\x7d')]

/-- A character that is neither the quote nor a bracket. -/
def IsOrdinary (c : Char) : Prop := c ≠ '\x27' ∧ ∀ pair ∈ pairs, c ≠ pair.1 ∧ c ≠ pair.2

/-- A text in which every bracket has its partner and every literal ends. -/
inductive Balanced : List Char → Prop where
  | nil : Balanced []
  | ordinary {c : Char} {cs : List Char} (hc : IsOrdinary c) (hrest : Balanced cs) :
      Balanced (c :: cs)
  | literal {content cs : List Char} (hcontent : LiteralContent content) (hrest : Balanced cs) :
      Balanced ('\x27' :: (content ++ '\x27' :: cs))
  | bracketed {o c : Char} {inner cs : List Char} (hpair : (o, c) ∈ pairs)
      (hinner : Balanced inner) (hrest : Balanced cs) : Balanced (o :: (inner ++ c :: cs))

/-! ## Characters -/

theorem isOpening_iff {c : Char} : isOpening c = true ↔ ∃ closing, (c, closing) ∈ pairs := by
  simp [isOpening, pairs, or_assoc, exists_or]

theorem partner?_eq_some_iff {c o : Char} : partner? c = some o ↔ (o, c) ∈ pairs := by
  unfold partner?
  split <;> simp_all [pairs, eq_comm]

theorem closing_unique {o c c' : Char} (h : (o, c) ∈ pairs) (h' : (o, c') ∈ pairs) : c = c' := by
  simp only [pairs, List.mem_cons, Prod.mk.injEq, List.not_mem_nil, or_false] at h h'
  rcases h with ⟨rfl, rfl⟩ | ⟨rfl, rfl⟩ | ⟨rfl, rfl⟩ <;> simpa [eq_comm] using h'

/-- Every character is the quote, an opening bracket, a closing one, or ordinary. -/
theorem char_cases (c : Char) :
    c = '\x27' ∨ (∃ closing, (c, closing) ∈ pairs) ∨ (∃ o, (o, c) ∈ pairs) ∨ IsOrdinary c := by
  by_cases hquote : c = '\x27'
  · exact .inl hquote
  by_cases hopening : ∃ closing, (c, closing) ∈ pairs
  · exact .inr (.inl hopening)
  by_cases hclosing : ∃ o, (o, c) ∈ pairs
  · exact .inr (.inr (.inl hclosing))
  refine .inr (.inr (.inr ⟨hquote, fun pair hpair => ⟨?_, ?_⟩⟩))
  · rintro rfl
    exact hopening ⟨pair.2, hpair⟩
  · rintro rfl
    exact hclosing ⟨pair.1, hpair⟩

namespace Scan

variable {s : Scan} {c o closing : Char}

theorem read_quote (hs : s.mode = .plain) : s.read '\x27' = { s with mode := .literal } := by
  simp [read, hs]

theorem read_opening (hs : s.mode = .plain) (hc : (c, closing) ∈ pairs) :
    s.read c = { s with opened := (c, s.offset) :: s.opened } := by
  have hquote : c ≠ '\x27' := by
    rintro rfl
    simp [pairs] at hc
  simp [read, hs, hquote, isOpening_iff.mpr ⟨closing, hc⟩]

theorem read_closing (hs : s.mode = .plain) (hc : (o, c) ∈ pairs) : s.read c = s.close c o := by
  have hquote : c ≠ '\x27' := by
    rintro rfl
    simp [pairs] at hc
  have hopening : isOpening c = false := by
    rw [Bool.eq_false_iff, ne_eq, isOpening_iff]
    rintro ⟨closing, hopening⟩
    simp only [pairs, List.mem_cons, Prod.mk.injEq, List.not_mem_nil, or_false] at hc hopening
    rcases hc with ⟨rfl, rfl⟩ | ⟨rfl, rfl⟩ | ⟨rfl, rfl⟩ <;> simp at hopening
  simp [read, hs, hquote, hopening, partner?_eq_some_iff.mpr hc]

theorem read_ordinary (hs : s.mode = .plain) (hc : IsOrdinary c) : s.read c = s := by
  have hopening : isOpening c = false := by
    rw [Bool.eq_false_iff, ne_eq, isOpening_iff]
    rintro ⟨closing, hpair⟩
    exact (hc.2 _ hpair).1 rfl
  have hpartner : partner? c = none := by
    rw [Option.eq_none_iff_forall_ne_some]
    intro o ho
    exact (hc.2 _ (partner?_eq_some_iff.mp ho)).2 rfl
  simp [read, hs, hc.1, hopening, hpartner]

end Scan

/-! ## A balanced text leaves the scan as it was -/

namespace Scan

/-- The scan behind a text that opens nothing, closes nothing and has no fault. -/
def skip (s : Scan) (cs : List Char) : Scan := { s with offset := s.offset + Text.byteLength cs }

@[simp]
theorem mode_skip (s : Scan) (cs : List Char) : (s.skip cs).mode = s.mode := rfl

/-- One text behind the other is skipped if each of them is. -/
theorem foldl_append_eq_skip {s : Scan} {front rest : List Char}
    (hfront : front.foldl step s = s.skip front)
    (hrest : rest.foldl step (s.skip front) = (s.skip front).skip rest) :
    (front ++ rest).foldl step s = s.skip (front ++ rest) := by
  rw [List.foldl_append, hfront, hrest]
  simp only [skip, Text.byteLength_append, Nat.add_assoc]

/-- Where a character does nothing, the scan skips it. -/
theorem foldl_singleton_eq_skip {s : Scan} {c : Char} (h : s.read c = s) :
    [c].foldl step s = s.skip [c] := by
  rw [List.foldl_cons, List.foldl_nil, step, h]
  rfl

end Scan

/-- What stands between quotes is read without a trace. -/
theorem LiteralContent.foldl_step {content : List Char} (h : LiteralContent content) {s : Scan}
    (hs : s.mode = .literal) : content.foldl Scan.step s = s.skip content := by
  induction h generalizing s with
  | nil => rfl
  | @plain c cs hquote hbackslash hrest ih =>
    have hread : s.read c = s := by simp [Scan.read, hs, hquote, hbackslash]
    exact Scan.foldl_append_eq_skip (Scan.foldl_singleton_eq_skip hread) (ih hs)
  | @escape c cs hrest ih =>
    -- The backslash and the character behind it lead to the mode `escaped` and back.
    have hpair : ['\\', c].foldl Scan.step s = s.skip ['\\', c] := by
      simp [Scan.step, Scan.read, Scan.skip, hs, Text.byteLength, Nat.add_assoc]
    exact Scan.foldl_append_eq_skip hpair (ih hs)

/-- **A balanced text leaves a scan as it was,** whatever is open around it. -/
theorem Balanced.foldl_step {cs : List Char} (h : Balanced cs) {s : Scan} (hs : s.mode = .plain) :
    cs.foldl Scan.step s = s.skip cs := by
  induction h generalizing s with
  | nil => rfl
  | @ordinary c cs hc hrest ih =>
    have hread := Scan.foldl_singleton_eq_skip (Scan.read_ordinary hs hc)
    exact Scan.foldl_append_eq_skip hread (ih hs)
  | @literal content cs hcontent hrest ih =>
    have hfront : ('\x27' :: (content ++ ['\x27'])).foldl Scan.step s =
        s.skip ('\x27' :: (content ++ ['\x27'])) := by
      have hinside : (s.step '\x27').mode = .literal := by rw [Scan.step, Scan.read_quote hs]
      rw [List.foldl_cons, List.foldl_append, hcontent.foldl_step hinside]
      simp [Scan.step, Scan.read, Scan.skip, hs, Text.byteLength_cons, Text.byteLength_append,
        Text.byteLength_nil, Nat.add_assoc]
    simpa using Scan.foldl_append_eq_skip hfront (ih hs)
  | @bracketed o c inner cs hpair hinner hrest ihinner ih =>
    have hfront : (o :: (inner ++ [c])).foldl Scan.step s = s.skip (o :: (inner ++ [c])) := by
      -- The opening bracket lies on the stack while the inner text is read, and then meets `c`.
      have hopened : s.step o =
          { s with opened := (o, s.offset) :: s.opened, offset := s.offset + o.utf8Size } := by
        rw [Scan.step, Scan.read_opening hs hpair]
      have hinside : (s.step o).mode = .plain := by rw [hopened, hs]
      have hclosed := Scan.read_closing (s := (s.step o).skip inner) hinside hpair
      rw [List.foldl_cons, List.foldl_append, ihinner hinside, List.foldl_cons, List.foldl_nil,
        Scan.step, hclosed, hopened]
      simp [Scan.close, Scan.skip, Text.byteLength_cons, Text.byteLength_append,
        Text.byteLength_nil, Nat.add_assoc]
    simpa using Scan.foldl_append_eq_skip hfront (ih hs)

/-! ## What a scan without faults demands -/

theorem Scan.finish_eq_nil_iff {s : Scan} :
    s.finish = [] ↔ s.faults = [] ∧ s.mode = .plain ∧ s.opened = [] := by
  simp [finish]

theorem Scan.faults_suffix_close (s : Scan) (c p : Char) : s.faults <:+ (s.close c p).faults := by
  unfold close
  split
  · exact List.suffix_cons ..
  · split
    · exact List.suffix_rfl
    · exact List.suffix_cons ..

/-- A fault is never taken back. -/
theorem Scan.faults_suffix_step (s : Scan) (c : Char) : s.faults <:+ (s.step c).faults := by
  show s.faults <:+ (s.read c).faults
  unfold read
  cases s.mode with
  | escaped => exact List.suffix_rfl
  | literal =>
    dsimp only
    split_ifs <;> exact List.suffix_rfl
  | plain =>
    dsimp only
    split_ifs
    · exact List.suffix_rfl
    · exact List.suffix_rfl
    · -- Only a closing bracket can be at fault.
      cases partner? c with
      | none => exact List.suffix_rfl
      | some p => exact s.faults_suffix_close c p

theorem Scan.faults_eq_nil {s : Scan} (cs : List Char) (h : (cs.foldl step s).finish = []) :
    s.faults = [] := by
  induction cs generalizing s with
  | nil => exact (finish_eq_nil_iff.mp h).1
  | cons c cs ih =>
    have hsuffix := s.faults_suffix_step c
    rw [ih h] at hsuffix
    exact List.suffix_nil.mp hsuffix

/-- What closes the open brackets, the innermost first: before each closing bracket, and behind the
last one, stands a balanced text. -/
inductive Completes : List Char → List Char → Prop where
  | done {cs : List Char} (h : Balanced cs) : Completes [] cs
  | close {o c : Char} {os inner rest : List Char} (hpair : (o, c) ∈ pairs)
      (hinner : Balanced inner) (hrest : Completes os rest) :
      Completes (o :: os) (inner ++ c :: rest)

/-- What may stand in front of a balanced text may stand in front of any completion. -/
theorem Completes.prepend {os cs : List Char} (h : Completes os cs) (front : List Char)
    (hfront : ∀ ds, Balanced ds → Balanced (front ++ ds)) : Completes os (front ++ cs) := by
  cases h with
  | done hcs => exact .done (hfront _ hcs)
  | close hpair hinner hrest =>
    rw [← List.append_assoc]
    exact .close hpair (hfront _ hinner) hrest

/-- What completes a bracket and those around it completes those around it, with the bracket in
front. -/
theorem Completes.opening {o c : Char} {os cs : List Char} (hpair : (o, c) ∈ pairs)
    (h : Completes (o :: os) cs) : Completes os (o :: cs) := by
  cases h with
  | @close _ c' _ inner rest hpair' hinner hrest =>
    obtain rfl := closing_unique hpair hpair'
    have hfront := hrest.prepend (o :: (inner ++ [c])) (fun ds hds => by
      simpa using Balanced.bracketed hpair hinner hds)
    simpa using hfront

/-- What the rest of a text must be, for a scan that is in some mode. -/
def Demands (os : List Char) : Mode → List Char → Prop
  | .plain, cs => Completes os cs
  | .literal, cs => ∃ content rest, LiteralContent content ∧ Completes os rest ∧
      cs = content ++ '\x27' :: rest
  | .escaped, cs => ∃ c content rest, LiteralContent content ∧ Completes os rest ∧
      cs = c :: (content ++ '\x27' :: rest)

section Demands

variable {s : Scan} {c : Char} {cs : List Char}

/-- Outside literals, what is demanded behind a character is demanded with it in front. -/
theorem Demands.cons_plain (hmode : s.mode = .plain) (hfaults : (s.step c).faults = [])
    (h : Demands ((s.step c).opened.map Prod.fst) (s.step c).mode cs) :
    Completes (s.opened.map Prod.fst) (c :: cs) := by
  rcases char_cases c with rfl | ⟨closing, hpair⟩ | ⟨o, hpair⟩ | hc
  · -- A literal begins, and what is demanded of the rest says where it ends.
    rw [Scan.step, Scan.read_quote hmode] at h
    obtain ⟨content, rest, hcontent, hrest, rfl⟩ := h
    have hfront := hrest.prepend ('\x27' :: (content ++ ['\x27'])) (fun ds hds => by
      simpa using Balanced.literal hcontent hds)
    simpa using hfront
  · rw [Scan.step, Scan.read_opening hmode hpair] at h
    simp only [hmode] at h
    exact Completes.opening hpair h
  · rw [Scan.step, Scan.read_closing hmode hpair, Scan.close] at h hfaults
    -- The innermost bracket is the partner, or there would be a fault.
    cases hopened : s.opened with
    | nil => simp [hopened] at hfaults
    | cons top outer =>
      have htop : top.1 = o := by
        by_contra hne
        simp [hopened, hne] at hfaults
      simp only [hopened, htop, hmode, if_true] at h
      rw [List.map_cons, htop]
      exact Completes.close hpair .nil h
  · rw [Scan.step, Scan.read_ordinary hmode hc] at h
    simp only [hmode] at h
    exact h.prepend [c] (fun ds hds => .ordinary hc hds)

/-- The same in a literal, where the character may be the quote that ends it. -/
theorem Demands.cons_literal (hmode : s.mode = .literal)
    (h : Demands ((s.step c).opened.map Prod.fst) (s.step c).mode cs) :
    Demands (s.opened.map Prod.fst) .literal (c :: cs) := by
  by_cases hbackslash : c = '\\'
  · subst hbackslash
    have hread : s.read '\\' = { s with mode := .escaped } := by simp [Scan.read, hmode]
    rw [Scan.step, hread] at h
    obtain ⟨d, content, rest, hcontent, hrest, rfl⟩ := h
    exact ⟨'\\' :: d :: content, rest, .escape d hcontent, hrest, rfl⟩
  by_cases hquote : c = '\x27'
  · subst hquote
    have hread : s.read '\x27' = { s with mode := .plain } := by simp [Scan.read, hmode]
    rw [Scan.step, hread] at h
    exact ⟨[], cs, .nil, h, rfl⟩
  · have hread : s.read c = s := by simp [Scan.read, hmode, hbackslash, hquote]
    rw [Scan.step, hread] at h
    simp only [hmode] at h
    obtain ⟨content, rest, hcontent, hrest, rfl⟩ := h
    exact ⟨c :: content, rest, .plain hquote hbackslash hcontent, hrest, rfl⟩

/-- **What a scan without faults demands** is what the rest of its text is. -/
theorem demands_of_finish_eq_nil (h : (cs.foldl Scan.step s).finish = []) :
    Demands (s.opened.map Prod.fst) s.mode cs := by
  induction cs generalizing s with
  | nil =>
    rw [List.foldl_nil, Scan.finish_eq_nil_iff] at h
    obtain ⟨-, hmode, hopened⟩ := h
    rw [hmode, hopened]
    exact .done .nil
  | cons c cs ih =>
    have hnext : Demands ((s.step c).opened.map Prod.fst) (s.step c).mode cs := ih h
    cases hmode : s.mode with
    | plain => exact Demands.cons_plain hmode (Scan.faults_eq_nil cs h) hnext
    | literal => exact Demands.cons_literal hmode hnext
    | escaped =>
      have hread : s.read c = { s with mode := .literal } := by simp [Scan.read, hmode]
      rw [Scan.step, hread] at hnext
      obtain ⟨content, rest, hcontent, hrest, rfl⟩ := hnext
      exact ⟨c, content, rest, hcontent, hrest, rfl⟩

end Demands

/-! ## The check -/

theorem finish_eq_nil_iff_balanced (cs : List Char) :
    (cs.foldl Scan.step {}).finish = [] ↔ Balanced cs := by
  constructor
  · intro h
    have hdemands := demands_of_finish_eq_nil h
    cases hdemands with
    | done hbalanced => exact hbalanced
  · intro h
    rw [h.foldl_step rfl, Scan.finish_eq_nil_iff]
    exact ⟨rfl, rfl, rfl⟩

/-- The scan decides whether a text is balanced. -/
instance : DecidablePred Balanced := fun cs => decidable_of_iff _ (finish_eq_nil_iff_balanced cs)

/-- **The compiler accepts exactly the balanced expressions.** It has nothing to report about a text
if and only if the text is not blank and, without the blanks at its ends, it is balanced. -/
theorem compile_errors_eq_nil_iff (text : String) :
    (compile text).errors = [] ↔
      Text.trim text.toList ≠ [] ∧ Balanced (Text.trim text.toList) := by
  have hmessages : (compile text).errors = (check (Text.trim text.toList)).map Fault.message := rfl
  rw [hmessages, List.map_eq_nil_iff, check]
  cases hsource : Text.trim text.toList with
  | nil => simp
  | cons c cs => simp [← finish_eq_nil_iff_balanced]

/-- Brackets in literals do not count, and a quote behind a backslash ends none. -/
example : Balanced "f('(\\'[', [x])".toList ∧ ¬ Balanced "f('\\')".toList := by decide

end DocTemplate.Brackets
