import DocTemplate.Proofs.BalancedBrackets
import Mathlib.Data.List.Induction
import Mathlib.Data.List.Nodup

/-!
# What becomes of every bracket

Of a text that is not balanced, the check tells what it makes of each bracket. A closing bracket
takes the innermost open one with it: that is silent if the two are of one kind, and a fault if they
are not. A closing bracket with nothing open is a fault, and so is an opening one that the end of the
text leaves open. In this way every bracket outside of literals is accounted for, once.

A scan keeps such an account without writing it down: what has been closed so far shows in its
faults, what has not in its stack. An account is carried on with each character, and at the end of
the text it is what is reported.

## Main statements

- `Scan.mode_foldl_step_iff`: which texts end outside of literals
- `Account.Describes.concat`: an account is carried on with a character
- `Fault.message_injective`: what a report is about can be told from its wording
- `compile_errors_accountFor`: the errors of an expression account for its brackets
-/

namespace DocTemplate.Brackets

theorem opening_unique {o o' c : Char} (h : (o, c) ∈ pairs) (h' : (o', c) ∈ pairs) : o = o' := by
  have hpartner := partner?_eq_some_iff.mpr h
  rw [partner?_eq_some_iff.mpr h'] at hpartner
  exact (Option.some.inj hpartner).symm

/-! ## Where literals end -/

/-- A text in which every literal ends. -/
inductive LiteralsEnd : List Char → Prop where
  | nil : LiteralsEnd []
  | other {c : Char} {cs : List Char} (hc : c ≠ '\x27') (hrest : LiteralsEnd cs) :
      LiteralsEnd (c :: cs)
  | literal {content cs : List Char} (hcontent : LiteralContent content)
      (hrest : LiteralsEnd cs) : LiteralsEnd ('\x27' :: (content ++ '\x27' :: cs))

/-- What the rest of a text must be, for a scan that is in some mode, if all literals are to end. -/
def Mode.Ends : Mode → List Char → Prop
  | .plain, cs => LiteralsEnd cs
  | .literal, cs => ∃ content rest, LiteralContent content ∧ LiteralsEnd rest ∧
      cs = content ++ '\x27' :: rest
  | .escaped, cs => ∃ c content rest, LiteralContent content ∧ LiteralsEnd rest ∧
      cs = c :: (content ++ '\x27' :: rest)

/-- The mode behind a character. -/
def Mode.next (m : Mode) (c : Char) : Mode :=
  match m with
  | .plain => if c = '\x27' then .literal else .plain
  | .literal => if c = '\\' then .escaped else if c = '\x27' then .plain else .literal
  | .escaped => .literal

theorem Scan.mode_close (s : Scan) (c p : Char) : (s.close c p).mode = s.mode := by
  unfold close
  split
  · rfl
  · split <;> rfl

theorem Scan.mode_step (s : Scan) (c : Char) : (s.step c).mode = s.mode.next c := by
  show (s.read c).mode = s.mode.next c
  unfold read Mode.next
  cases hmode : s.mode with
  | escaped => rfl
  | literal => dsimp only; split_ifs <;> simp [hmode]
  | plain =>
    dsimp only
    split_ifs
    · rfl
    · rfl
    · -- A closing bracket does not change the mode, whether it finds its partner or not.
      cases partner? c with
      | none => exact hmode
      | some p => exact (s.mode_close c p).trans hmode

namespace Mode

theorem ends_plain_cons_iff {c : Char} {cs : List Char} :
    plain.Ends (c :: cs) ↔ (plain.next c).Ends cs := by
  by_cases hquote : c = '\x27'
  · subst hquote
    constructor
    · intro h
      cases h with
      | other hc => exact absurd rfl hc
      | @literal content rest hcontent hrest => exact ⟨content, rest, hcontent, hrest, rfl⟩
    · intro h
      obtain ⟨content, rest, hcontent, hrest, rfl⟩ := h
      exact .literal hcontent hrest
  · have hnext : plain.next c = .plain := if_neg hquote
    rw [hnext]
    constructor
    · intro h
      cases h with
      | other _ hrest => exact hrest
      | literal => exact absurd rfl hquote
    · exact .other hquote

theorem ends_literal_cons_iff {c : Char} {cs : List Char} :
    literal.Ends (c :: cs) ↔ (literal.next c).Ends cs := by
  by_cases hbackslash : c = '\\'
  · subst hbackslash
    constructor
    · rintro ⟨content, rest, hcontent, hrest, heq⟩
      cases hcontent with
      | nil => exact absurd (List.cons.inj heq).1 (by decide)
      | plain _ hne => exact absurd (List.cons.inj heq).1.symm hne
      | @escape d content hcontent => exact ⟨d, content, rest, hcontent, hrest, (List.cons.inj heq).2⟩
    · rintro ⟨d, content, rest, hcontent, hrest, rfl⟩
      exact ⟨'\\' :: d :: content, rest, .escape d hcontent, hrest, rfl⟩
  by_cases hquote : c = '\x27'
  · subst hquote
    constructor
    · rintro ⟨content, rest, hcontent, hrest, heq⟩
      cases hcontent with
      | nil => exact (List.cons.inj heq).2 ▸ hrest
      | plain hne => exact absurd (List.cons.inj heq).1.symm hne
      | escape => exact absurd (List.cons.inj heq).1 (by decide)
    · intro h
      exact ⟨[], cs, .nil, h, rfl⟩
  · have hnext : literal.next c = .literal := (if_neg hbackslash).trans (if_neg hquote)
    rw [hnext]
    constructor
    · rintro ⟨content, rest, hcontent, hrest, heq⟩
      cases hcontent with
      | nil => exact absurd (List.cons.inj heq).1 hquote
      | @plain d content _ _ hcontent => exact ⟨content, rest, hcontent, hrest, (List.cons.inj heq).2⟩
      | escape => exact absurd (List.cons.inj heq).1 hbackslash
    · rintro ⟨content, rest, hcontent, hrest, rfl⟩
      exact ⟨c :: content, rest, .plain hquote hbackslash hcontent, hrest, rfl⟩

/-- What a mode asks of a text is what the next one asks of the text behind its first character. -/
theorem ends_cons_iff (m : Mode) (c : Char) (cs : List Char) :
    m.Ends (c :: cs) ↔ (m.next c).Ends cs := by
  cases m with
  | plain => exact ends_plain_cons_iff
  | literal => exact ends_literal_cons_iff
  | escaped =>
    constructor
    · rintro ⟨d, content, rest, hcontent, hrest, heq⟩
      exact ⟨content, rest, hcontent, hrest, (List.cons.inj heq).2⟩
    · rintro ⟨content, rest, hcontent, hrest, rfl⟩
      exact ⟨c, content, rest, hcontent, hrest, rfl⟩

theorem ends_nil_iff (m : Mode) : m.Ends [] ↔ m = .plain := by
  cases m with
  | plain => exact iff_of_true .nil rfl
  | literal => simp [Ends]
  | escaped => simp [Ends]

end Mode

/-- **Where a scan ends outside of literals,** all literals of its text end. -/
theorem Scan.mode_foldl_step_iff (cs : List Char) (s : Scan) :
    (cs.foldl step s).mode = .plain ↔ s.mode.Ends cs := by
  induction cs generalizing s with
  | nil => exact (Mode.ends_nil_iff s.mode).symm
  | cons c cs ih => rw [List.foldl_cons, ih, mode_step, Mode.ends_cons_iff]

/-- The scan of a text from its start. -/
def scan (cs : List Char) : Scan := cs.foldl Scan.step {}

theorem scan_concat (cs : List Char) (c : Char) : scan (cs ++ [c]) = (scan cs).step c := by
  rw [scan, List.foldl_concat, ← scan]

theorem mode_scan_iff (cs : List Char) : (scan cs).mode = .plain ↔ LiteralsEnd cs :=
  Scan.mode_foldl_step_iff cs {}

instance : DecidablePred LiteralsEnd := fun cs => decidable_of_iff _ (mode_scan_iff cs)

theorem offset_scan (cs : List Char) : (scan cs).offset = Text.byteLength cs := by
  suffices h : ∀ s : Scan, (cs.foldl Scan.step s).offset = s.offset + Text.byteLength cs by
    simpa [scan] using h {}
  induction cs with
  | nil => exact fun s => rfl
  | cons c cs ih =>
    intro s
    have hstep : (s.step c).offset = s.offset + c.utf8Size := rfl
    rw [List.foldl_cons, ih, hstep, Text.byteLength_cons, Nat.add_assoc]

/-! ## Brackets and accounts -/

/-- A bracket, with the number of bytes before it. -/
@[ext]
structure Bracket where
  char : Char
  place : Nat
  deriving DecidableEq, Repr

namespace Bracket

def IsOpening (b : Bracket) : Prop := ∃ c, (b.char, c) ∈ pairs

def IsClosing (b : Bracket) : Prop := ∃ o, (o, b.char) ∈ pairs

/-- An opening bracket and a closing one are of one kind. -/
def Matches (o c : Bracket) : Prop := (o.char, c.char) ∈ pairs

instance (o c : Bracket) : Decidable (o.Matches c) := inferInstanceAs (Decidable (_ ∈ _))

/-- The bracket stands in a text, outside of literals. -/
def StandsIn (b : Bracket) (cs : List Char) : Prop :=
  ∃ front rest, cs = front ++ b.char :: rest ∧ LiteralsEnd front ∧
    b.place = Text.byteLength front ∧ (b.IsOpening ∨ b.IsClosing)

/-- A character in front of which all of a text stands, as a bracket. -/
def behind (cs : List Char) (c : Char) : Bracket := ⟨c, Text.byteLength cs⟩

theorem StandsIn.place_lt {b : Bracket} {cs : List Char} (h : b.StandsIn cs) :
    b.place < Text.byteLength cs := by
  obtain ⟨front, rest, rfl, -, hplace, -⟩ := h
  have hsize := b.char.utf8Size_pos
  rw [hplace, Text.byteLength_append, Text.byteLength_cons]
  omega

theorem standsIn_concat_iff {b : Bracket} {cs : List Char} {c : Char} :
    b.StandsIn (cs ++ [c]) ↔
      b.StandsIn cs ∨ b = behind cs c ∧ LiteralsEnd cs ∧ (b.IsOpening ∨ b.IsClosing) := by
  constructor
  · rintro ⟨front, rest, heq, hends, hplace, hbracket⟩
    -- The bracket is the last character, or the text behind it goes on with the last character.
    rcases rest.eq_nil_or_concat' with rfl | ⟨rest, last, rfl⟩
    · obtain ⟨rfl, hlast⟩ := List.append_inj' heq rfl
      obtain rfl : c = b.char := (List.cons.inj hlast).1
      exact .inr ⟨by rw [behind, ← hplace], hends, hbracket⟩
    · rw [← List.cons_append, ← List.append_assoc] at heq
      exact .inl ⟨front, rest, (List.append_inj' heq rfl).1, hends, hplace, hbracket⟩
  · rintro (⟨front, rest, rfl, hends, hplace, hbracket⟩ | ⟨rfl, hends, hbracket⟩)
    · exact ⟨front, rest ++ [c], by simp, hends, hplace, hbracket⟩
    · exact ⟨cs, [], rfl, hends, rfl, hbracket⟩

end Bracket

/-- What becomes of a closing bracket. -/
inductive Closing where
  /-- It takes an open bracket of its kind. -/
  | matched (opening closing : Bracket)
  /-- It takes an open bracket of another kind. -/
  | crossed (opening closing : Bracket)
  /-- Nothing is open. -/
  | unbalanced (closing : Bracket)
  deriving DecidableEq, Repr

namespace Closing

def closing : Closing → Bracket
  | matched _ c | crossed _ c | unbalanced c => c

/-- The open bracket that is taken. -/
def opening? : Closing → Option Bracket
  | matched o _ | crossed o _ => some o
  | unbalanced _ => none

/-- The brackets that are accounted for. -/
def brackets (k : Closing) : List Bracket := k.closing :: k.opening?.toList

/-- What is reported. -/
def fault? : Closing → Option Fault
  | matched _ _ => none
  | crossed o c => some (.mismatch c.char c.place o.char o.place)
  | unbalanced c => some (.unbalanced c.char c.place)

/-- An opening bracket is taken by a later closing one, and what it is called fits their kinds. -/
def IsProper : Closing → Prop
  | matched o c => o.place < c.place ∧ o.Matches c
  | crossed o c => o.place < c.place ∧ o.IsOpening ∧ c.IsClosing ∧ ¬ o.Matches c
  | unbalanced c => c.IsClosing

theorem IsProper.isClosing {k : Closing} (h : k.IsProper) : k.closing.IsClosing := by
  cases k with
  | matched o c => exact ⟨o.char, h.2⟩
  | crossed o c => exact h.2.2.1
  | unbalanced c => exact h

/-- Behind a bracket that is still open, only brackets that were opened behind it are taken. -/
def Respects (k : Closing) (b : Bracket) : Prop :=
  b.place < k.closing.place → ∃ o, k.opening? = some o ∧ b.place < o.place

end Closing

/-- What becomes of the brackets of a text: of the closing ones, and of those that stay open. -/
structure Account where
  closings : List Closing := []
  unclosed : List Bracket := []
  deriving DecidableEq, Repr

namespace Account

def brackets (a : Account) : List Bracket := a.closings.flatMap Closing.brackets ++ a.unclosed

/-- An account is that of a text: it has each of its brackets once, and each in its order. -/
structure Describes (a : Account) (cs : List Char) : Prop where
  complete : ∀ b, b ∈ a.brackets ↔ b.StandsIn cs
  once : (a.brackets.map Bracket.place).Nodup
  proper : ∀ k ∈ a.closings, k.IsProper
  opening : ∀ b ∈ a.unclosed, b.IsOpening
  closingsInOrder : a.closings.Pairwise (fun k l => k.closing.place < l.closing.place)
  unclosedInOrder : a.unclosed.Pairwise (fun b d => b.place < d.place)
  /-- Up to the bracket that takes an open one, it is open. -/
  innermost : a.closings.Pairwise (fun k l => ∀ o, l.opening? = some o → k.Respects o)
  /-- What is never closed is open up to the end. -/
  stayOpen : ∀ b ∈ a.unclosed, ∀ k ∈ a.closings, k.Respects b

/-- A scan shows what it has found: what was closed by its faults, and the rest by its stack. -/
structure Shows (a : Account) (s : Scan) : Prop where
  opened : s.opened = a.unclosed.reverse.map (fun b => (b.char, b.place))
  faults : s.faults = (a.closings.filterMap Closing.fault?).reverse

section Carrying

variable {a a' : Account} {cs : List Char} {c : Char}

theorem Describes.place_lt (h : a.Describes cs) {b : Bracket} (hb : b ∈ a.brackets) :
    b.place < Text.byteLength cs :=
  ((h.complete b).mp hb).place_lt

theorem Describes.closing_place_lt (h : a.Describes cs) {k : Closing} (hk : k ∈ a.closings) :
    k.closing.place < Text.byteLength cs :=
  h.place_lt (List.mem_append_left _ (List.mem_flatMap.mpr ⟨k, hk, List.mem_cons_self⟩))

theorem Describes.unclosed_place_lt (h : a.Describes cs) {b : Bracket} (hb : b ∈ a.unclosed) :
    b.place < Text.byteLength cs :=
  h.place_lt (List.mem_append_right _ hb)

/-- A character that is no bracket or stands in a literal is not accounted for. -/
theorem Describes.skip (h : a.Describes cs)
    (hno : LiteralsEnd cs → ¬ ((Bracket.behind cs c).IsOpening ∨ (Bracket.behind cs c).IsClosing)) :
    a.Describes (cs ++ [c]) where
  complete b := by
    rw [h.complete, Bracket.standsIn_concat_iff]
    constructor
    · exact .inl
    · rintro (hstands | ⟨rfl, hends, hbracket⟩)
      · exact hstands
      · exact absurd hbracket (hno hends)
  once := h.once
  proper := h.proper
  opening := h.opening
  closingsInOrder := h.closingsInOrder
  unclosedInOrder := h.unclosedInOrder
  innermost := h.innermost
  stayOpen := h.stayOpen

/-- With one more bracket, an account is still complete. -/
theorem Describes.complete_concat (h : a.Describes cs) (hends : LiteralsEnd cs)
    (hbracket : (Bracket.behind cs c).IsOpening ∨ (Bracket.behind cs c).IsClosing)
    (hperm : a'.brackets.Perm (.behind cs c :: a.brackets)) (b : Bracket) :
    b ∈ a'.brackets ↔ b.StandsIn (cs ++ [c]) := by
  rw [hperm.mem_iff, List.mem_cons, h.complete, Bracket.standsIn_concat_iff, or_comm]
  exact or_congr_right ⟨fun heq => ⟨heq, hends, heq ▸ hbracket⟩, And.left⟩

/-- The new bracket stands behind all others, so it is none of them. -/
theorem Describes.once_concat (h : a.Describes cs)
    (hperm : a'.brackets.Perm (.behind cs c :: a.brackets)) :
    (a'.brackets.map Bracket.place).Nodup := by
  rw [(hperm.map Bracket.place).nodup_iff, List.map_cons, List.nodup_cons]
  refine ⟨fun hmem => ?_, h.once⟩
  obtain ⟨b, hb, hplace⟩ := List.mem_map.mp hmem
  exact absurd (h.place_lt hb) (by rw [hplace]; exact Nat.lt_irrefl _)

/-- An opening bracket is left open for the time being. -/
theorem Describes.leaveOpen (h : a.Describes cs) (hends : LiteralsEnd cs)
    (hopening : (Bracket.behind cs c).IsOpening) :
    Describes ⟨a.closings, a.unclosed ++ [.behind cs c]⟩ (cs ++ [c]) := by
  have hperm : (brackets ⟨a.closings, a.unclosed ++ [.behind cs c]⟩).Perm
      (.behind cs c :: a.brackets) := by
    rw [brackets, brackets, ← List.append_assoc]
    exact List.perm_append_singleton _ _
  refine ⟨h.complete_concat hends (.inl hopening) hperm, h.once_concat hperm, h.proper, ?_,
    h.closingsInOrder, ?_, h.innermost, ?_⟩
  · intro b hb
    rcases List.mem_append.mp hb with hb | hb
    · exact h.opening b hb
    · obtain rfl := List.mem_singleton.mp hb
      exact hopening
  · refine List.pairwise_append.mpr ⟨h.unclosedInOrder, List.pairwise_singleton _ _, ?_⟩
    intro b hb d hd
    obtain rfl := List.mem_singleton.mp hd
    exact h.unclosed_place_lt hb
  · intro b hb k hk hlt
    rcases List.mem_append.mp hb with hb | hb
    · exact h.stayOpen b hb k hk hlt
    · obtain rfl := List.mem_singleton.mp hb
      -- Nothing has been closed behind the bracket yet.
      exact absurd hlt (Nat.lt_asymm (h.closing_place_lt hk))

/-- A closing bracket takes the last of those that are open, if there is one. -/
theorem Describes.close (h : a.Describes cs) (hends : LiteralsEnd cs) {k : Closing}
    {outer : List Bracket} (hclosing : k.closing = .behind cs c) (hproper : k.IsProper)
    (hopened : a.unclosed = outer ++ k.opening?.toList)
    (hnone : k.opening? = none → outer = []) :
    Describes ⟨a.closings ++ [k], outer⟩ (cs ++ [c]) := by
  have hisClosing : (Bracket.behind cs c).IsClosing := hclosing ▸ hproper.isClosing
  have hperm : (brackets ⟨a.closings ++ [k], outer⟩).Perm (.behind cs c :: a.brackets) := by
    have hk : k.brackets = .behind cs c :: k.opening?.toList := by rw [Closing.brackets, hclosing]
    rw [brackets, brackets, hopened, List.flatMap_append, List.flatMap_singleton, hk,
      List.append_assoc, List.cons_append]
    exact List.perm_middle.trans ((List.perm_append_comm.append_left _).cons _)
  -- What stays open was open before, with everything that is known of it.
  have houter : ∀ b ∈ outer, b ∈ a.unclosed := by
    intro b hb
    rw [hopened]
    exact List.mem_append_left _ hb
  have hsorted := h.unclosedInOrder
  rw [hopened, List.pairwise_append] at hsorted
  refine ⟨h.complete_concat hends (.inr hisClosing) hperm, h.once_concat hperm, ?_,
    fun b hb => h.opening b (houter b hb), ?_, hsorted.1, ?_, ?_⟩
  · intro l hl
    rcases List.mem_append.mp hl with hl | hl
    · exact h.proper l hl
    · obtain rfl := List.mem_singleton.mp hl
      exact hproper
  · refine List.pairwise_append.mpr ⟨h.closingsInOrder, List.pairwise_singleton _ _, ?_⟩
    intro l hl k' hk'
    obtain rfl := List.mem_singleton.mp hk'
    rw [hclosing]
    exact h.closing_place_lt hl
  · refine List.pairwise_append.mpr ⟨h.innermost, List.pairwise_singleton _ _, ?_⟩
    intro l hl k' hk' o ho
    obtain rfl := List.mem_singleton.mp hk'
    exact h.stayOpen o (by simp [hopened, ho]) l hl
  · intro b hb l hl hlt
    rcases List.mem_append.mp hl with hl | hl
    · exact h.stayOpen b (houter b hb) l hl hlt
    · obtain rfl := List.mem_singleton.mp hl
      -- The bracket that is taken was opened behind those around it.
      cases htaken : l.opening? with
      | none => simp [hnone htaken] at hb
      | some o => exact ⟨o, rfl, hsorted.2.2 b hb o (by simp [htaken])⟩

end Carrying

/-! ## An account of every text -/

section Shows

variable {a : Account} {cs : List Char} {c : Char}

/-- In a literal, a character leaves brackets and faults as they are. -/
theorem Shows.step_of_ne_plain {s : Scan} (hs : a.Shows s) (hmode : s.mode ≠ .plain) :
    a.Shows (s.step c) := by
  have hread : (s.read c).opened = s.opened ∧ (s.read c).faults = s.faults := by
    unfold Scan.read
    cases hm : s.mode with
    | plain => exact absurd hm hmode
    | escaped => exact ⟨rfl, rfl⟩
    | literal =>
      dsimp only
      split_ifs <;> exact ⟨rfl, rfl⟩
  exact ⟨hread.1.trans hs.opened, hread.2.trans hs.faults⟩

/-- **An account is carried on with a closing bracket:** which of the three things becomes of it
depends on what is open, and on the kind of that. -/
theorem Describes.exists_close (h : a.Describes cs) (hs : a.Shows (scan cs))
    (hends : LiteralsEnd cs) {o : Char} (hpair : (o, c) ∈ pairs) :
    ∃ a' : Account, a'.Describes (cs ++ [c]) ∧ a'.Shows ((scan cs).step c) := by
  have hclosing : (Bracket.behind cs c).IsClosing := ⟨o, hpair⟩
  have hopened := hs.opened
  rw [Scan.step, Scan.read_closing ((mode_scan_iff cs).mpr hends) hpair]
  rcases a.unclosed.eq_nil_or_concat' with hnone | ⟨outer, top, htop⟩
  · -- Nothing is open.
    rw [hnone] at hopened
    refine ⟨⟨a.closings ++ [.unbalanced (.behind cs c)], []⟩,
      h.close (k := .unbalanced _) hends rfl hclosing hnone (fun _ => rfl), ?_, ?_⟩
    · simp [Scan.close, hopened]
    · simp [Scan.close, hopened, hs.faults, Closing.fault?, Bracket.behind, offset_scan]
  · -- The innermost open bracket is taken, whether it is of this kind or not.
    rw [htop] at hopened
    have hlt : top.place < (Bracket.behind cs c).place :=
      h.unclosed_place_lt (by rw [htop]; simp)
    have hkind : top.Matches (.behind cs c) ↔ top.char = o := by
      refine ⟨fun hmatches => opening_unique hmatches hpair, ?_⟩
      rintro rfl
      exact hpair
    by_cases hmatches : top.Matches (.behind cs c)
    · refine ⟨⟨a.closings ++ [.matched top (.behind cs c)], outer⟩,
        h.close (k := .matched top _) hends rfl ⟨hlt, hmatches⟩ htop
          (absurd · (Option.some_ne_none top)), ?_, ?_⟩
      · simp [Scan.close, hopened, hkind.mp hmatches]
      · simp [Scan.close, hopened, hkind.mp hmatches, hs.faults, Closing.fault?]
    · have hopening : top.IsOpening := h.opening top (by rw [htop]; simp)
      have hne : top.char ≠ o := mt hkind.mpr hmatches
      refine ⟨⟨a.closings ++ [.crossed top (.behind cs c)], outer⟩,
        h.close (k := .crossed top _) hends rfl ⟨hlt, hopening, hclosing, hmatches⟩ htop
          (absurd · (Option.some_ne_none top)), ?_, ?_⟩
      · simp [Scan.close, hopened, hne]
      · simp [Scan.close, hopened, hne, hs.faults, Closing.fault?, Bracket.behind, offset_scan]

/-- **An account is carried on with any character.** -/
theorem Describes.concat (h : a.Describes cs) (hs : a.Shows (scan cs)) (c : Char) :
    ∃ a' : Account, a'.Describes (cs ++ [c]) ∧ a'.Shows (scan (cs ++ [c])) := by
  rw [scan_concat]
  by_cases hmode : (scan cs).mode = .plain
  · have hends := (mode_scan_iff cs).mp hmode
    rcases char_cases c with rfl | ⟨closing, hpair⟩ | ⟨o, hpair⟩ | hc
    · refine ⟨a, h.skip fun _ => ?_, ?_⟩
      · simp [Bracket.IsOpening, Bracket.IsClosing, Bracket.behind, pairs]
      · rw [Scan.step, Scan.read_quote hmode]
        exact ⟨hs.opened, hs.faults⟩
    · refine ⟨_, h.leaveOpen hends ⟨closing, hpair⟩, ?_⟩
      rw [Scan.step, Scan.read_opening hmode hpair]
      -- The scan pushes the bracket with its offset, which is the place of the bracket.
      refine ⟨?_, hs.faults⟩
      simp [hs.opened, Bracket.behind, offset_scan]
    · exact h.exists_close hs hends hpair
    · refine ⟨a, h.skip fun _ => ?_, ?_⟩
      · rintro (⟨d, hd⟩ | ⟨d, hd⟩)
        · exact (hc.2 _ hd).1 rfl
        · exact (hc.2 _ hd).2 rfl
      · rw [Scan.step, Scan.read_ordinary hmode hc]
        exact ⟨hs.opened, hs.faults⟩
  · -- In a literal every character is skipped, brackets as well.
    have hends : ¬ LiteralsEnd cs := mt (mode_scan_iff cs).mpr hmode
    exact ⟨a, h.skip fun hcontra => absurd hcontra hends, hs.step_of_ne_plain hmode⟩

theorem exists_describes (cs : List Char) :
    ∃ a : Account, a.Describes cs ∧ a.Shows (scan cs) := by
  induction cs using List.reverseRecOn with
  | nil =>
    refine ⟨{}, ⟨fun b => ?_, .nil, nofun, nofun, .nil, .nil, .nil, nofun⟩, rfl, rfl⟩
    refine iff_of_false nofun ?_
    rintro ⟨front, rest, heq, -⟩
    simp at heq
  | append_singleton cs c ih =>
    obtain ⟨a, h, hs⟩ := ih
    exact h.concat hs c

end Shows

end Account

/-! ## The reports -/

theorem toDigits_injective : Function.Injective (Nat.toDigits 10) := by
  intro m n h
  have hnumber := congrArg (fun ds => Nat.ofDigitChars 10 ds 0) h
  simpa only [Nat.ofDigitChars_ten_toDigits] using hnumber

/-- The digits of a number end at the first blank. -/
theorem toDigits_append_inj {m n : Nat} {cs ds : List Char}
    (h : Nat.toDigits 10 m ++ ' ' :: cs = Nat.toDigits 10 n ++ ' ' :: ds) : m = n ∧ cs = ds := by
  have htake : ∀ (k : Nat) (es : List Char),
      (Nat.toDigits 10 k ++ ' ' :: es).takeWhile Char.isDigit = Nat.toDigits 10 k := by
    intro k es
    have hdigits : ∀ c ∈ Nat.toDigits 10 k, c.isDigit = true :=
      fun c hc => Nat.isDigit_of_mem_toDigits (by decide) (by decide) hc
    have hblank : (' ' :: es).takeWhile Char.isDigit = [] := rfl
    rw [List.takeWhile_append_of_pos hdigits, hblank, List.append_nil]
  -- Both texts have the same digits in front, so that the rest can be compared.
  have hdigits : Nat.toDigits 10 m = Nat.toDigits 10 n := by rw [← htake m cs, h, htake]
  rw [hdigits] at h
  exact ⟨toDigits_injective hdigits, (List.cons.inj (List.append_cancel_left h)).2⟩

/-- **What a report is about** can be told from its wording: its kind, the brackets, and their
places. -/
theorem Fault.message_injective : Function.Injective Fault.message := by
  intro f g h
  have hchars := congrArg String.toList h
  -- Reports of different kinds differ in their first words.
  cases f <;> cases g <;> simp [message] at hchars
  case emptyText.emptyText => rfl
  case openLiteral.openLiteral => rfl
  case unbalanced.unbalanced c i d j =>
    rw [hchars.1, toDigits_injective hchars.2]
  case unclosed.unclosed c i d j =>
    rw [hchars.1, toDigits_injective hchars.2]
  case mismatch.mismatch c i o j d i' o' j' =>
    obtain ⟨hplace, hrest⟩ := toDigits_append_inj hchars.2
    -- Behind the first place the wording goes on up to the other bracket.
    simp only [List.cons.injEq, true_and] at hrest
    rw [hchars.1, hplace, hrest.1, toDigits_injective hrest.2]

/-- What is reported of a closing bracket tells what became of it. -/
theorem Closing.fault?_inj {k l : Closing} {f : Fault} (hk : k.fault? = some f)
    (hl : l.fault? = some f) : k = l := by
  cases k with
  | matched => simp [fault?] at hk
  | crossed o c =>
    obtain rfl := Option.some.inj hk
    cases l with
    | crossed o' c' => simp_all [fault?, Bracket.ext_iff]
    | matched | unbalanced => simp [fault?] at hl
  | unbalanced c =>
    obtain rfl := Option.some.inj hk
    cases l with
    | unbalanced c' => simp_all [fault?, Bracket.ext_iff]
    | matched | crossed => simp [fault?] at hl

namespace Account

variable {a : Account} {cs : List Char}

/-- What is reported: closing brackets, then a literal that does not end, then what is left open. -/
def faults (a : Account) (cs : List Char) : List Fault :=
  a.closings.filterMap Closing.fault? ++ (if LiteralsEnd cs then [] else [.openLiteral]) ++
    a.unclosed.map (fun b => .unclosed b.char b.place)

theorem Shows.finish_eq (hs : a.Shows (scan cs)) : (scan cs).finish = a.faults cs := by
  have hmode : ((scan cs).mode = .plain) = LiteralsEnd cs := propext (mode_scan_iff cs)
  simp only [Scan.finish, hs.faults, hs.opened, hmode, List.reverse_reverse,
    List.map_reverse, List.map_map]
  rfl

/-- Nothing is reported twice. -/
theorem Describes.nodup_faults (h : a.Describes cs) : (a.faults cs).Nodup := by
  have hclosings : (a.closings.filterMap Closing.fault?).Nodup := by
    refine List.Nodup.filterMap (fun k l f hk hl => Closing.fault?_inj hk hl) ?_
    exact h.closingsInOrder.imp fun hlt =>
      ne_of_apply_ne (fun k : Closing => k.closing.place) (Nat.ne_of_lt hlt)
  have hunclosed : (a.unclosed.map fun b => Fault.unclosed b.char b.place).Nodup := by
    refine List.Nodup.map (fun b d heq => ?_) ?_
    · injection heq with hchar hplace
      exact Bracket.ext hchar hplace
    · exact h.unclosedInOrder.imp fun hlt => ne_of_apply_ne _ (Nat.ne_of_lt hlt)
  have hkinds : ∀ k ∈ a.closings, ∀ f, k.fault? = some f →
      f ≠ .openLiteral ∧ ∀ b : Bracket, f ≠ .unclosed b.char b.place := by
    intro k _ f hf
    cases k <;> cases hf <;> exact ⟨nofun, nofun⟩
  -- The three parts have no fault in common, since their faults are of different kinds.
  rw [faults, List.append_assoc, List.nodup_append, List.nodup_append]
  refine ⟨hclosings, ⟨by split <;> simp, hunclosed, ?_⟩, ?_⟩
  · intro f hf g hg heq
    obtain ⟨b, -, rfl⟩ := List.mem_map.mp hg
    subst heq
    split at hf <;> simp at hf
  · intro f hf g hg heq
    obtain ⟨k, hk, hfault⟩ := List.mem_filterMap.mp hf
    obtain ⟨hliteral, hleft⟩ := hkinds k hk f hfault
    subst heq
    rcases List.mem_append.mp hg with hg | hg
    · split at hg
      · exact absurd hg List.not_mem_nil
      · exact hliteral (List.mem_singleton.mp hg)
    · obtain ⟨b, -, hb⟩ := List.mem_map.mp hg
      exact hleft b hb.symm

end Account

/-- **The errors of an expression account for its brackets.** -/
theorem compile_errors_accountFor {text : String} (hblank : Text.trim text.toList ≠ []) :
    ∃ a : Account, a.Describes (Text.trim text.toList) ∧
      (compile text).errors = (a.faults (Text.trim text.toList)).map Fault.message ∧
      (compile text).errors.Nodup := by
  obtain ⟨a, ha, hs⟩ := Account.exists_describes (Text.trim text.toList)
  have hcheck : check (Text.trim text.toList) = a.faults (Text.trim text.toList) := by
    rw [check, if_neg (by simpa using hblank), ← hs.finish_eq, scan]
  have herrors : (compile text).errors = (a.faults (Text.trim text.toList)).map Fault.message :=
    congrArg (List.map Fault.message) hcheck
  refine ⟨a, ha, herrors, ?_⟩
  rw [herrors]
  exact List.Nodup.map Fault.message_injective ha.nodup_faults

/-- Two brackets are taken by others, one by its partner, a closing one meets nothing, and at the end
a literal and two brackets are left open. What stands in literals does not count. -/
theorem compile_errors_accountFor_muddled :
    ∃ a : Account, a.Describes "[ä(x]'é(')(y)]\x7b('[".toList ∧
      (a.faults "[ä(x]'é(')(y)]\x7b('[".toList).map Fault.message =
        ["']' at 5 closes '(' opened at 3", "')' at 11 closes '[' opened at 0",
          "unbalanced ']' at 15", "unterminated string literal",
          "unclosed '\x7b' opened at 16", "unclosed '(' opened at 17"] := by
  have htrim : Text.trim " [ä(x]'é(')(y)]\x7b('[".toList = "[ä(x]'é(')(y)]\x7b('[".toList := by
    decide +kernel
  have hblank : Text.trim " [ä(x]'é(')(y)]\x7b('[".toList ≠ [] := by
    rw [htrim]
    decide
  obtain ⟨a, ha, herrors, -⟩ := compile_errors_accountFor hblank
  rw [htrim] at ha herrors
  refine ⟨a, ha, herrors.symm.trans ?_⟩
  decide +kernel

end DocTemplate.Brackets
