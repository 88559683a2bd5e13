import DocTemplate.Log.Event

/-!
# Clipped messages

A message that takes too many bytes is cut at a limit that may lie inside a character. The search
for a place between characters goes back from the limit, and since a character takes at most four
bytes it goes back at most three steps. It cannot run past the start of the text, and what stands
before the place that it finds is the longest piece of whole characters within the limit.

## Main statements

- `Text.exists_steps_lastPos`: the search passes only indices inside of characters
- `Text.le_lastPos_add_three`: it is short
- `Text.keeps_lastPos`: what it leaves is the longest piece that fits
- `Event.message_clipped`: which part of a message an event keeps
-/

namespace DocTemplate

namespace Text

/-- Whole characters from the start of a text, as many as fit into a number of bytes. -/
structure Keeps (n : Nat) (s kept : String) : Prop where
  start : ∃ cut, s = kept ++ cut
  fits : kept.utf8ByteSize ≤ n
  longest : ∀ other cut, s = other ++ cut → other.utf8ByteSize ≤ n →
    other.utf8ByteSize ≤ kept.utf8ByteSize

section Search

variable {s : String} {n : Nat}

/-- Whole characters from the start of a text end at an index where it can be cut. -/
theorem isValid_of_eq_append {kept cut : String} (h : s = kept ++ cut) :
    (⟨kept.utf8ByteSize⟩ : String.Pos.Raw).IsValid s :=
  String.Pos.Raw.isValid_iff_exists_append.mpr ⟨kept, cut, h, rfl⟩

/-- The search goes back step by step, over indices inside of characters, to the first one at which
the text can be cut. -/
theorem exists_steps_lastPos (s : String) (n : Nat) :
    ∃ steps, (lastPos s n).offset.byteIdx + steps = n ∧
      ∀ i < steps, ¬ (⟨n - i⟩ : String.Pos.Raw).IsValid s := by
  induction n with
  | zero => exact ⟨0, rfl, nofun⟩
  | succ n ih =>
    rw [lastPos]
    split
    next hvalid => exact ⟨0, rfl, nofun⟩
    next hvalid =>
      obtain ⟨steps, hoffset, hpassed⟩ := ih
      refine ⟨steps + 1, by omega, ?_⟩
      intro i hi
      cases i with
      | zero => exact hvalid
      | succ i =>
        rw [Nat.add_sub_add_right]
        exact hpassed i (Nat.lt_of_succ_lt_succ hi)

/-- What stands before the place that is found takes as many bytes as its index says. -/
theorem lastPos_offset (s : String) (n : Nat) :
    (lastPos s n).offset.byteIdx = (s.sliceTo (lastPos s n)).copy.utf8ByteSize :=
  congrArg String.Pos.Raw.byteIdx (lastPos s n).splits.offset_eq_rawEndPos

theorem lastPos_le (s : String) (n : Nat) : (lastPos s n).offset.byteIdx ≤ n := by
  obtain ⟨steps, hoffset, -⟩ := exists_steps_lastPos s n
  omega

/-- There is no later index within the limit. -/
theorem le_lastPos {p : String.Pos.Raw} (hvalid : p.IsValid s) (hp : p.byteIdx ≤ n) :
    p.byteIdx ≤ (lastPos s n).offset.byteIdx := by
  obtain ⟨steps, hoffset, hpassed⟩ := exists_steps_lastPos s n
  apply Nat.le_of_not_lt
  intro hlater
  have hback : (⟨n - (n - p.byteIdx)⟩ : String.Pos.Raw) = p := by
    rw [Nat.sub_sub_self hp]
  apply hpassed (n - p.byteIdx) (by omega)
  rwa [hback]

/-- The character behind the place that is found reaches over the limit, and it takes at most four
bytes. -/
theorem le_lastPos_add_three (hlong : n < s.utf8ByteSize) :
    n ≤ (lastPos s n).offset.byteIdx + 3 := by
  have hsplits := (lastPos s n).splits
  have hoffset := lastPos_offset s n
  have hend : lastPos s n ≠ s.endPos := by
    intro hend
    have hle := lastPos_le s n
    rw [hend] at hle
    exact absurd hlong (Nat.not_lt.mpr hle)
  obtain ⟨rest, hrest⟩ := hsplits.exists_eq_singleton_append hend
  have hnext := isValid_of_eq_append
    (hsplits.eq_append.trans ((congrArg _ hrest).trans (String.append_assoc ..).symm))
  rw [String.utf8ByteSize_append, String.utf8ByteSize_singleton] at hnext
  have hfour := ((lastPos s n).get hend).utf8Size_le_four
  apply Nat.le_of_not_lt
  intro hfar
  -- So the character would fit as well, and the search would have stopped behind it.
  have hpos := ((lastPos s n).get hend).utf8Size_pos
  have hle := le_lastPos hnext (n := n) (by simp at hoffset ⊢; omega)
  simp at hoffset hle
  omega

/-- **What stands before the place that is found is the longest piece that fits.** -/
theorem keeps_lastPos (s : String) (n : Nat) : Keeps n s (s.sliceTo (lastPos s n)).copy := by
  constructor
  · exact ⟨_, (lastPos s n).splits.eq_append⟩
  · rw [← lastPos_offset]
    exact lastPos_le s n
  · intro other cut hother hfits
    rw [← lastPos_offset]
    exact le_lastPos (isValid_of_eq_append hother) hfits

end Search

end Text

/-- **Which part of a message an event keeps.** A message of at most 2048 bytes is kept as it is,
and of a longer one the longest piece of whole characters within 2048 bytes, with three dots behind.
The search for the end of that piece goes back at most three bytes from the limit, over indices
inside of one character only, so that at most three bytes less than the limit are kept and no event
has a message of more than 2051 bytes. -/
theorem Event.message_clipped (level : LogLevel) (code message : String) :
    (ofMessage level code message).message.utf8ByteSize ≤ 2051 ∧
    if message.utf8ByteSize ≤ 2048 then (ofMessage level code message).message = message
    else ∃ kept, (ofMessage level code message).message = kept ++ "..." ∧
      Text.Keeps 2048 message kept ∧ 2045 ≤ kept.utf8ByteSize ∧
      ∃ steps ≤ 3, (Text.lastPos message 2048).offset.byteIdx = kept.utf8ByteSize ∧
        kept.utf8ByteSize + steps = 2048 ∧
        ∀ i < steps, ¬ (⟨2048 - i⟩ : String.Pos.Raw).IsValid message := by
  have hclip : (ofMessage level code message).message = Text.clip 2048 message := rfl
  rw [hclip, Text.clip]
  split
  next hshort => exact ⟨by omega, rfl⟩
  next hlong =>
    have hkeeps := Text.keeps_lastPos message 2048
    have hnear := Text.le_lastPos_add_three (Nat.lt_of_not_le hlong)
    obtain ⟨steps, hoffset, hpassed⟩ := Text.exists_steps_lastPos message 2048
    have hsize := Text.lastPos_offset message 2048
    have hfits := hkeeps.fits
    have hdots : "...".utf8ByteSize = 3 := rfl
    constructor
    · rw [String.utf8ByteSize_append, hdots]
      omega
    · exact ⟨_, rfl, hkeeps, by omega, steps, by omega, hsize, by omega, hpassed⟩

end DocTemplate
