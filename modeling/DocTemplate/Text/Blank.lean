/-!
# Blank characters

Which characters count as white space at the ends of a text, and the cut that removes them. The set
is the Unicode property `White_Space`, which is wider than ASCII blanks (it has the no-break space
and the ideographic space) and excludes the zero-width characters.

## Main statements

- `trimLeft_append`, `trimLeft_append_of_all`: trimming a text that is put together of two pieces
- `prefix_trimRight_iff`: trimming the end does not change which words a text starts with
-/

namespace DocTemplate.Text

/-- A character of the Unicode property `White_Space`. -/
def isBlank (c : Char) : Bool :=
  let n := c.toNat
  (9 ≤ n && n ≤ 13) || n == 0x20 || n == 0x85 || n == 0xA0 || n == 0x1680 ||
    (0x2000 ≤ n && n ≤ 0x200A) || n == 0x2028 || n == 0x2029 || n == 0x202F || n == 0x205F ||
    n == 0x3000

/-- The text without the blanks at its start. -/
def trimLeft (cs : List Char) : List Char := cs.dropWhile isBlank

/-- The text without the blanks at its end. -/
def trimRight (cs : List Char) : List Char := (cs.reverse.dropWhile isBlank).reverse

/-- The text without the blanks at either end. -/
def trim (cs : List Char) : List Char := trimRight (trimLeft cs)

/-- The same on strings. -/
def trimmed (s : String) : String := String.ofList (trim s.toList)

/-- Blanks in front of a text are trimmed away with its own. -/
theorem trimLeft_append_of_all {cs : List Char} (h : cs.all isBlank = true) (ds : List Char) :
    trimLeft (cs ++ ds) = trimLeft ds := by
  rw [trimLeft, List.dropWhile_append_of_pos (by simpa using h)]
  rfl

/-- After a piece that is not blank, nothing more is trimmed. -/
theorem trimLeft_append {cs : List Char} (h : cs.all isBlank = false) (ds : List Char) :
    trimLeft (cs ++ ds) = trimLeft cs ++ ds := by
  induction cs with
  | nil => simp at h
  | cons c cs ih =>
    cases hc : isBlank c with
    | true => simpa [trimLeft, hc] using ih (by simpa [hc] using h)
    | false => simp [trimLeft, hc]

/-- What is trimmed from the end is blank. -/
theorem exists_eq_trimRight_append (cs : List Char) :
    ∃ blanks : List Char, cs = trimRight cs ++ blanks ∧ blanks.all isBlank = true := by
  refine ⟨(cs.reverse.takeWhile isBlank).reverse, ?_, ?_⟩
  · rw [trimRight, ← List.reverse_append, List.takeWhile_append_dropWhile, List.reverse_reverse]
  · rw [List.all_reverse, List.all_takeWhile]

/-- Trimming the end of a text does not change which words without blanks it starts with. -/
theorem prefix_trimRight_iff {word : List Char} (hw : word.all (!isBlank ·) = true)
    (cs : List Char) : word <+: trimRight cs ↔ word <+: cs := by
  obtain ⟨blanks, h, hb⟩ := exists_eq_trimRight_append cs
  have whole : trimRight cs <+: cs := ⟨blanks, h.symm⟩
  refine ⟨fun hp => hp.trans whole, fun hp => ?_⟩
  rcases List.prefix_or_prefix_of_prefix hp whole with inside | ⟨more, hm⟩
  · exact inside
  · cases more with
    | nil => exact ⟨[], by simpa using hm.symm⟩
    | cons c more =>
      -- The word would go on among the blanks.
      have hc : isBlank c = true := by
        obtain ⟨t, ht⟩ := hp
        have e : (c :: more) ++ t = blanks := by
          apply (List.append_right_inj (trimRight cs)).1
          rw [← h, ← List.append_assoc, hm, ht]
        rw [← e] at hb
        simp at hb
        exact hb.1
      rw [← hm] at hw
      simp [hc] at hw

end DocTemplate.Text
