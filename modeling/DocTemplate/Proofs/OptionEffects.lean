import DocTemplate.Proofs.FieldReading
import DocTemplate.Proofs.WrittenImages

/-!
# What options do

What images and diagrams make of their options is said here key by key, without the order in which
the options are gone through: a size is a numeral below a bound, an option that is taken over is the
one of its name, and what is reported of an option depends on this option alone.

## Main statements

- `Numeral.size?_eq_some_iff`: which values stand for a size
- `OptionList.causes_eq_nil_iff`: the lists in which nothing is wrong
- `applyImageOptions_takenOver`, `applyImageOptions_causes_eq`: what is taken over of options, and
  what is reported of sizes
- `Session.readWith_of_standsAt`: a field is read as a construct
-/

namespace DocTemplate

/-! ## Sizes -/

namespace Numeral

/-- One or more ASCII digits that stand for a number in decimal. -/
structure IsDecimal (ds : List Char) (n : Nat) : Prop where
  nonempty : ds ≠ []
  digits : ∀ c ∈ ds, c.isDigit = true
  number : Nat.ofDigitChars 10 ds 0 = n

/-- An optional plus sign, and digits that stand for a number. -/
inductive Denotes (n : Nat) : List Char → Prop where
  | bare {ds : List Char} (h : IsDecimal ds n) : Denotes n ds
  | signed {ds : List Char} (h : IsDecimal ds n) : Denotes n ('+' :: ds)

theorem denotes_plus_iff {n : Nat} {ds : List Char} : Denotes n ('+' :: ds) ↔ IsDecimal ds n := by
  refine ⟨fun h => ?_, .signed⟩
  cases h with
  | bare h => exact absurd (h.digits '+' (by simp)) (by decide)
  | signed h => exact h

theorem denotes_iff_of_ne {n : Nat} {cs : List Char} (h : ∀ ds, cs ≠ '+' :: ds) :
    Denotes n cs ↔ IsDecimal cs n := by
  refine ⟨fun hdenotes => ?_, .bare⟩
  cases hdenotes with
  | bare hdecimal => exact hdecimal
  | signed => exact absurd rfl (h _)

/-- A numeral below a bound is read digit by digit, if there are digits and nothing else. -/
theorem capped_filter_eq_some_iff {bound n : Nat} {ds : List Char} :
    (if ds.isEmpty || !ds.all Char.isDigit then none
      else some (capped 10 bound ds) |>.filter (· < bound)) = some n ↔
      IsDecimal ds n ∧ n < bound := by
  by_cases hdigits : ds ≠ [] ∧ ∀ c ∈ ds, c.isDigit = true
  · have hread : (ds.isEmpty || !ds.all Char.isDigit) = false := by
      simpa using hdigits
    have hvalue : capped 10 bound ds = min bound (Nat.ofDigitChars 10 ds 0) := by
      rw [capped_eq_min (by decide), value, foldl_digits hdigits.2]
    rw [hread, hvalue, if_neg Bool.false_ne_true]
    simp only [Option.filter_eq_some_iff, Option.some.injEq, decide_eq_true_eq]
    constructor
    · rintro ⟨hmin, hlt⟩
      exact ⟨⟨hdigits.1, hdigits.2, by omega⟩, hlt⟩
    · rintro ⟨hdecimal, hlt⟩
      have hnumber := hdecimal.number
      exact ⟨by omega, hlt⟩
  · have hread : (ds.isEmpty || !ds.all Char.isDigit) = true := by
      by_contra hnot
      exact hdigits (by simpa using hnot)
    rw [hread, if_pos rfl]
    have hnot : ¬ (IsDecimal ds n ∧ n < bound) := by
      rintro ⟨hdecimal, -⟩
      exact hdigits ⟨hdecimal.nonempty, hdecimal.digits⟩
    simp [hnot]

/-- **The texts that are read as a number** are those that denote it. -/
theorem unsignedBelow?_eq_some_iff {bound n : Nat} {cs : List Char} :
    unsignedBelow? bound cs = some n ↔ Denotes n cs ∧ n < bound := by
  unfold unsignedBelow?
  split
  next ds => rw [capped_filter_eq_some_iff, denotes_plus_iff]
  next hne => rw [capped_filter_eq_some_iff, denotes_iff_of_ne hne]

/-- The size that a value stands for. -/
def size? (value : String) : Option UInt32 :=
  (unsignedBelow? UInt32.size value.toList).map UInt32.ofNat

theorem size?_eq_some_iff {value : String} {n : UInt32} :
    size? value = some n ↔ Denotes n.toNat value.toList := by
  simp only [size?, Option.map_eq_some_iff, unsignedBelow?_eq_some_iff]
  constructor
  · rintro ⟨k, ⟨hdenotes, hlt⟩, rfl⟩
    rwa [UInt32.toNat_ofNat_of_lt' hlt]
  · intro hdenotes
    exact ⟨n.toNat, ⟨hdenotes, n.toNat_lt_size⟩, UInt32.ofNat_toNat⟩

/-- A value denotes a number that fits into 32 bits. -/
def IsSize (value : String) : Prop := ∃ n, Denotes n value.toList ∧ n < UInt32.size

theorem isSome_size?_iff {value : String} : (size? value).isSome = true ↔ IsSize value := by
  rw [size?, Option.isSome_map, Option.isSome_iff_exists]
  simp only [unsignedBelow?_eq_some_iff]
  rfl

instance (value : String) : Decidable (IsSize value) := decidable_of_iff _ isSome_size?_iff

theorem size?_eq_none_iff {value : String} : size? value = none ↔ ¬ IsSize value := by
  rw [← isSome_size?_iff, Option.not_isSome_iff_eq_none]

/-- A size is the one that a value denotes, if there is a value and it denotes one. -/
def IsReadFrom (value? : Option String) (size? : Option UInt32) : Prop :=
  ∀ n, size? = some n ↔ ∃ value, value? = some value ∧ Denotes n.toNat value.toList

theorem isReadFrom_elim (value? : Option String) :
    IsReadFrom value? (value?.elim none fun value => size? value <|> none) := by
  intro n
  cases value? with
  | none => simp
  | some value => simp [size?_eq_some_iff]

/-- Nothing is read from what is no size. -/
theorem IsReadFrom.eq_none {value : String} {size? : Option UInt32}
    (h : IsReadFrom (some value) size?) (hvalue : ¬ IsSize value) : size? = none := by
  rw [Option.eq_none_iff_forall_ne_some]
  intro n hn
  obtain ⟨_, hsame, hdenotes⟩ := (h n).mp hn
  cases hsame
  exact hvalue ⟨n.toNat, hdenotes, n.toNat_lt_size⟩

end Numeral

/-! ## Lists in which nothing is wrong -/

namespace OptionList

/-- Nothing is wrong with the way a list is written. -/
structure IsWellFormed (l : OptionList) : Prop where
  /-- No name has a space inside. -/
  names : ∀ s ∈ l.segments, ' ' ∉ s.key.name
  /-- Only spaces stand between a colon and the opening quote. -/
  gaps : ∀ s ∈ l.segments, ∀ c ∈ s.gap.text, c = ' '
  /-- Every value is closed, and nothing is left behind the last one. -/
  closed : l.tail.spelling = []

theorem segment_causes_eq_nil_iff {s : OptionSegment} :
    s.causes = [] ↔ ' ' ∉ s.key.name ∧ ∀ c ∈ s.gap.text, c = ' ' := by
  simp [OptionSegment.causes, OptionKey.causes, OptionGap.causes, OptionGap.isStray]

theorem tail_causes_eq_nil_iff {t : OptionTail} : t.causes = [] ↔ t.spelling = [] := by
  rw [OptionTail.causes, List.append_eq_nil_iff]
  constructor
  · rintro ⟨-, hclosed⟩
    by_contra hne
    simp [hne] at hclosed
  · intro hempty
    refine ⟨?_, if_pos hempty⟩
    -- Only a tail that has gone through its colon is looked at.
    cases t with
    | key => rfl
    | gap | value => simp [OptionTail.spelling] at hempty

theorem causes_eq_nil_iff {l : OptionList} : l.causes = [] ↔ l.IsWellFormed := by
  rw [causes, List.append_eq_nil_iff, List.flatMap_eq_nil_iff, tail_causes_eq_nil_iff]
  simp only [segment_causes_eq_nil_iff]
  constructor
  · rintro ⟨hsegments, hclosed⟩
    exact ⟨fun s hs => (hsegments s hs).1, fun s hs => (hsegments s hs).2, hclosed⟩
  · intro h
    exact ⟨fun s hs => ⟨h.names s hs, h.gaps s hs⟩, h.closed⟩

/-- There is one list that a text spells. -/
theorem exists_unique_spelling (cs : List Char) :
    ∃ l : OptionList, l.spelling = cs ∧ ∀ l' : OptionList, l'.spelling = cs → l' = l := by
  refine ⟨.read cs, spelling_read cs, fun l' hl' => ?_⟩
  rw [← hl', read_spelling]

/-- **An option list behind a keyword** is read as it is written. -/
theorem readOptions_eq {keyword written : List Char} {l : OptionList}
    (htrimmed : Text.trim (keyword ++ written) = keyword ++ written)
    (h : l.spelling = Text.trim written) :
    readOptions keyword (keyword ++ written) = (l.options, l.causes) := by
  have hbehind : keyword.isPrefixOf? (keyword ++ written) = some written :=
    List.isPrefixOf?_eq_some_iff_append_eq.mpr rfl
  simp only [readOptions, htrimmed, hbehind, readOptionList]
  rw [← h, foldl_step_eq, read_spelling, finish_scan h]

/-- What is reported of how a list is written, by the kind of cause. -/
theorem filter_causes (l : OptionList) {p : Cause → Bool}
    (hblank : ∀ index key, p (.blankInKey index key) = false)
    (hstray : ∀ key, p (.strayBeforeQuote key) = false)
    (hunfinished : ∀ key, p (.unfinishedOption key) = false) : l.causes.filter p = [] := by
  -- A list has three kinds of mistakes: in a name, in a gap, and at its end.
  have hkey : ∀ k : OptionKey, k.causes.filter p = [] := by
    intro k
    by_cases hspace : ' ' ∈ k.name <;> simp [OptionKey.causes, hspace, hblank]
  have hgap : ∀ (g : OptionGap) (k : OptionKey), (g.causes k).filter p = [] := by
    intro g k
    cases hstrays : g.isStray <;> simp [OptionGap.causes, hstrays, hstray]
  have hsegments : (l.segments.flatMap OptionSegment.causes).filter p = [] := by
    rw [List.filter_flatMap, List.flatMap_eq_nil_iff]
    intro s _
    rw [OptionSegment.causes, List.filter_append, hkey, hgap, List.append_nil]
  have htail : l.tail.causes.filter p = [] := by
    rw [OptionTail.causes, List.filter_append, List.append_eq_nil_iff]
    constructor
    · cases l.tail with
      | key => rfl
      | gap k g | value k g => simp [OptionTail.headCauses, hkey, hgap]
    · split <;> simp [hunfinished]
  rw [causes, List.filter_append, hsegments, htail, List.append_nil]

end OptionList

/-! ## Names and positions -/

section Checking

variable (known : List String) (m : OptionMap)

theorem checkOption_eq (key value : String) :
    checkOption known key value =
      if key ∉ known then some (.unknownOption key)
      else if key = "legendPos" ∧ value ≠ "above" ∧ value ≠ "below" then
        some (.unknownOptionValue key value)
      else none := by
  have hposition :
      ((key = OptionName.legendPosition && value ≠ "above" && value ≠ "below") = true) ↔
        key = "legendPos" ∧ value ≠ "above" ∧ value ≠ "below" := by
    rw [Bool.and_eq_true, Bool.and_eq_true, decide_eq_true_eq, decide_eq_true_eq,
      decide_eq_true_eq, and_assoc]
    rfl
  have hknown : ((!known.contains key) = true) ↔ key ∉ known := by simp
  simp only [checkOption, hknown, hposition]

theorem checkOption_eq_none_iff {key value : String} :
    checkOption known key value = none ↔
      key ∈ known ∧ (key = "legendPos" → value = "above" ∨ value = "below") := by
  rw [checkOption_eq]
  by_cases hknown : key ∈ known
  · rw [if_neg (not_not_intro hknown), ite_eq_right_iff]
    simp only [reduceCtorEq, imp_false]
    tauto
  · simp [hknown]

/-- Nothing is wrong with options that are known and of which the legend position is one of two. -/
theorem checkOptions_eq_nil_iff :
    checkOptions known m = [] ↔
      (∀ key ∈ m.keys, key ∈ known) ∧
        ∀ value, m.get? "legendPos" = some value → value = "above" ∨ value = "below" := by
  rw [checkOptions, List.filterMap_eq_nil_iff]
  simp only [checkOption_eq_none_iff, Prod.forall, Dict.mem_entries_iff, Dict.mem_keys_iff]
  constructor
  · intro h
    refine ⟨?_, fun value hvalue => (h "legendPos" value hvalue).2 rfl⟩
    rintro key ⟨value, hvalue⟩
    exact (h key value hvalue).1
  · rintro ⟨hknown, hposition⟩ key value hvalue
    refine ⟨hknown key ⟨value, hvalue⟩, ?_⟩
    rintro rfl
    exact hposition value hvalue

/-- What is reported of names and positions, by the kind of cause. -/
theorem filter_checkOptions {p : Cause → Bool} (hname : ∀ key, p (.unknownOption key) = false)
    (hposition : ∀ key value, p (.unknownOptionValue key value) = false) :
    (checkOptions known m).filter p = [] := by
  rw [List.filter_eq_nil_iff]
  intro c hc
  obtain ⟨e, -, hcause⟩ := List.mem_filterMap.mp hc
  rw [checkOption_eq] at hcause
  split at hcause
  · cases hcause
    simp [hname]
  · split at hcause <;> cases hcause
    simp [hposition]

end Checking

/-! ## Taking options over -/

/-- The legend, its position and the sizes are those that the options say; where they say nothing,
there is none, and the position is below. -/
structure ImageOptions.TakenOver (m : OptionMap) (o : ImageOptions) : Prop where
  legend : o.legend = m.get? "legend"
  position : o.legendPosition = .above ↔ m.get? "legendPos" = some "above"
  height : Numeral.IsReadFrom (m.get? "height") o.height
  width : Numeral.IsReadFrom (m.get? "width") o.width

/-- A height or a width that is no size is reported. -/
def sizeCause? (key value : String) : Option Cause :=
  if (key = "height" ∨ key = "width") ∧ ¬ Numeral.IsSize value then some (.notAnInteger key value)
  else none

/-- What is reported of the sizes, in key order. -/
def sizeCauses (m : OptionMap) : List Cause := m.entries.filterMap fun e => sizeCause? e.1 e.2

theorem sizeCauses_eq_nil_iff {m : OptionMap} :
    sizeCauses m = [] ↔
      (∀ value, m.get? "height" = some value → Numeral.IsSize value) ∧
        ∀ value, m.get? "width" = some value → Numeral.IsSize value := by
  have hcause : ∀ {key value : String}, sizeCause? key value = none ↔
      (key = "height" ∨ key = "width" → Numeral.IsSize value) := by
    intro key value
    rw [sizeCause?, ite_eq_right_iff]
    simp
  rw [sizeCauses, List.filterMap_eq_nil_iff]
  simp only [hcause, Prod.forall, Dict.mem_entries_iff]
  constructor
  · intro h
    exact ⟨fun value hvalue => h _ value hvalue (.inl rfl),
      fun value hvalue => h _ value hvalue (.inr rfl)⟩
  · rintro ⟨hheight, hwidth⟩ key value hvalue (rfl | rfl)
    · exact hheight value hvalue
    · exact hwidth value hvalue

/-- What one option does: it settles what it is the name of. -/
theorem applyImageOption_eq (key value : String) (target : ImageOptions) :
    applyImageOption key value target =
      ({ target with
          legend := if key = "legend" then some value else target.legend
          legendPosition :=
            if key = "legendPos" then if value = "above" then .above else .below
            else target.legendPosition
          height := if key = "height" then Numeral.size? value <|> target.height else target.height
          width := if key = "width" then Numeral.size? value <|> target.width else target.width },
        sizeCause? key value) := by
  have hread : (Numeral.unsignedBelow? UInt32.size value.toList).map UInt32.ofNat =
      Numeral.size? value := rfl
  simp only [applyImageOption, sizeCause?, hread, OptionName.legend, OptionName.legendPosition,
    OptionName.height, OptionName.width, ← Numeral.size?_eq_none_iff]
  -- The names are tried one after the other, and a later one is none of those before.
  by_cases hlegend : key = "legend"
  · simp [hlegend]
  by_cases hposition : key = "legendPos"
  · simp [hposition]
  by_cases hheight : key = "height"
  · cases hsize : Numeral.size? value <;> simp [hheight]
  by_cases hwidth : key = "width"
  · cases hsize : Numeral.size? value <;> simp [hwidth]
  · simp [hlegend, hposition, hheight, hwidth]

section Applying

variable (m : OptionMap)

/-- What is reported of one option does not depend on the others. -/
theorem foldl_applyNext_causes (entries : List (String × String))
    (state : ImageOptions × List Cause) :
    (entries.foldl ImageOptions.applyNext state).2 =
      state.2 ++ entries.filterMap fun e => sizeCause? e.1 e.2 := by
  induction entries generalizing state with
  | nil => simp
  | cons e entries ih =>
    rw [List.foldl_cons, ih, ImageOptions.applyNext, applyImageOption_eq]
    cases hcause : sizeCause? e.1 e.2 <;> simp [hcause]

theorem applyImageOptions_causes_eq (target : ImageOptions) :
    (applyImageOptions m target).2 = sizeCauses m :=
  foldl_applyNext_causes m.entries (target, [])

/-- A part of what is taken over that only one option has an effect on. -/
theorem applyImageOptions_part {β : Type} (part : ImageOptions → β) (key : String)
    (change : String → β → β)
    (hpart : ∀ name value target, part (applyImageOption name value target).1 =
      if name = key then change value (part target) else part target)
    (target : ImageOptions) :
    part (applyImageOptions m target).1 =
      (m.get? key).elim (part target) fun value => change value (part target) :=
  m.foldl_entries_eq ImageOptions.applyNext (fun state => part state.1) key change
    (fun state e => hpart e.1 e.2 state.1) (target, [])

theorem applyImageOptions_fileName (target : ImageOptions) :
    (applyImageOptions m target).1.fileName = target.fileName := by
  rw [applyImageOptions_part m ImageOptions.fileName "file" (fun _ fileName => fileName)
    (fun name value target => by rw [applyImageOption_eq, ite_self])]
  cases m.get? "file" <;> rfl

/-- **What is taken over is what the options say**, in whatever order they stand. -/
theorem applyImageOptions_takenOver (fileName : Option String) :
    ImageOptions.TakenOver m (applyImageOptions m { fileName := fileName }).1 where
  legend := by
    rw [applyImageOptions_part m ImageOptions.legend "legend" (fun value _ => some value)
      (fun name value target => by rw [applyImageOption_eq])]
    cases m.get? "legend" <;> rfl
  position := by
    rw [applyImageOptions_part m ImageOptions.legendPosition "legendPos"
      (fun value _ => if value = "above" then .above else .below)
      (fun name value target => by rw [applyImageOption_eq])]
    cases m.get? "legendPos" <;> simp
  height := by
    rw [applyImageOptions_part m ImageOptions.height "height"
      (fun value height => Numeral.size? value <|> height)
      (fun name value target => by rw [applyImageOption_eq])]
    exact Numeral.isReadFrom_elim _
  width := by
    rw [applyImageOptions_part m ImageOptions.width "width"
      (fun value width => Numeral.size? value <|> width)
      (fun name value target => by rw [applyImageOption_eq])]
    exact Numeral.isReadFrom_elim _

end Applying

/-! ## At a field -/

theorem Tag.reportAll_append (t : Tag) (causes more : List Cause) :
    (t.reportAll causes).reportAll more = t.reportAll (causes ++ more) := by
  simp [reportAll, anchor?]

theorem Field.trim_instruction (f : Field) : Text.trim f.instruction = f.instruction :=
  Text.trim_trim _

/-- The options of a field behind its keyword. -/
theorem Field.readOptions_eq {f : Field} {keyword written : List Char} {l : OptionList}
    (hwritten : f.instruction = keyword ++ written) (hl : l.spelling = Text.trim written) :
    readOptions keyword f.instruction = (l.options, l.causes) := by
  rw [hwritten]
  exact OptionList.readOptions_eq (hwritten ▸ f.trim_instruction) hl

namespace Session

variable {s : Session} {f : Field} {rest : List Position}

/-- A complete field is read as a construct, and the session goes on behind it. -/
theorem readWith_of_standsAt (h : f.StandsAt s.cursor.rest rest) (read : Field → Construct) :
    s.readWith read =
      (.ok (read f), { s with cursor := s.cursor.forward (f.inner.length + 2) }) := by
  obtain ⟨passed, hpassed, hlength⟩ := h.split
  have hplace : s.cursor.InBody := Cursor.inBody_of_rest (by rw [h.positions]; simp)
  simp only [readWith, takeField, h.readField, Session.leaving, ← hlength,
    Cursor.leaving_length hplace hpassed]

end Session

end DocTemplate
