import DocTemplate.Proofs.OptionEffects

/-!
# White space in option lists

Blanks of any kind may stand before a key and between a key and its colon: they are trimmed away
together with those at the ends of the list. Between the colon and the opening quote only the space
itself is passed over in silence. Any other blank there is reported like a stray character, once for
its pair, and the pair counts all the same.

## Main statements

- `OptionList.trim_spellings`: trimming a row of complete pairs shortens its first key
- `readOptions_complete`: complete pairs behind a keyword are read as they are
- `readOptions_spaced`: the pairs, and what is reported of the blanks between them
-/

namespace DocTemplate

/-! ## Trimming a row of pairs -/

/-- Up to a character that is not blank, a text is trimmed on its own. -/
theorem Text.trimLeft_append_cons {c : Char} (hc : isBlank c = false) (cs ds : List Char) :
    trimLeft (cs ++ c :: ds) = trimLeft cs ++ c :: ds := by
  cases hall : cs.all isBlank with
  | true =>
    have hnone : trimLeft cs = [] := by simpa [trimLeft] using hall
    rw [trimLeft_append_of_all hall, hnone]
    simp [trimLeft, hc]
  | false => exact trimLeft_append hall (c :: ds)

/-- The key without the blanks at its start. -/
def OptionKey.trimLeft (k : OptionKey) : OptionKey where
  text := Text.trimLeft k.text
  no_colon hcolon := k.no_colon ((List.dropWhile_suffix Text.isBlank).subset hcolon)

/-- It stands for the same name. -/
theorem OptionKey.name_trimLeft (k : OptionKey) : k.trimLeft.name = k.name := by
  have hleft : Text.trimLeft (Text.trimLeft k.text) = Text.trimLeft k.text :=
    List.dropWhile_idempotent Text.isBlank k.text
  rw [name, name, Text.trim, Text.trim, trimLeft, hleft]

namespace OptionSegment

/-- The pair without the blanks before its key. -/
def trimLeft (s : OptionSegment) : OptionSegment := { s with key := s.key.trimLeft }

theorem pair_trimLeft (s : OptionSegment) : s.trimLeft.pair = s.pair := by
  simp [pair, trimLeft, OptionKey.name_trimLeft]

theorem causes_trimLeft (s : OptionSegment) : s.trimLeft.causes = s.causes := by
  simp [causes, trimLeft, OptionKey.causes, OptionGap.causes, OptionKey.name_trimLeft]

/-- The colon ends what may be trimmed away. -/
theorem trimLeft_spelling_append (s : OptionSegment) (cs : List Char) :
    Text.trimLeft (s.spelling ++ cs) = s.trimLeft.spelling ++ cs := by
  rw [spelling, List.append_assoc, List.cons_append, Text.trimLeft_append_cons rfl]
  simp [spelling, trimLeft, OptionKey.trimLeft]

end OptionSegment

namespace OptionList

/-- Some pairs without the blanks before the first one. -/
def trimFirst : List OptionSegment → List OptionSegment
  | [] => []
  | s :: segments => s.trimLeft :: segments

theorem pairs_trimFirst (segments : List OptionSegment) :
    (trimFirst segments).map OptionSegment.pair = segments.map OptionSegment.pair := by
  cases segments <;> simp [trimFirst, OptionSegment.pair_trimLeft]

theorem causes_trimFirst (segments : List OptionSegment) :
    (trimFirst segments).flatMap OptionSegment.causes =
      segments.flatMap OptionSegment.causes := by
  cases segments <;> simp [trimFirst, OptionSegment.causes_trimLeft]

/-- A row of pairs that is not empty ends with a quote. -/
theorem exists_spellings_eq {segments : List OptionSegment} (h : segments ≠ []) :
    ∃ cs, segments.flatMap OptionSegment.spelling = cs ++ ['"'] := by
  obtain ⟨init, last, rfl⟩ := (List.eq_nil_or_concat' segments).resolve_left h
  refine ⟨init.flatMap OptionSegment.spelling ++ last.key.text ++
    ':' :: (last.gap.text ++ '"' :: last.value.flatMap ValueChar.spelling), ?_⟩
  simp [OptionSegment.spelling]

theorem trimRight_spellings (cs : List Char) {segments : List OptionSegment} (h : segments ≠ []) :
    Text.trimRight (cs ++ segments.flatMap OptionSegment.spelling) =
      cs ++ segments.flatMap OptionSegment.spelling := by
  obtain ⟨ds, hds⟩ := exists_spellings_eq h
  rw [hds, ← List.append_assoc, Text.trimRight_append_cons rfl]
  rfl

/-- **Trimming a row of complete pairs** takes nothing but the blanks before the first key. -/
theorem trim_spellings (segments : List OptionSegment) :
    Text.trim (segments.flatMap OptionSegment.spelling) =
      (trimFirst segments).flatMap OptionSegment.spelling := by
  cases segments with
  | nil => rfl
  | cons s segments =>
    -- The quote at the end keeps the pairs from being trimmed there.
    have hright := trimRight_spellings [] (List.cons_ne_nil s.trimLeft segments)
    rw [List.nil_append, List.flatMap_cons] at hright
    rw [Text.trim, List.flatMap_cons, s.trimLeft_spelling_append, hright]
    rfl

end OptionList

section

variable {keyword : List Char}

/-- A keyword without blanks at its ends and the pairs behind it are as they are written. -/
theorem trim_keyword_spellings (hkeyword : Text.trim keyword = keyword) (hne : keyword ≠ [])
    (segments : List OptionSegment) :
    Text.trim (keyword ++ segments.flatMap OptionSegment.spelling) =
      keyword ++ segments.flatMap OptionSegment.spelling := by
  obtain ⟨init, c, rfl⟩ := (List.eq_nil_or_concat' keyword).resolve_left hne
  have hlast : Text.isBlank c = false := Text.isBlank_of_trim_eq_concat hkeyword
  -- The last character of the keyword keeps the trimming of the two sides apart.
  have hleft : Text.trimLeft (init ++ [c]) = init ++ [c] := by
    have htrim := hkeyword
    rw [Text.trim, Text.trimLeft_append_cons hlast, Text.trimRight_append_cons hlast] at htrim
    rwa [Text.trimLeft_append_cons hlast]
  rw [Text.trim, Text.trimLeft_append (by simp [hlast]), hleft]
  rcases segments.eq_nil_or_concat' with rfl | ⟨more, last, rfl⟩
  · rw [List.flatMap_nil, List.append_nil, Text.trimRight_append_cons hlast]
    rfl
  · exact OptionList.trimRight_spellings _ (by simp)

/-- **Complete pairs behind a keyword** are read as they are, and what is reported of them is
reported pair by pair. -/
theorem readOptions_complete (hkeyword : Text.trim keyword = keyword)
    (segments : List OptionSegment) :
    readOptions keyword (keyword ++ segments.flatMap OptionSegment.spelling) =
      (Dict.ofList (segments.map OptionSegment.pair), segments.flatMap OptionSegment.causes) := by
  have hlist : (OptionList.ofSegments (OptionList.trimFirst segments)).spelling =
      Text.trim (segments.flatMap OptionSegment.spelling) := by
    rw [OptionList.spelling_ofSegments, OptionList.trim_spellings]
  -- That the first pair has lost its blanks makes no difference to what is read of it.
  have hread := OptionList.readOptionList_trim _ hlist
  rw [OptionList.pairs_trimFirst, OptionList.causes_trimFirst] at hread
  by_cases hne : keyword = []
  · -- Without a keyword, the list itself is trimmed, and then once more.
    subst hne
    rw [List.nil_append]
    show readOptionList (Text.trim (Text.trim _)) = _
    rw [Text.trim_trim, hread]
  · have hbehind : keyword.isPrefixOf? (keyword ++ segments.flatMap OptionSegment.spelling) =
        some (segments.flatMap OptionSegment.spelling) :=
      List.isPrefixOf?_eq_some_iff_append_eq.mpr rfl
    simp only [readOptions, trim_keyword_spellings hkeyword hne, hbehind, hread]

end

/-! ## Pairs with blanks -/

/-- A pair to be written, with the blanks that stand in it. -/
structure SpacedOption where
  before : List Char
  key : String
  beforeColon : List Char
  afterColon : List Char
  value : String
  blanks : ∀ c ∈ before ++ beforeColon ++ afterColon, Text.isBlank c = true
  /-- The key is free of blanks and colons. -/
  plain : ∀ c ∈ key.toList, Text.isBlank c = false ∧ c ≠ ':'

namespace SpacedOption

variable (w : SpacedOption)

/-- The name and the value. -/
def pair : String × String := (w.key, w.value)

/-- The pair as it is written, with quotes and backslashes of the value behind a backslash. -/
def spelling : List Char :=
  w.before ++ w.key.toList ++ w.beforeColon ++
    ':' :: (w.afterColon ++ '"' :: (Text.escape w.value.toList ++ ['"']))

/-- Nothing but spaces stands before the opening quote. -/
def OnlySpaces : Prop := ∀ c ∈ w.afterColon, c = ' '

instance : DecidablePred OnlySpaces := fun w => List.decidableBAll (· = ' ') w.afterColon

/-- What is reported of the blanks before the opening quote. -/
def strayCauses : List Cause := if w.OnlySpaces then [] else [.strayBeforeQuote w.key]

/-- The key as it is written. -/
def writtenKey : OptionKey where
  text := w.before ++ w.key.toList ++ w.beforeColon
  no_colon := by
    intro hcolon
    simp only [List.mem_append] at hcolon
    rcases hcolon with (hbefore | hkey) | hafter
    · exact absurd (w.blanks ':' (by simp [hbefore])) (by decide)
    · exact (w.plain ':' hkey).2 rfl
    · exact absurd (w.blanks ':' (by simp [hafter])) (by decide)

/-- What stands before the opening quote. -/
def writtenGap : OptionGap where
  text := w.afterColon
  no_quote hquote := absurd (w.blanks '"' (by simp [hquote])) (by decide)

/-- The pair as one of the grammar. -/
def segment : OptionSegment := ⟨w.writtenKey, w.writtenGap, w.value.toList.map .ofChar⟩

/-- The blanks around a key do not belong to its name. -/
theorem name_writtenKey : w.writtenKey.name = w.key.toList := by
  have hbefore : w.before.all Text.isBlank = true :=
    List.all_eq_true.mpr fun c hc => w.blanks c (by simp [hc])
  have hafter : w.beforeColon.all Text.isBlank = true :=
    List.all_eq_true.mpr fun c hc => w.blanks c (by simp [hc])
  have hkey : Text.trim w.key.toList = w.key.toList :=
    Text.trim_of_not_isBlank fun c hc => (w.plain c hc).1
  calc Text.trim (w.before ++ w.key.toList ++ w.beforeColon)
      = Text.trim (w.key.toList ++ w.beforeColon) := by
        rw [Text.trim, List.append_assoc, Text.trimLeft_append_of_all hbefore, ← Text.trim]
    _ = Text.trim (Text.trimRight (w.key.toList ++ w.beforeColon)) :=
        (Text.trim_trimRight _).symm
    _ = Text.trim (Text.trimRight w.key.toList) := by rw [Text.trimRight_append_of_all hafter]
    _ = w.key.toList := by rw [Text.trim_trimRight, hkey]

theorem spelling_segment : w.segment.spelling = w.spelling := by
  simp [segment, OptionSegment.spelling, writtenKey, writtenGap, spelling, Text.escape,
    List.flatMap_map, ValueChar.spelling_ofChar]

theorem pair_segment : w.segment.pair = w.pair := by
  simp [segment, OptionSegment.pair, name_writtenKey, pair, ValueChar.meaning_ofChar,
    Function.comp_def]

/-- Of a pair with blanks, only those before the opening quote can be reported. -/
theorem causes_segment : w.segment.causes = w.strayCauses := by
  -- A key is reported for a space inside of its name, but not for blanks around it.
  have hname : w.writtenKey.causes = [] := by
    rw [OptionKey.causes, name_writtenKey]
    exact if_neg fun hspace => absurd (w.plain ' ' hspace).1 (by decide)
  have hstray : w.writtenGap.isStray = true ↔ ¬ w.OnlySpaces := by
    simp [OptionGap.isStray, writtenGap, OnlySpaces]
  rw [OptionSegment.causes]
  change w.writtenKey.causes ++ w.writtenGap.causes w.writtenKey = _
  rw [hname, List.nil_append, OptionGap.causes, strayCauses, name_writtenKey]
  by_cases hspaces : w.OnlySpaces
  · rw [if_neg (mt hstray.mp (not_not_intro hspaces)), if_pos hspaces]
  · simp [hstray.mpr hspaces, hspaces]

theorem strayCauses_eq_nil_iff : w.strayCauses = [] ↔ w.OnlySpaces := by
  simp [strayCauses]

end SpacedOption

/-- **White space in a list of pairs.** Whatever blanks stand in it, the pairs are read, and of two
with one key the later one counts. Each pair with something else than spaces before its opening
quote is reported, and nothing else is. -/
theorem readOptions_spaced {keyword : List Char} (hkeyword : Text.trim keyword = keyword)
    (ws : List SpacedOption) :
    readOptions keyword (keyword ++ ws.flatMap SpacedOption.spelling) =
        (Dict.ofList (ws.map SpacedOption.pair), ws.flatMap SpacedOption.strayCauses) ∧
      ((readOptions keyword (keyword ++ ws.flatMap SpacedOption.spelling)).2 = [] ↔
        ∀ w ∈ ws, w.OnlySpaces) := by
  have hread := readOptions_complete hkeyword (ws.map SpacedOption.segment)
  simp only [List.flatMap_map, List.map_map, Function.comp_def, SpacedOption.spelling_segment,
    SpacedOption.pair_segment, SpacedOption.causes_segment] at hread
  refine ⟨hread, ?_⟩
  rw [hread, List.flatMap_eq_nil_iff]
  simp only [SpacedOption.strayCauses_eq_nil_iff]

/-- A file name with blanks around its key and before its value. -/
def SpacedOption.file (before beforeColon afterColon : List Char)
    (blanks : (before ++ beforeColon ++ afterColon).all Text.isBlank = true) : SpacedOption where
  before := before
  key := "file"
  beforeColon := beforeColon
  afterColon := afterColon
  value := "a.png"
  blanks := List.all_eq_true.mp blanks
  plain := by
    have hall : "file".toList.all (fun c => !Text.isBlank c && c != ':') = true := by
      decide +kernel
    simpa using hall

/-- A no-break space before the key and a line break before the colon are not reported, a tab before
the opening quote is. -/
theorem readOptions_spaced_file :
    readOptions "m:image".toList
        "m:image\u00A0file\n:  \"a.png\"\u00A0file:\t\"a.png\"".toList =
      (Dict.ofList [("file", "a.png"), ("file", "a.png")], [.strayBeforeQuote "file"]) := by
  have htrim : Text.trim "m:image".toList = "m:image".toList := by decide +kernel
  have hread := readOptions_spaced htrim
    [.file ['\u00A0'] ['\n'] [' ', ' '] rfl, .file ['\u00A0'] [] ['\t'] rfl]
  have hspelling : "m:image".toList ++
      [SpacedOption.file ['\u00A0'] ['\n'] [' ', ' '] rfl,
        SpacedOption.file ['\u00A0'] [] ['\t'] rfl].flatMap SpacedOption.spelling =
      "m:image\u00A0file\n:  \"a.png\"\u00A0file:\t\"a.png\"".toList := by
    decide +kernel
  rw [hspelling] at hread
  exact hread.1

/-- Not every white space is accepted where a list may have some: a tab before the opening quote is
reported. -/
theorem not_forall_readOptions_spaced :
    ¬ ∀ ws : List SpacedOption,
      readOptions "m:image".toList ("m:image".toList ++ ws.flatMap SpacedOption.spelling) =
        (Dict.ofList (ws.map SpacedOption.pair), []) := by
  intro hall
  have hnone := congrArg Prod.snd (hall [.file [' '] [] ['\t'] rfl])
  have hspelling : "m:image".toList ++
      [SpacedOption.file [' '] [] ['\t'] rfl].flatMap SpacedOption.spelling =
      "m:image file:\t\"a.png\"".toList := by
    decide +kernel
  have hread : (readOptions "m:image".toList "m:image file:\t\"a.png\"".toList).2 =
      [.strayBeforeQuote "file"] := by
    decide +kernel
  rw [hspelling, hread] at hnone
  cases hnone

end DocTemplate
