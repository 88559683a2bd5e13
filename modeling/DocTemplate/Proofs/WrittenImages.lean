import DocTemplate.Proofs.Assembling
import DocTemplate.Proofs.Dictionaries
import DocTemplate.Proofs.OptionGrammar
import DocTemplate.Proofs.Recutting
import DocTemplate.Template.Encoding

/-!
# Reading back a written image

An image whose options are written out as `key:"value"` pairs is read as the same image. The order of
the pairs does not show, since options are looked at by name; a value may be any text, since quotes
and backslashes are written behind a backslash; and a size is written in decimal. Nothing of that
depends on how the instruction is cut over runs, or the runs over paragraphs.

## Main statements

- `readOptions_written`: pairs that are written are the options that are read
- `readImage_written`: an image is read back from its field
- `Body.parse_writtenImage`: and from the body that the field is all of
-/

namespace DocTemplate

/-! ## Writing options -/

/-- The text with a backslash before every quote and every backslash. -/
def Text.escape (cs : List Char) : List Char :=
  cs.flatMap (fun c => if c = '"' ∨ c = '\\' then ['\\', c] else [c])

/-- An option to be written. -/
structure WrittenOption where
  /-- How many spaces stand before it, apart from one that always does. -/
  moreSpaces : Nat
  key : String
  value : String
  deriving DecidableEq, Repr

namespace WrittenOption

/-- The name and the value. -/
def pair (w : WrittenOption) : String × String := (w.key, w.value)

/-- The pair as it is written, without the spaces before it. -/
def bare (w : WrittenOption) : List Char :=
  w.key.toList ++ ':' :: '"' :: (Text.escape w.value.toList ++ ['"'])

def spelling (w : WrittenOption) : List Char := List.replicate (w.moreSpaces + 1) ' ' ++ w.bare

end WrittenOption

/-- A name that can be written as it is: it has characters, and none of them is blank or a colon. -/
def isPlainName (name : String) : Bool :=
  !name.toList.isEmpty && name.toList.all (fun c => !Text.isBlank c && c ≠ ':')

theorem isPlainName_iff {name : String} :
    isPlainName name = true ↔
      name.toList ≠ [] ∧ ∀ c ∈ name.toList, Text.isBlank c = false ∧ c ≠ ':' := by
  simp [isPlainName]

/-! ## Reading them back -/

theorem Text.trim_spaces_append (n : Nat) (cs : List Char) :
    Text.trim (List.replicate n ' ' ++ cs) = Text.trim cs := by
  have hspaces : (List.replicate n ' ').all Text.isBlank = true := by simp [Text.isBlank]
  rw [Text.trim, Text.trimLeft_append_of_all hspaces, ← Text.trim]

theorem Text.trim_of_not_isBlank {cs : List Char} (h : ∀ c ∈ cs, Text.isBlank c = false) :
    Text.trim cs = cs := by
  have hdrop : ∀ ds : List Char, (∀ c ∈ ds, Text.isBlank c = false) →
      ds.dropWhile Text.isBlank = ds := by
    intro ds hds
    cases ds with
    | nil => rfl
    | cons d ds => simp [hds d]
  rw [Text.trim, Text.trimLeft, hdrop cs h, Text.trimRight, hdrop cs.reverse (by simpa using h),
    List.reverse_reverse]

/-- Every text can be written as a value. -/
def ValueChar.ofChar (c : Char) : ValueChar :=
  if h : c = '"' ∨ c = '\\' then .escaped c else .plain c (not_or.mp h)

theorem ValueChar.spelling_ofChar (c : Char) :
    (ofChar c).spelling = if c = '"' ∨ c = '\\' then ['\\', c] else [c] := by
  unfold ofChar
  split <;> rfl

theorem ValueChar.meaning_ofChar (c : Char) : (ofChar c).meaning = c := by
  unfold ofChar
  split <;> rfl

namespace WrittenOption

variable {w : WrittenOption} {ws : List WrittenOption}

/-- A pair with spaces before it is a complete pair of the grammar, and nothing is wrong with it. -/
theorem exists_segment (hname : isPlainName w.key = true) (spaces : Nat) :
    ∃ s : OptionSegment, s.spelling = List.replicate spaces ' ' ++ w.bare ∧ s.pair = w.pair ∧
      s.causes = [] := by
  obtain ⟨-, hplain⟩ := isPlainName_iff.mp hname
  have hcolon : ':' ∉ List.replicate spaces ' ' ++ w.key.toList := by
    intro hmem
    rcases List.mem_append.mp hmem with hmem | hmem
    · exact absurd (List.eq_of_mem_replicate hmem) (by decide)
    · exact (hplain ':' hmem).2 rfl
  have htrim : Text.trim (List.replicate spaces ' ' ++ w.key.toList) = w.key.toList := by
    rw [Text.trim_spaces_append, Text.trim_of_not_isBlank fun c hc => (hplain c hc).1]
  refine ⟨⟨⟨_, hcolon⟩, .empty, w.value.toList.map .ofChar⟩, ?_, ?_, ?_⟩
  · simp [OptionSegment.spelling, OptionGap.empty, bare, Text.escape, List.flatMap_map,
      ValueChar.spelling_ofChar]
  · simp [OptionSegment.pair, OptionKey.name, htrim, pair, ValueChar.meaning_ofChar,
      Function.comp_def]
  · have hspace : ' ' ∉ w.key.toList := fun hmem => absurd (hplain ' ' hmem).1 (by decide)
    simp [OptionSegment.causes, OptionKey.causes, OptionKey.name, htrim, hspace, OptionGap.causes,
      OptionGap.empty, OptionGap.isStray]

theorem exists_segments (hnames : ∀ w ∈ ws, isPlainName w.key = true) :
    ∃ segments : List OptionSegment,
      segments.flatMap OptionSegment.spelling = ws.flatMap spelling ∧
      segments.map OptionSegment.pair = ws.map pair ∧
      segments.flatMap OptionSegment.causes = [] := by
  induction ws with
  | nil => exact ⟨[], rfl, rfl, rfl⟩
  | cons w ws ih =>
    obtain ⟨hname, hrest⟩ := List.forall_mem_cons.mp hnames
    obtain ⟨s, hspelling, hpair, hcauses⟩ := exists_segment hname (w.moreSpaces + 1)
    obtain ⟨segments, hspellings, hpairs, hnone⟩ := ih hrest
    exact ⟨s :: segments, by simp [hspelling, hspellings, spelling], by simp [hpair, hpairs],
      by simp [hcauses, hnone]⟩

/-- A plain name starts with a character that no trimming removes, and a pair ends with its
quote. -/
theorem exists_bare_eq (hname : isPlainName w.key = true) :
    ∃ c cs, w.bare = c :: cs ++ ['"'] ∧ Text.isBlank c = false := by
  obtain ⟨hne, hplain⟩ := isPlainName_iff.mp hname
  obtain ⟨c, cs, hkey⟩ := List.exists_cons_of_ne_nil hne
  refine ⟨c, cs ++ ':' :: '"' :: Text.escape w.value.toList, by simp [bare, hkey], ?_⟩
  exact (hplain c (by simp [hkey])).1

theorem trimRight_spelling (ws : List WrittenOption) :
    Text.trimRight (ws.flatMap spelling) = ws.flatMap spelling := by
  rcases List.eq_nil_or_concat' ws with rfl | ⟨init, last, rfl⟩
  · rfl
  · have hquote : (init ++ [last]).flatMap spelling =
        init.flatMap spelling ++ List.replicate (last.moreSpaces + 1) ' ' ++
          last.key.toList ++ ':' :: '"' :: Text.escape last.value.toList ++ ['"'] := by
      simp [spelling, bare]
    rw [hquote, Text.trimRight_append_cons rfl]
    rfl

/-- Nothing is trimmed from a text that starts with a character and goes on with options. -/
theorem trim_append {c : Char} (hc : Text.isBlank c = false) (cs : List Char)
    (ws : List WrittenOption) :
    Text.trim (c :: cs ++ '"' :: ws.flatMap spelling) = c :: cs ++ '"' :: ws.flatMap spelling := by
  rw [Source.Item.trim_keyword cs _ hc (by rfl), trimRight_spelling]

end WrittenOption

namespace OptionList

variable (segments : List OptionSegment)

theorem spelling_ofSegments :
    (ofSegments segments).spelling = segments.flatMap OptionSegment.spelling := by
  simp [spelling, ofSegments, OptionTail.spelling, OptionKey.empty]

theorem options_ofSegments :
    (ofSegments segments).options = Dict.ofList (segments.map OptionSegment.pair) := by
  simp [options, ofSegments, OptionTail.pairs, OptionTail.spelling, OptionKey.empty]

theorem causes_ofSegments :
    (ofSegments segments).causes = segments.flatMap OptionSegment.causes := by
  simp [causes, ofSegments, OptionTail.causes, OptionTail.headCauses, OptionTail.spelling,
    OptionKey.empty]

/-- Reading a trimmed text that some pairs spell gives these pairs. -/
theorem readOptionList_trim {cs : List Char} (h : (ofSegments segments).spelling = Text.trim cs) :
    readOptionList (Text.trim cs) =
      (Dict.ofList (segments.map OptionSegment.pair),
        segments.flatMap OptionSegment.causes) := by
  rw [readOptionList, ← h, foldl_step_eq, read_spelling, finish_scan h, options_ofSegments,
    causes_ofSegments]

end OptionList

section

variable {c : Char} (word : List Char) {w : WrittenOption} {ws : List WrittenOption}

/-- An instruction that is a word and options is as it is written. -/
theorem trim_written (hc : Text.isBlank c = false) :
    Text.trim (c :: word ++ (w :: ws).flatMap WrittenOption.spelling) =
      c :: word ++ (w :: ws).flatMap WrittenOption.spelling := by
  have hsplit : c :: word ++ (w :: ws).flatMap WrittenOption.spelling =
      c :: (word ++ List.replicate (w.moreSpaces + 1) ' ' ++ w.key.toList ++
        ':' :: '"' :: Text.escape w.value.toList) ++ '"' :: ws.flatMap WrittenOption.spelling := by
    simp [WrittenOption.spelling, WrittenOption.bare]
  rw [hsplit, WrittenOption.trim_append hc]

/-- **Pairs that are written are the options that are read,** and nothing is wrong with them. -/
theorem readOptions_written (hc : Text.isBlank c = false)
    (hnames : ∀ w' ∈ w :: ws, isPlainName w'.key = true) :
    readOptions (c :: word) (c :: word ++ (w :: ws).flatMap WrittenOption.spelling) =
      (Dict.ofList ((w :: ws).map WrittenOption.pair), []) := by
  obtain ⟨hname, hrest⟩ := List.forall_mem_cons.mp hnames
  -- The spaces before the first pair are trimmed away, those before the others belong to the keys.
  obtain ⟨first, hspelling, hpair, hcauses⟩ := WrittenOption.exists_segment hname 0
  obtain ⟨segments, hspellings, hpairs, hnone⟩ := WrittenOption.exists_segments hrest
  have hlist : (OptionList.ofSegments (first :: segments)).spelling =
      Text.trim ((w :: ws).flatMap WrittenOption.spelling) := by
    obtain ⟨d, ds, hbare, hd⟩ := WrittenOption.exists_bare_eq hname
    have htrim := WrittenOption.trim_append hd ds ws
    rw [List.flatMap_cons, WrittenOption.spelling, List.append_assoc, Text.trim_spaces_append,
      hbare, List.append_assoc, List.singleton_append, htrim]
    simp [OptionList.spelling_ofSegments, hspelling, hspellings, hbare]
  have hprefix : (c :: word).isPrefixOf? (c :: word ++ (w :: ws).flatMap WrittenOption.spelling) =
      some ((w :: ws).flatMap WrittenOption.spelling) :=
    List.isPrefixOf?_eq_some_iff_append_eq.mpr rfl
  rw [readOptions, trim_written word hc, hprefix]
  refine (OptionList.readOptionList_trim _ hlist).trans ?_
  simp [hpair, hpairs, hcauses, hnone]

end

/-! ## Sizes -/

theorem Numeral.foldl_digits {ds : List Char} (hdigits : ∀ c ∈ ds, c.isDigit = true) (init : Nat) :
    ds.foldl (fun n c => 10 * n + digitValue c) init = Nat.ofDigitChars 10 ds init := by
  induction ds generalizing init with
  | nil => simp
  | cons c ds ih =>
    obtain ⟨hc, hrest⟩ := List.forall_mem_cons.mp hdigits
    rw [List.foldl_cons, Nat.ofDigitChars_cons, ih hrest]
    simp [digitValue, hexValue?, hc]

/-- A number in decimal below a bound is read as that number. -/
theorem Numeral.unsignedBelow?_toDigits {n bound : Nat} (h : n < bound) :
    unsignedBelow? bound (Nat.toDigits 10 n) = some n := by
  have hdigits : ∀ c ∈ Nat.toDigits 10 n, c.isDigit = true :=
    fun c hc => Nat.isDigit_of_mem_toDigits (by decide) (by decide) hc
  have hsign : ∀ ds, Nat.toDigits 10 n ≠ '+' :: ds := by
    intro ds hds
    exact absurd (hdigits '+' (by simp [hds])) (by decide)
  have hcapped : capped 10 bound (Nat.toDigits 10 n) = n := by
    rw [capped_eq_min (by decide), value, foldl_digits hdigits, Nat.ofDigitChars_ten_toDigits]
    exact Nat.min_eq_right (Nat.le_of_lt h)
  have hall : (Nat.toDigits 10 n).all Char.isDigit = true := List.all_eq_true.mpr hdigits
  unfold unsignedBelow?
  split
  next ds hds => exact absurd hds (hsign ds)
  next => simp [hall, hcapped, h, Option.filter]

theorem size_toString (n : UInt32) :
    (Numeral.unsignedBelow? UInt32.size (toString n).toList).map UInt32.ofNat = some n := by
  have htext : (toString n).toList = Nat.toDigits 10 n.toNat := by
    show (toString n.toNat).toList = _
    simp
  rw [htext, Numeral.unsignedBelow?_toDigits n.toNat_lt_size]
  simp

/-! ## Images -/

/-- The options of an image, in the order of their names, with what is written for each. The legend
position may be left out. -/
def ImageOptions.values (o : ImageOptions) (withPosition : Bool) : List (String × Option String) :=
  [(OptionName.file, o.fileName),
    (OptionName.height, o.height.map toString),
    (OptionName.legend, o.legend),
    (OptionName.legendPosition, if withPosition then some o.legendPosition.word else none),
    (OptionName.width, o.width.map toString)]

/-- The pairs that are written for an image, in the order of their names. -/
def ImageOptions.pairs (o : ImageOptions) (withPosition : Bool) : List (String × String) :=
  (o.values withPosition).filterMap (fun v => v.2.map (v.1, ·))

namespace ImageOptions

variable (o : ImageOptions) (withPosition : Bool)

theorem sorted_pairs : Dict.Sorted (o.pairs withPosition) := by
  have hkeys : ((o.values withPosition).map Prod.fst).Pairwise (· < ·) := by
    show [OptionName.file, OptionName.height, OptionName.legend, OptionName.legendPosition,
      OptionName.width].Pairwise (· < ·)
    decide
  rw [Dict.Sorted, pairs, List.pairwise_filterMap]
  refine (List.pairwise_map.mp hkeys).imp ?_
  intro v v' hlt e he e' he'
  obtain ⟨x, -, rfl⟩ := Option.map_eq_some_iff.mp he
  obtain ⟨x', -, rfl⟩ := Option.map_eq_some_iff.mp he'
  exact hlt

/-- Whatever their order, the written pairs are the entries of one dictionary. -/
theorem entries_ofList {pairs : List (String × String)} (h : pairs.Perm (o.pairs withPosition)) :
    (Dict.ofList pairs).entries = o.pairs withPosition := by
  have hsorted := o.sorted_pairs withPosition
  have hdistinct : ((o.pairs withPosition).map Prod.fst).Nodup :=
    Dict.nodup_keys ⟨_, hsorted⟩
  have hkeys : (pairs.map Prod.fst).Nodup := (h.map Prod.fst).nodup_iff.mpr hdistinct
  have hsame : Dict.ofList pairs = ⟨o.pairs withPosition, hsorted⟩ :=
    Dict.eq_of_entries_perm ((Dict.entries_ofList_perm hkeys).trans h)
  rw [hsame]

theorem mem_pairs_iff {e : String × String} :
    e ∈ o.pairs withPosition ↔ (e.1, some e.2) ∈ o.values withPosition := by
  simp only [pairs, List.mem_filterMap, Option.map_eq_some_iff]
  constructor
  · rintro ⟨v, hv, x, hx, rfl⟩
    rwa [← hx]
  · intro hv
    exact ⟨_, hv, e.2, rfl, rfl⟩

/-- All names are those of image options, and they can be written as they are. -/
theorem name_of_mem_pairs {e : String × String} (h : e ∈ o.pairs withPosition) :
    e.1 ∈ OptionName.ofImage := by
  have hmem := List.mem_map_of_mem (f := Prod.fst) ((o.mem_pairs_iff withPosition).mp h)
  have hnames : ∀ name ∈ (o.values withPosition).map Prod.fst, name ∈ OptionName.ofImage := by
    show ∀ name ∈ [OptionName.file, OptionName.height, OptionName.legend,
      OptionName.legendPosition, OptionName.width], name ∈ OptionName.ofImage
    decide
  exact hnames e.1 hmem

/-- Nothing is wrong with them. -/
theorem checkOption_pairs {e : String × String} (h : e ∈ o.pairs withPosition) :
    checkOption OptionName.ofImage e.1 e.2 = none := by
  have hknown : OptionName.ofImage.contains e.1 = true := by
    simpa using o.name_of_mem_pairs withPosition h
  have hposition : e.1 = OptionName.legendPosition → e.2 = "above" ∨ e.2 = "below" := by
    intro hkey
    have hmem := (o.mem_pairs_iff withPosition).mp h
    rw [hkey] at hmem
    -- Only one of the options has this name.
    have hword : withPosition = true ∧ e.2 = o.legendPosition.word := by
      simpa [values, OptionName.file, OptionName.height, OptionName.legend,
        OptionName.legendPosition, OptionName.width] using hmem
    rw [hword.2]
    cases o.legendPosition with
    | above => exact .inl rfl
    | below => exact .inr rfl
  have hvalue : ¬ ((decide (e.1 = OptionName.legendPosition) && decide (e.2 ≠ "above") &&
      decide (e.2 ≠ "below")) = true) := by
    simp only [Bool.and_eq_true, decide_eq_true_eq]
    rintro ⟨⟨hkey, habove⟩, hbelow⟩
    rcases hposition hkey with hword | hword
    · exact habove hword
    · exact hbelow hword
  rw [checkOption, hknown, if_neg (by simp), if_neg hvalue]

/-! ### Taking options over -/

/-- Taking over an option that is written for `v`, if any is, leads from one state of the options to
another. -/
def Leads (v : String × Option String) (target target' : ImageOptions) : Prop :=
  match v.2 with
  | none => target' = target
  | some x => applyImageOption v.1 x target = (target', none)

/-- What is done with one option after another. -/
def applyNext (state : ImageOptions × List Cause) (e : String × String) :
    ImageOptions × List Cause :=
  ((applyImageOption e.1 e.2 state.1).1, state.2 ++ (applyImageOption e.1 e.2 state.1).2.toList)

theorem foldl_values_cons {v : String × Option String} {target target' : ImageOptions}
    (h : Leads v target target') (vs : List (String × Option String)) :
    ((v :: vs).filterMap (fun v => v.2.map (v.1, ·))).foldl applyNext (target, []) =
      (vs.filterMap (fun v => v.2.map (v.1, ·))).foldl applyNext (target', []) := by
  obtain ⟨key, value⟩ := v
  cases value with
  | none =>
    obtain rfl : target' = target := h
    rfl
  | some x =>
    have happly : applyImageOption key x target = (target', none) := h
    simp [applyNext, happly]

/-- An option that may be there or not is set to what was written for it. -/
theorem leads_map {α : Type} (key : String) (write : α → String) (set : Option α → ImageOptions)
    (hset : ∀ a, applyImageOption key (write a) (set none) = (set (some a), none))
    (x : Option α) : Leads (key, x.map write) (set none) (set x) := by
  cases x with
  | none => rfl
  | some a => exact hset a

/-- The file is looked up before and not taken over. -/
theorem leads_file (file : Option String) (target : ImageOptions) :
    Leads (OptionName.file, file) target target := by
  cases file with
  | none => rfl
  | some x =>
    simp [Leads, applyImageOption, OptionName.file, OptionName.height, OptionName.legend,
      OptionName.legendPosition, OptionName.width]

/-- A position that is not written is the usual one. -/
theorem leads_position {target : ImageOptions} (h : target.legendPosition = .below)
    {position : LegendPosition} {withPosition : Bool}
    (hposition : withPosition = true ∨ position = .below) :
    Leads (OptionName.legendPosition, if withPosition then some position.word else none) target
      { target with legendPosition := position } := by
  cases withPosition with
  | false =>
    obtain rfl : position = .below := by simpa using hposition
    show { target with legendPosition := .below } = target
    rw [← h]
  | true => cases position <;> rfl

/-- **The options are taken over as they were written.** -/
theorem applyImageOptions_pairs {o : ImageOptions} {withPosition : Bool} {options : OptionMap}
    (hposition : withPosition = true ∨ o.legendPosition = .below)
    (hentries : options.entries = o.pairs withPosition) :
    applyImageOptions options { fileName := o.fileName } = (o, []) := by
  have hfold : applyImageOptions options { fileName := o.fileName } =
      options.entries.foldl applyNext ({ fileName := o.fileName }, []) := rfl
  -- One option after another is settled, in the order of their names.
  have hheight := leads_map OptionName.height toString
    (fun height => { fileName := o.fileName, height := height })
    (fun n => by simp [applyImageOption, size_toString, OptionName.height, OptionName.legend,
      OptionName.legendPosition]) o.height
  have hlegend := leads_map OptionName.legend id
    (fun legend => { fileName := o.fileName, height := o.height, legend := legend })
    (fun _ => rfl) o.legend
  have hwidth := leads_map OptionName.width toString (fun width => { o with width := width })
    (fun n => by simp [applyImageOption, size_toString, OptionName.height, OptionName.legend,
      OptionName.legendPosition, OptionName.width]) o.width
  rw [Option.map_id, id] at hlegend
  rw [hfold, hentries, pairs, values, foldl_values_cons (leads_file _ _),
    foldl_values_cons hheight, foldl_values_cons hlegend,
    foldl_values_cons (leads_position rfl hposition), foldl_values_cons hwidth]
  rfl

end ImageOptions

theorem Tag.reportAll_nil (t : Tag) : t.reportAll [] = t := by
  simp [reportAll]

/-- What is written for an image with a file. -/
structure ImageOptions.WrittenAs (o : ImageOptions) (ws : List WrittenOption) : Prop where
  file : o.fileName ≠ none
  pairs : ∃ withPosition, (withPosition = true ∨ o.legendPosition = .below) ∧
    (ws.map WrittenOption.pair).Perm (o.pairs withPosition)

section Images

variable {o : ImageOptions} {ws : List WrittenOption} {f : Field}

theorem ImageOptions.WrittenAs.names (h : o.WrittenAs ws) :
    ∀ w ∈ ws, isPlainName w.key = true := by
  obtain ⟨withPosition, -, hpairs⟩ := h.pairs
  intro w hw
  have hmem : w.pair ∈ o.pairs withPosition := hpairs.mem_iff.mp (List.mem_map_of_mem hw)
  have hplain : ∀ name ∈ OptionName.ofImage, isPlainName name = true := by decide
  exact hplain w.key (o.name_of_mem_pairs withPosition hmem)

/-- The pair for the file is always written. -/
theorem ImageOptions.WrittenAs.ne_nil (h : o.WrittenAs ws) : ws ≠ [] := by
  obtain ⟨withPosition, -, hpairs⟩ := h.pairs
  obtain ⟨file, hfile⟩ := Option.ne_none_iff_exists'.mp h.file
  have hmem : (OptionName.file, file) ∈ o.pairs withPosition :=
    (o.mem_pairs_iff withPosition).mpr (by simp [values, hfile])
  rintro rfl
  exact absurd (hpairs.mem_iff.mpr hmem) (by simp)

/-- **An image is read back from its field.** -/
theorem readImage_written (h : o.WrittenAs ws)
    (hf : f.instruction = "m:image".toList ++ ws.flatMap WrittenOption.spelling) :
    readImage f = .image (Tag.ofField f) o := by
  obtain ⟨withPosition, hposition, hpairs⟩ := h.pairs
  obtain ⟨file, hfile⟩ := Option.ne_none_iff_exists'.mp h.file
  have hentries := o.entries_ofList withPosition hpairs
  have hread : readOptions Keyword.image.spelling.toList f.instruction =
      (Dict.ofList (ws.map WrittenOption.pair), []) := by
    obtain ⟨w, ws, rfl⟩ := List.exists_cons_of_ne_nil h.ne_nil
    rw [hf]
    exact readOptions_written (c := 'm') ":image".toList rfl h.names
  have hcheck : checkOptions OptionName.ofImage (Dict.ofList (ws.map WrittenOption.pair)) = [] := by
    rw [checkOptions, hentries]
    exact List.filterMap_eq_nil_iff.mpr fun e he => o.checkOption_pairs withPosition he
  have hget : (Dict.ofList (ws.map WrittenOption.pair)).get? OptionName.file = some file := by
    rw [← Dict.mem_entries_iff, hentries, o.mem_pairs_iff]
    simp [ImageOptions.values, hfile]
  have happly := ImageOptions.applyImageOptions_pairs hposition hentries
  rw [hfile] at happly
  simp only [readImage, hread, hcheck, hget, happly, Tag.reportAll_nil]

end Images

/-! ## Bodies -/

namespace Body

/-- **Image options survive the trip through a document.** A body that is one field with the options
of an image, cut over runs and paragraphs in whatever way, has a template with just this image, and
nothing is reported. -/
theorem parse_writtenImage (s : Setting) (hlimit : 0 < s.limit) (o : ImageOptions)
    (ws : List WrittenOption) (hwritten : o.WrittenAs ws) (opening closing : Run) (inner : List Run)
    (hopening : opening.isOpening = true) (hinner : ∀ r ∈ inner, r.isClosing = false)
    (hclosing : closing.isClosing = true)
    (htext : inner.flatMap Run.instruction =
      "m:image".toList ++ ws.flatMap WrittenOption.spelling)
    (paragraphs : List (List Run))
    (hruns : paragraphs.flatten = opening :: inner ++ [closing]) :
    (Body.parse s (paragraphs.map .paragraph)).result =
        .ok ⟨{}, [.image (Tag.ofField ⟨opening, inner, closing⟩) o]⟩ ∧
      Template.problems ⟨{}, [.image (Tag.ofField ⟨opening, inner, closing⟩) o]⟩ = [] := by
  have hinstruction : Field.instruction ⟨opening, inner, closing⟩ =
      "m:image".toList ++ ws.flatMap WrittenOption.spelling := by
    obtain ⟨w, ws, rfl⟩ := List.exists_cons_of_ne_nil hwritten.ne_nil
    rw [Field.instruction, htext]
    exact trim_written (c := 'm') ":image".toList rfl
  have hkeyword : Keyword.match? (Field.instruction ⟨opening, inner, closing⟩) = some .image := by
    rw [hinstruction]
    rfl
  have htokens : linearTokens (paragraphs.map .paragraph) =
      [.tag .image ⟨opening, inner, closing⟩] := by
    have hread := readField_field (f := ⟨opening, inner, closing⟩) hopening hinner hclosing []
    have hpositions : linearPositions (paragraphs.map .paragraph) =
        .run opening :: (inner.map .run ++ [.run closing]) := by
      simpa [hruns, linearPositions] using linearPositions_paragraphs paragraphs []
    rw [linearTokens, hpositions, linear_tag hread hkeyword, linear_nil]
  have hadds : Adds s 1 [.tag .image ⟨opening, inner, closing⟩]
      [readImage ⟨opening, inner, closing⟩] :=
    Adds.cons (addsOne_single 1 rfl) (adds_nil s 1)
  rw [result_parse, htokens, hadds.ofTokens hlimit, readImage_written hwritten hinstruction]
  exact ⟨rfl, rfl⟩

/-- An image whose file name and legend hold quotes, backslashes, colons and a line break. -/
def quotedImage : ImageOptions where
  fileName := some "a\"b\\.png"
  legend := some "Abb. 1: été\n"
  legendPosition := .above
  height := some 120

/-- What is written for it, the file last. -/
def quotedImageWritten : List WrittenOption :=
  [⟨0, "legendPos", "above"⟩, ⟨2, "legend", "Abb. 1: été\n"⟩, ⟨0, "height", "120"⟩,
    ⟨1, "file", "a\"b\\.png"⟩]

/-- The field is cut inside a value and behind a backslash, and goes over two paragraphs. -/
theorem parse_writtenImage_quotedImage :
    ∃ tag, (Body.parse { compile := .fixed [] }
      [.paragraph [{ id := 0, mark := some .opening },
          { id := 1, fragments := ["m:image legendPos:\"above\"   legend:\"Abb", ". 1: ét"] }],
        .paragraph [{ id := 2, fragments := ["é\n\" height:\"120\"  file:\"a\\"] },
          { id := 3, fragments := ["\"b\\\\.png\""] },
          { id := 4, mark := some .closing }]]).result = .ok ⟨{}, [.image tag quotedImage]⟩ := by
  have hwritten : quotedImage.WrittenAs quotedImageWritten :=
    ⟨by decide, true, .inl rfl, by decide +kernel⟩
  refine ⟨_, (parse_writtenImage _ (by decide) _ _ hwritten { id := 0, mark := some .opening }
    { id := 4, mark := some .closing }
    [{ id := 1, fragments := ["m:image legendPos:\"above\"   legend:\"Abb", ". 1: ét"] },
      { id := 2, fragments := ["é\n\" height:\"120\"  file:\"a\\"] },
      { id := 3, fragments := ["\"b\\\\.png\""] }]
    rfl (by decide) rfl (by decide +kernel) [[_, _], [_, _, _]] rfl).1⟩

end Body

end DocTemplate
