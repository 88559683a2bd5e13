import DocTemplate.Proofs.OptionEffects

/-!
# Valid images

An image is checked in three places: while its option list is read, when the names of its options
are compared with those that an image has, and when the options are taken over. Together they report
nothing exactly for the tags that are valid, and an image that is not valid still has what its
options say about it, unless it lacks a file.

## Main statements

- `readImage_eq`: everything that an image reports
- `imageCauses_eq_nil_iff`: the options that nothing is reported of
- `Session.readImage_errorFree_iff`: an image reports nothing exactly if it is valid
-/

namespace DocTemplate

/-! ## What an image asks of its options -/

/-- Options that an image can have as they are. -/
structure OptionMap.DescribesImage (m : OptionMap) : Prop where
  file : ∃ name, m.get? "file" = some name
  known : ∀ key ∈ m.keys, key ∈ ["file", "height", "width", "legend", "legendPos"]
  position : ∀ value, m.get? "legendPos" = some value → value = "above" ∨ value = "below"
  height : ∀ value, m.get? "height" = some value → Numeral.IsSize value
  width : ∀ value, m.get? "width" = some value → Numeral.IsSize value

/-- A value that is no size is reported for this key. -/
def Cause.isSizeOf (key : String) : Cause → Bool
  | .notAnInteger name _ => name = key
  | _ => false

/-- What an image makes of its options, valid or not, and which of its reports come from that. -/
structure ImageOptions.OfImage (m : OptionMap) (o : ImageOptions) (causes : List Cause) :
    Prop where
  /-- Without a file nothing is taken over, and the lack of it is reported once. -/
  withoutFile : m.get? "file" = none →
    o = {} ∧ causes.filter (· = .imageWithoutFile) = [.imageWithoutFile]
  /-- With a file everything is taken over that stands for something. -/
  withFile : ∀ name, m.get? "file" = some name →
    o.fileName = some name ∧ o.TakenOver m ∧ .imageWithoutFile ∉ causes
  /-- Then a height or a width that is no size is reported, once. -/
  sizes : ∀ name, m.get? "file" = some name → ∀ key, key = "height" ∨ key = "width" →
    causes.filter (·.isSizeOf key) =
      match m.get? key with
      | none => []
      | some value => if Numeral.IsSize value then [] else [.notAnInteger key value]

/-! ## Reading an image -/

/-- What is reported of an image's options. -/
def imageCauses (m : OptionMap) : List Cause :=
  checkOptions OptionName.ofImage m ++
    if (m.get? "file").isSome then sizeCauses m else [.imageWithoutFile]

/-- The options that an image has. -/
def imageOptions (m : OptionMap) : ImageOptions :=
  match m.get? "file" with
  | none => {}
  | some name => (applyImageOptions m { fileName := some name }).1

/-- **Everything that an image reports**, in the order in which it does. -/
theorem readImage_eq {f : Field} {written : List Char} {l : OptionList}
    (hwritten : f.instruction = "m:image".toList ++ written)
    (hl : l.spelling = Text.trim written) :
    readImage f =
      .image ((Tag.ofField f).reportAll (l.causes ++ imageCauses l.options))
        (imageOptions l.options) := by
  have hread : readOptions Keyword.image.spelling.toList f.instruction = (l.options, l.causes) :=
    f.readOptions_eq hwritten hl
  simp only [readImage, hread, imageCauses, imageOptions, OptionName.file]
  cases l.options.get? "file" with
  | none => simp only [Tag.reportAll_append, List.append_assoc]; rfl
  | some name =>
    simp only [Tag.reportAll_append, List.append_assoc, applyImageOptions_causes_eq]
    rfl

section Options

variable (m : OptionMap)

/-- **Nothing is reported of the options that an image can have as they are,** and something of all
others. -/
theorem imageCauses_eq_nil_iff : imageCauses m = [] ↔ m.DescribesImage := by
  rw [imageCauses, List.append_eq_nil_iff, checkOptions_eq_nil_iff]
  cases hfile : m.get? "file" with
  | none =>
    -- The lack of a file is reported whatever the other options are.
    refine iff_of_false (fun h => absurd h.2 (by simp)) (fun h => ?_)
    obtain ⟨name, hname⟩ := h.file
    rw [hfile] at hname
    cases hname
  | some name =>
    rw [Option.isSome_some, if_pos rfl, sizeCauses_eq_nil_iff]
    constructor
    · rintro ⟨⟨hknown, hposition⟩, hheight, hwidth⟩
      exact ⟨⟨name, hfile⟩, hknown, hposition, hheight, hwidth⟩
    · intro h
      exact ⟨⟨h.known, h.position⟩, h.height, h.width⟩

/-- Of the sizes, one is reported once, and only if it is there. -/
theorem filter_sizeCauses {key : String} (hkey : key = "height" ∨ key = "width") :
    (sizeCauses m).filter (·.isSizeOf key) =
      match m.get? key with
      | none => []
      | some value => if Numeral.IsSize value then [] else [.notAnInteger key value] := by
  -- What is reported of the other size has another name.
  have hother : ∀ e : String × String, e.1 ≠ key →
      (sizeCause? e.1 e.2).filter (·.isSizeOf key) = none := by
    intro e hne
    rw [sizeCause?]
    split <;> simp [Cause.isSizeOf, hne]
  rw [sizeCauses, List.filter_filterMap, m.filterMap_entries_eq key _ hother]
  cases m.get? key with
  | none => rfl
  | some value => by_cases hsize : Numeral.IsSize value <;> simp [sizeCause?, hkey, hsize,
      Cause.isSizeOf]

theorem imageWithoutFile_not_mem_sizeCauses : Cause.imageWithoutFile ∉ sizeCauses m := by
  intro hmem
  obtain ⟨e, -, hcause⟩ := List.mem_filterMap.mp hmem
  rw [sizeCause?] at hcause
  split at hcause <;> cases hcause

/-- What an image makes of its options, whatever else is reported of its list. -/
theorem imageOptions_ofImage (l : OptionList) :
    (imageOptions l.options).OfImage l.options (l.causes ++ imageCauses l.options) where
  withoutFile hfile := by
    have hwritten := l.filter_causes (p := (· = .imageWithoutFile)) (by simp) (by simp) (by simp)
    have hchecked := filter_checkOptions OptionName.ofImage l.options
      (p := (· = .imageWithoutFile)) (by simp) (by simp)
    simp [imageOptions, imageCauses, hfile, hwritten, hchecked]
  withFile name hfile := by
    have hoptions : imageOptions l.options =
        (applyImageOptions l.options { fileName := some name }).1 := by
      rw [imageOptions, hfile]
    rw [hoptions]
    refine ⟨applyImageOptions_fileName _ _, applyImageOptions_takenOver _ _, fun hmem => ?_⟩
    have hwritten := l.filter_causes (p := (· = .imageWithoutFile)) (by simp) (by simp) (by simp)
    have hchecked := filter_checkOptions OptionName.ofImage l.options
      (p := (· = .imageWithoutFile)) (by simp) (by simp)
    rw [List.filter_eq_nil_iff] at hwritten hchecked
    rcases List.mem_append.mp hmem with hmem | hmem
    · exact hwritten _ hmem (by simp)
    · rw [imageCauses, hfile, Option.isSome_some, if_pos rfl] at hmem
      rcases List.mem_append.mp hmem with hmem | hmem
      · exact hchecked _ hmem (by simp)
      · exact imageWithoutFile_not_mem_sizeCauses l.options hmem
  sizes name hfile key hkey := by
    have hwritten := l.filter_causes (p := (·.isSizeOf key)) (fun _ _ => rfl) (fun _ => rfl)
      (fun _ => rfl)
    have hchecked := filter_checkOptions OptionName.ofImage l.options (p := (·.isSizeOf key))
      (fun _ => rfl) (fun _ _ => rfl)
    rw [← filter_sizeCauses l.options hkey]
    simp [imageCauses, hfile, hwritten, hchecked]

end Options

/-! ## At a field -/

namespace Session

/-- **An image reports nothing exactly if it is valid.** Where a complete field says that it is an
image, the image is read and the session goes on behind the field. There is one option list that is
spelled behind the keyword; nothing is reported exactly if this list is well formed and an image can
have its options as they are. Whether or not that is so, the image has what its options say about
it, unless they have no file. -/
theorem readImage_errorFree_iff (s : Session) {f : Field} {rest : List Position}
    {written : List Char} (hfield : f.StandsAt s.cursor.rest rest)
    (hwritten : f.instruction = "m:image".toList ++ written) :
    ∃ (l : OptionList) (causes : List Cause) (tag : Tag) (o : ImageOptions),
      (l.spelling = Text.trim written ∧
        ∀ l' : OptionList, l'.spelling = Text.trim written → l' = l) ∧
      s.readImage =
        (.ok (.image tag o), { s with cursor := s.cursor.forward (f.inner.length + 2) }) ∧
      tag = (Tag.ofField f).reportAll causes ∧
      (tag.problems = [] ↔ l.IsWellFormed ∧ l.options.DescribesImage) ∧
      o.OfImage l.options causes := by
  obtain ⟨l, hl, hunique⟩ := OptionList.exists_unique_spelling (Text.trim written)
  refine ⟨l, _, _, _, ⟨hl, hunique⟩, ?_, rfl, ?_, imageOptions_ofImage l⟩
  · rw [readImage, readWith_of_standsAt hfield, readImage_eq hwritten hl]
  · rw [← OptionList.causes_eq_nil_iff, ← imageCauses_eq_nil_iff, ← List.append_eq_nil_iff]
    exact List.map_eq_nil_iff

/-- A field that is cut inside its keyword, with a width that does not fit into 32 bits. -/
def tooWideField : Field where
  opening := { id := 0, mark := some .opening }
  inner :=
    [{ id := 1, fragments := [" m:im"] },
      { id := 2, fragments := ["age file:\"a.png\" height: \"+080\" width:\"4294967296\"",
          " legendPos:\"above\""] }]
  closing := { id := 3, mark := some .closing }

/-- What stands behind its keyword. -/
def tooWideOptions : List Char := tooWideField.instruction.drop "m:image".length

/-- A session before this field. -/
def beforeTooWide : Session where
  setting := { compile := .fixed [] }
  cursor :=
    { positions :=
        tooWideField.opening :: tooWideField.inner ++ [tooWideField.closing] |>.map .run }

/-- The width is reported, and everything else is taken over. -/
theorem readImage_errorFree_iff_tooWide :
    ∃ tag o, beforeTooWide.readImage.1 = .ok (.image tag o) ∧ tag.problems ≠ [] ∧
      o.height = some 80 ∧ o.width = none ∧ o.legendPosition = .above := by
  have hfield : tooWideField.StandsAt beforeTooWide.cursor.rest [] :=
    ⟨rfl, rfl, by decide +kernel, rfl⟩
  have hwritten : tooWideField.instruction = "m:image".toList ++ tooWideOptions := by
    decide +kernel
  obtain ⟨l, causes, tag, o, ⟨-, hunique⟩, hread, -, hvalid, himage⟩ :=
    readImage_errorFree_iff beforeTooWide hfield hwritten
  have hentries : l.options.entries =
      [("file", "a.png"), ("height", "+080"), ("legendPos", "above"), ("width", "4294967296")] := by
    rw [← hunique _ (OptionList.spelling_read _)]
    decide +kernel
  have hwidth : l.options.get? "width" = some "4294967296" := by simp [Dict.get?, hentries]
  have htoowide : ¬ Numeral.IsSize "4294967296" := by decide +kernel
  obtain ⟨-, htaken, -⟩ := himage.withFile "a.png" (by simp [Dict.get?, hentries])
  refine ⟨tag, o, by rw [hread], fun hnone => ?_, ?_, ?_, ?_⟩
  · exact htoowide ((hvalid.mp hnone).2.width _ hwidth)
  · have heighty : Numeral.IsDecimal "080".toList 80 :=
      ⟨by decide, List.all_eq_true.mp (by decide), by decide⟩
    exact (htaken.height 80).mpr ⟨"+080", by simp [Dict.get?, hentries], .signed heighty⟩
  · have hnone := htaken.width
    rw [hwidth] at hnone
    exact hnone.eq_none htoowide
  · exact htaken.position.mpr (by simp [Dict.get?, hentries])

end Session

end DocTemplate
