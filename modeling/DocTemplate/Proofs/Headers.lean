import DocTemplate.Parse.Levels

/-!
# What a field makes of its own tag

A field is understood without regard to what is open around it. Its tag has the runs and the style
run of the field and no closing runs, and the problems that are found in the field concern the field
alone: none of them says that a tag is out of place or that a conditional is left open.
-/

namespace DocTemplate

/-! ## Structural problems -/

/-- The cause concerns how tags are nested, not what a single tag says. -/
def Cause.isStructural : Cause → Bool
  | .unexpected _ | .conditionalLeftOpen => true
  | _ => false

/-- The problem concerns how tags are nested. -/
def Problem.isStructural (p : Problem) : Bool := p.cause.isStructural

/-- The two codes of structural problems are used for nothing else. -/
theorem Cause.isStructural_iff_code (c : Cause) :
    c.isStructural = true ↔ c.code = "W100" ∨ c.code = "W103" := by
  cases c <;> simp [isStructural, code]

theorem Problem.isStructural_iff_code (p : Problem) :
    p.isStructural = true ↔ p.code = "W100" ∨ p.code = "W103" :=
  p.cause.isStructural_iff_code

/-! ## Tags of a field -/

/-- The tag `t` is the tag of the field `f` with problems of that field alone. -/
structure Tag.Describes (t : Tag) (f : Field) : Prop where
  runs : t.runs = f.runs
  closingRuns : t.closingRuns = []
  styleRun : t.styleRun = styleRun? f.inner
  problems : ∀ p ∈ t.problems, p.isStructural = false

namespace Tag.Describes

theorem ofField (f : Field) : (Tag.ofField f).Describes f where
  runs := by simp [Tag.ofField, Tag.absorb]
  closingRuns := rfl
  styleRun := by simp [Tag.ofField, Tag.absorb]
  problems := by simp [Tag.ofField, Tag.absorb]

variable {t : Tag} {f : Field}

theorem report (h : t.Describes f) (cause : Cause) (hcause : cause.isStructural = false)
    (run : Option RunId) : (t.report cause run).Describes f where
  runs := h.runs
  closingRuns := h.closingRuns
  styleRun := h.styleRun
  problems := by
    intro p hp
    rcases List.mem_append.mp hp with hp | hp
    · exact h.problems p hp
    · rw [List.mem_singleton.mp hp]
      exact hcause

theorem reportAll (h : t.Describes f) {causes : List Cause}
    (hcauses : ∀ c ∈ causes, c.isStructural = false) : (t.reportAll causes).Describes f where
  runs := h.runs
  closingRuns := h.closingRuns
  styleRun := h.styleRun
  problems := by
    intro p hp
    rcases List.mem_append.mp hp with hp | hp
    · exact h.problems p hp
    · obtain ⟨c, hc, rfl⟩ := List.mem_map.mp hp
      exact hcauses c hc

theorem compileFor (h : t.Describes f) (s : Setting) (anchor : Option RunId) (source : String) :
    (s.compileFor t anchor source).2.Describes f := by
  rw [Setting.compileFor]
  split
  · exact h
  · exact h.report (.invalidExpression _ _) rfl anchor

end Tag.Describes

/-! ## Option lists -/

namespace OptionScan

/-- The causes that a scan has found are not structural. -/
def CausesLocal (scan : OptionScan) : Prop := ∀ c ∈ scan.causes, c.isStructural = false

theorem CausesLocal.step {scan : OptionScan} (h : scan.CausesLocal) (c : Char) :
    (scan.step c).CausesLocal := by
  intro cause hmem
  unfold OptionScan.step at hmem
  -- A cause is added where a key with a space ends and at the first stray before a quote.
  split at hmem
  · split at hmem
    · simp only [OptionScan.endKey] at hmem
      split at hmem
      · rcases List.mem_cons.mp hmem with rfl | hmem
        · rfl
        · exact h cause hmem
      · exact h cause hmem
    · exact h cause hmem
  · split at hmem
    · exact h cause hmem
    · split at hmem
      · rcases List.mem_cons.mp hmem with rfl | hmem
        · rfl
        · exact h cause hmem
      · exact h cause hmem
  · split at hmem
    · exact h cause hmem
    · split at hmem <;> exact h cause hmem
  · exact h cause hmem

theorem CausesLocal.foldl {cs : List Char} {scan : OptionScan} (h : scan.CausesLocal) :
    (cs.foldl OptionScan.step scan).CausesLocal := by
  induction cs generalizing scan with
  | nil => exact h
  | cons c cs ih => exact ih (h.step c)

theorem CausesLocal.finish {scan : OptionScan} (h : scan.CausesLocal) :
    ∀ c ∈ scan.finish.2, c.isStructural = false := by
  intro cause hmem
  unfold OptionScan.finish at hmem
  split at hmem
  · rcases List.mem_cons.mp (List.mem_reverse.mp hmem) with rfl | hmem
    · rfl
    · exact h cause hmem
  · exact h cause (List.mem_reverse.mp hmem)

end OptionScan

theorem readOptions_causes (keyword instruction : List Char) :
    ∀ c ∈ (readOptions keyword instruction).2, c.isStructural = false := by
  unfold readOptions
  split
  · simp
  · apply OptionScan.CausesLocal.finish
    apply OptionScan.CausesLocal.foldl
    intro c hc
    cases hc

theorem checkOptions_causes (known : List String) (options : OptionMap) :
    ∀ c ∈ checkOptions known options, c.isStructural = false := by
  intro c hc
  obtain ⟨entry, -, hcheck⟩ := List.mem_filterMap.mp hc
  unfold checkOption at hcheck
  split at hcheck
  · cases hcheck
    rfl
  · split at hcheck <;> cases hcheck
    rfl

theorem applyImageOption_cause (key value : String) (target : ImageOptions) :
    ∀ c ∈ (applyImageOption key value target).2, c.isStructural = false := by
  intro c hc
  unfold applyImageOption at hc
  dsimp only at hc
  -- Only the two sizes can be malformed.
  split at hc
  · cases hc
  · split at hc
    · cases hc
    · split at hc
      · split at hc <;> cases hc
        rfl
      · split at hc
        · split at hc <;> cases hc
          rfl
        · cases hc

theorem applyImageOptions_causes (options : OptionMap) (target : ImageOptions) :
    ∀ c ∈ (applyImageOptions options target).2, c.isStructural = false := by
  -- Each step of the fold adds what one option has to report.
  have hfold : ∀ (step : ImageOptions × List Cause → String × String → ImageOptions × List Cause),
      (∀ acc e, (step acc e).2 = acc.2 ++ (applyImageOption e.1 e.2 acc.1).2.toList) →
      ∀ (entries : List (String × String)) (acc : ImageOptions × List Cause),
        (∀ c ∈ acc.2, c.isStructural = false) →
        ∀ c ∈ (entries.foldl step acc).2, c.isStructural = false := by
    intro step hstep entries
    induction entries with
    | nil => intro acc hacc; exact hacc
    | cons e entries ih =>
      intro acc hacc
      apply ih
      intro c hc
      rw [hstep] at hc
      rcases List.mem_append.mp hc with hc | hc
      · exact hacc c hc
      · exact applyImageOption_cause e.1 e.2 acc.1 c (Option.mem_toList.mp hc)
  exact hfold _ (fun _ _ => rfl) options.entries (target, []) (by simp)

/-! ## Headers -/

theorem readQuery_describes (s : Setting) (f : Field) :
    ∃ tag expression display, readQuery s f = .query tag expression display ∧ tag.Describes f :=
  ⟨_, _, _, rfl, (Tag.Describes.ofField f).compileFor s _ _⟩

theorem readLoop_describes (s : Setting) (f : Field) : (readLoop s f).tag.Describes f := by
  have hfield := Tag.Describes.ofField f
  unfold readLoop
  dsimp only
  split
  · exact hfield.report .loopWithoutSeparator rfl _
  · have hnamed := hfield.report .loopWithoutVariable rfl (Tag.ofField f).anchor?
    dsimp only
    -- The variable and the source may each be missing.
    split <;> split
    · exact hnamed.report .loopWithoutSource rfl _
    · exact hfield.report .loopWithoutSource rfl _
    · exact hnamed.compileFor s _ _
    · exact hfield.compileFor s _ _

theorem readCondition_describes (s : Setting) (f : Field) : (readCondition s f).2.Describes f :=
  (Tag.Describes.ofField f).compileFor s _ _

theorem readImage_describes (f : Field) :
    ∃ tag options, readImage f = .image tag options ∧ tag.Describes f := by
  have hread : ∀ causes, causes = (readOptions Keyword.image.spelling.toList f.instruction).2 →
      ((Tag.ofField f).reportAll causes).Describes f := by
    rintro causes rfl
    exact (Tag.Describes.ofField f).reportAll (readOptions_causes _ _)
  unfold readImage
  dsimp only
  split
  · refine ⟨_, _, rfl, ?_⟩
    apply ((hread _ rfl).reportAll (checkOptions_causes _ _)).reportAll
    simp [Cause.isStructural]
  · refine ⟨_, _, rfl, ?_⟩
    exact ((hread _ rfl).reportAll (checkOptions_causes _ _)).reportAll
      (applyImageOptions_causes _ _)

theorem readExtras_describes (s : Setting) (p : Provider) {tag : Tag} {f : Field}
    (h : tag.Describes f) (options : OptionMap) : (readExtras s p tag options).2.Describes f := by
  unfold readExtras
  generalize options.entries.filter _ = entries
  generalize (Dict.empty : Dict OptionValue) = extras
  induction entries generalizing extras tag with
  | nil => exact h
  | cons e entries ih =>
    obtain ⟨key, value⟩ := e
    rw [List.foldl_cons]
    cases htype : p.options.get? key with
    | none => simpa only [htype] using ih h _
    | some type =>
      cases type with
      | text => simpa only [htype] using ih h _
      | expression => simpa only [htype] using ih (h.compileFor s _ _) _

theorem resolveProvider_cause {providers : Registry} {options : OptionMap} {cause : Cause}
    (h : resolveProvider providers options = .error cause) : cause.isStructural = false := by
  unfold resolveProvider at h
  split at h
  · cases h
    rfl
  · split at h
    · cases h
      rfl
    · split at h <;> cases h
      rfl

theorem readDiagram_describes (s : Setting) (f : Field) :
    ∃ tag options provider extras,
      readDiagram s f = .diagram tag options provider extras ∧ tag.Describes f := by
  have hread : ((Tag.ofField f).reportAll
      (readOptions Keyword.diagram.spelling.toList f.instruction).2).Describes f :=
    (Tag.Describes.ofField f).reportAll (readOptions_causes _ _)
  unfold readDiagram
  dsimp only
  split
  next cause hcause =>
    refine ⟨_, _, _, _, rfl, hread.reportAll ?_⟩
    simpa using resolveProvider_cause hcause
  next p hp =>
    refine ⟨_, _, _, _, rfl, ?_⟩
    apply readExtras_describes
    exact (hread.reportAll (checkOptions_causes _ _)).reportAll (applyImageOptions_causes _ _)

end DocTemplate
