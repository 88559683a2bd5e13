import DocTemplate.Proofs.Agreement

/-!
# Templates up to the numbers of runs

A field is understood from its instruction alone. Which runs it is made of decides where problems are
reported and what a tag lists as its runs, and about nothing else. The anonymous form of a template
forgets the numbers of runs, and fields with the same instruction lead to the same anonymous form.

## Main statements

- `Tag.anonymous_absorb`, `Tag.anonymous_report`: what tags do, up to run numbers
- `Agreement.anonymous`: fields that say the same cannot be told apart
-/

namespace DocTemplate

/-! ## Without run numbers -/

/-- A tag without the numbers of runs. Whether there is a closing field is still to be seen. -/
def Tag.anonymous (t : Tag) : Tag where
  closingRuns := (t.closingRuns.take 1).map fun _ => 0
  problems := t.problems.map fun p => { p with run := none }

/-- An error without the number of its run. -/
def ParseError.anonymous : ParseError → ParseError
  | .tableInsideField _ table => .tableInsideField 0 table
  | .unterminatedField _ => .unterminatedField 0
  | .unsupportedTag k _ => .unsupportedTag k 0
  | e => e

/-- Forget the numbers of runs. -/
def Reduction.anonymous : Reduction where
  text := Tag.anonymous
  tag := Tag.anonymous
  expression e := e
  diagram tag options provider extras := .diagram tag.anonymous options provider extras
  table id := id
  error := ParseError.anonymous

/-- A template without the numbers of runs. -/
def Template.anonymous (t : Template) : Template := t.reduce Reduction.anonymous

namespace Tag

theorem anonymous_opening (t : Tag) (f : Field) :
    (t.absorb .opening f).anonymous = t.anonymous := rfl

theorem anonymous_report (t : Tag) (cause : Cause) (run : Option RunId) :
    (t.report cause run).anonymous = t.anonymous.report cause none := by
  simp [anonymous, report]

theorem anonymous_reportAll (t : Tag) (causes : List Cause) :
    (t.reportAll causes).anonymous = t.anonymous.reportAll causes := by
  simp [anonymous, reportAll, anchor?]

variable {t u : Tag} (h : t.anonymous = u.anonymous)

include h

theorem anonymous_closing (f g : Field) :
    (t.absorb .closing f).anonymous = (u.absorb .closing g).anonymous := by
  have hproblems := congrArg problems h
  simp only [anonymous] at hproblems
  have hrun : ∀ (runs : List RunId) (f : Field),
      ((runs ++ f.runs).take 1).map (fun _ => (0 : RunId)) = [0] := by
    intro runs f
    cases runs <;> simp [Field.runs]
  simp [anonymous, absorb, hrun, hproblems]

theorem anonymous_swallow (k : Keyword) (f g : Field) :
    (t.swallow k f).anonymous = (u.swallow k g).anonymous := by
  simp only [swallow, anonymous_opening, anonymous_report, h]

/-- The expression is that of the text, and the tag learns whether it is valid. -/
theorem anonymous_compileFor (s : Setting) (anchor anchor' : Option RunId) (source : String) :
    (s.compileFor t anchor source).1 = (s.compileFor u anchor' source).1 ∧
      (s.compileFor t anchor source).2.anonymous = (s.compileFor u anchor' source).2.anonymous := by
  simp only [Setting.compileFor]
  split
  · exact ⟨rfl, h⟩
  · simp only [anonymous_report, h, and_self]

end Tag

/-! ## Headers of fields that say the same -/

section Headers

variable (s : Setting) {f g : Field} (h : f.instruction = g.instruction)

include h

theorem readQuery_anonymous :
    (readQuery s f).reduce .anonymous = (readQuery s g).reduce .anonymous := by
  have htag : (Tag.ofField f).anonymous = (Tag.ofField g).anonymous := rfl
  simp only [readQuery, h, Construct.reduce, Reduction.anonymous]
  obtain ⟨hexpression, hcompiled⟩ := Tag.anonymous_compileFor htag s
    ((Tag.ofField f).styleRun <|> (Tag.ofField f).anchor?)
    ((Tag.ofField g).styleRun <|> (Tag.ofField g).anchor?)
    (String.ofList (Text.trim (splitDisplay (Keyword.query.strip g.instruction)).1))
  rw [hexpression, hcompiled]

theorem readLoop_anonymous :
    (readLoop s f).tag.anonymous = (readLoop s g).tag.anonymous ∧
      (readLoop s f).iterator = (readLoop s g).iterator ∧
      (readLoop s f).source = (readLoop s g).source := by
  have htag : (Tag.ofField f).anonymous = (Tag.ofField g).anonymous := rfl
  have hnamed : ((Tag.ofField f).report .loopWithoutVariable (Tag.ofField f).anchor?).anonymous =
      ((Tag.ofField g).report .loopWithoutVariable (Tag.ofField g).anchor?).anonymous := by
    rw [Tag.anonymous_report, Tag.anonymous_report, htag]
  unfold readLoop
  rw [h]
  split
  · simp only [Tag.anonymous_report, htag, and_self]
  · dsimp only
    -- The source may be missing, and independently of that the variable.
    split <;> split
    · simp only [Tag.anonymous_report, htag, and_self]
    · simp only [Tag.anonymous_report, htag, and_self]
    · obtain ⟨hsource, hcompiled⟩ := Tag.anonymous_compileFor hnamed s _ _ _
      exact ⟨hcompiled, rfl, hsource⟩
    · obtain ⟨hsource, hcompiled⟩ := Tag.anonymous_compileFor htag s _ _ _
      exact ⟨hcompiled, rfl, hsource⟩

theorem readCondition_anonymous :
    (readCondition s f).1 = (readCondition s g).1 ∧
      (readCondition s f).2.anonymous = (readCondition s g).2.anonymous := by
  have htag : (Tag.ofField f).anonymous = (Tag.ofField g).anonymous := rfl
  simp only [readCondition, h]
  exact Tag.anonymous_compileFor htag s _ _ _

theorem readImage_anonymous :
    (readImage f).reduce .anonymous = (readImage g).reduce .anonymous := by
  have htag : (Tag.ofField f).anonymous = (Tag.ofField g).anonymous := rfl
  unfold readImage
  rw [h]
  dsimp only
  split <;> simp only [Construct.reduce, Reduction.anonymous, Tag.anonymous_reportAll, htag]

omit h in
theorem readExtras_anonymous (p : Provider) {t u : Tag} (htag : t.anonymous = u.anonymous)
    (options : OptionMap) :
    (readExtras s p t options).1 = (readExtras s p u options).1 ∧
      (readExtras s p t options).2.anonymous = (readExtras s p u options).2.anonymous := by
  unfold readExtras
  generalize options.entries.filter _ = entries
  generalize (Dict.empty : Dict OptionValue) = extras
  induction entries generalizing extras t u with
  | nil => exact ⟨rfl, htag⟩
  | cons e entries ih =>
    obtain ⟨key, value⟩ := e
    simp only [List.foldl_cons]
    cases htype : p.options.get? key with
    | none => exact ih htag _
    | some type =>
      cases type with
      | text => exact ih htag _
      | expression =>
        obtain ⟨hexpression, hcompiled⟩ := Tag.anonymous_compileFor htag s t.anchor? u.anchor? value
        simp only [hexpression]
        exact ih hcompiled _

theorem readDiagram_anonymous :
    (readDiagram s f).reduce .anonymous = (readDiagram s g).reduce .anonymous := by
  have htag : (Tag.ofField f).anonymous = (Tag.ofField g).anonymous := rfl
  unfold readDiagram
  rw [h]
  dsimp only
  split
  · simp only [Construct.reduce, Reduction.anonymous, Tag.anonymous_reportAll, htag]
  next p _ =>
    simp only [Construct.reduce, Reduction.anonymous]
    generalize hf : ((Tag.ofField f).reportAll _ |>.reportAll _).reportAll _ = t
    generalize hg : ((Tag.ofField g).reportAll _ |>.reportAll _).reportAll _ = u
    have hreported : t.anonymous = u.anonymous := by
      simp only [← hf, ← hg, Tag.anonymous_reportAll, htag]
    obtain ⟨hextras, htags⟩ := readExtras_anonymous s p hreported
      (readOptions Keyword.diagram.spelling.toList g.instruction).1
    rw [hextras, htags]

end Headers

/-! ## Readings -/

/-- **Fields that say the same are read to the same, up to the numbers of runs.** Of a stretch of
plain runs only counts whether there is one. -/
def Agreement.anonymous (s : Setting) : Agreement .anonymous s s where
  stretch xs ys := xs = [] ↔ ys = []
  field f g := f.instruction = g.instruction
  limit := rfl
  stretch_nil := Iff.rfl
  stretch_append := by
    intro xs ys xs' ys' h h'
    rw [List.append_eq_nil_iff, List.append_eq_nil_iff, h, h']
  stretch_eq_nil := id
  text _ := rfl
  single := by
    intro f g h k
    cases k with
    | query => exact congrArg some (readQuery_anonymous s h)
    | image => exact congrArg some (readImage_anonymous h)
    | diagram => exact congrArg some (readDiagram_anonymous s h)
    | _ => rfl
  loop := readLoop_anonymous s
  condition := readCondition_anonymous s
  opening _ := rfl
  swallow h _ k := Tag.anonymous_swallow h k _ _
  closing h _ := Tag.anonymous_closing h _ _
  cutOff h := by
    simp only [Reduction.anonymous, Tag.anonymous_report] at h ⊢
    rw [h]
  leftOpen h := by
    simp only [Reduction.anonymous, Tag.anonymous_report] at h ⊢
    rw [h]
  refused _ _ := rfl

end DocTemplate
