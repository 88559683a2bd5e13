import DocTemplate.Proofs.Agreement
import DocTemplate.Proofs.Headers

/-!
# What compilers and providers cannot change

A body is parsed with the help of an expression compiler and of the providers that draw diagrams.
Neither has a say in the structure of the template. What a compiler answers is kept as an expression
or reported as an invalid one; what a provider is asked for stays within one diagram. The outline of
a template leaves out just that, and two parses of one body with different helpers have the same
outline, or fail with the same error.

## Main statements

- `Tag.withoutInvalid_compileFor`: compiling changes a tag by invalid expressions alone
- `Body.parse_outline`: the outline depends on the body and the limit alone
-/

namespace DocTemplate

/-! ## Outlines -/

/-- The tag without the invalid expressions that are reported at it, which have a code of their
own. -/
def Tag.withoutInvalid (t : Tag) : Tag :=
  { t with problems := t.problems.filter fun p => p.code ≠ "W102" }

/-- Leave out every expression, the reports of invalid ones, and of a diagram everything but its
runs. -/
def Reduction.outline : Reduction where
  text := Tag.withoutInvalid
  tag := Tag.withoutInvalid
  expression _ := none
  diagram tag _ _ _ := .diagram { tag with problems := [] } {} none {}
  table id := id
  error e := e

/-- A template without what compilers and providers have said. -/
def Template.outline (t : Template) : Template := t.reduce Reduction.outline

namespace Tag

theorem withoutInvalid_absorb (t : Tag) (role : FieldRole) (f : Field) :
    (t.absorb role f).withoutInvalid = t.withoutInvalid.absorb role f := by
  cases role <;> rfl

theorem withoutInvalid_report (t : Tag) {cause : Cause} (hcause : cause.code ≠ "W102")
    (run : Option RunId) :
    (t.report cause run).withoutInvalid = t.withoutInvalid.report cause run := by
  simp [withoutInvalid, report, Problem.code, hcause]

theorem withoutInvalid_compileFor (s : Setting) (t : Tag) (anchor : Option RunId) (source : String) :
    (s.compileFor t anchor source).2.withoutInvalid = t.withoutInvalid := by
  rw [Setting.compileFor]
  split
  · rfl
  · simp [withoutInvalid, report, Problem.code, Cause.code]

end Tag

/-! ## Headers under two settings -/

section Headers

variable (s s' : Setting) (f : Field)

theorem readQuery_outline :
    (readQuery s f).reduce .outline = (readQuery s' f).reduce .outline := by
  simp only [readQuery, Construct.reduce, Reduction.outline, Tag.withoutInvalid_compileFor]

theorem readDiagram_outline :
    (readDiagram s f).reduce .outline = (readDiagram s' f).reduce .outline := by
  obtain ⟨t, options, provider, extras, hread, ht⟩ := readDiagram_describes s f
  obtain ⟨t', options', provider', extras', hread', ht'⟩ := readDiagram_describes s' f
  -- Whatever the providers are, the tag of a diagram has the runs of its field.
  simp only [hread, hread', Construct.reduce, Reduction.outline, ht.runs, ht'.runs, ht.closingRuns,
    ht'.closingRuns, ht.styleRun, ht'.styleRun]

theorem readLoop_iterator : (readLoop s f).iterator = (readLoop s' f).iterator := by
  unfold readLoop
  split <;> rfl

theorem readLoop_outline :
    (readLoop s f).tag.withoutInvalid = (readLoop s' f).tag.withoutInvalid := by
  unfold readLoop
  dsimp only
  split
  · rfl
  · dsimp only
    -- Only where there is a source is the compiler asked.
    split
    · rfl
    · simp only [Tag.withoutInvalid_compileFor]

theorem readCondition_outline :
    (readCondition s f).2.withoutInvalid = (readCondition s' f).2.withoutInvalid := by
  simp only [readCondition, Tag.withoutInvalid_compileFor]

end Headers

/-! ## Readings under two settings -/

/-- Over the same tokens, outlines do not tell settings with the same limit apart. -/
def Agreement.outline {s s' : Setting} (hlimit : s.limit = s'.limit) :
    Agreement .outline s s' where
  stretch xs ys := xs = ys
  field f g := f = g
  limit := hlimit
  stretch_nil := rfl
  stretch_append := by
    rintro xs _ xs' _ rfl rfl
    rfl
  stretch_eq_nil := by
    rintro xs _ rfl
    rfl
  text := by
    rintro xs _ rfl
    rfl
  single := by
    rintro f _ rfl k
    cases k with
    | query => exact congrArg some (readQuery_outline s s' f)
    | diagram => exact congrArg some (readDiagram_outline s s' f)
    | _ => rfl
  loop := by
    rintro f _ rfl
    exact ⟨readLoop_outline s s' f, readLoop_iterator s s' f, rfl⟩
  condition := by
    rintro f _ rfl
    exact ⟨rfl, readCondition_outline s s' f⟩
  opening := by
    rintro f _ rfl
    rfl
  swallow := by
    intro t u f _ h hf k
    subst hf
    simp only [Reduction.outline, Tag.swallow, Tag.withoutInvalid_absorb] at h ⊢
    rw [Tag.withoutInvalid_report t (by simp [Cause.code]),
      Tag.withoutInvalid_report u (by simp [Cause.code]), h]
  closing := by
    intro t u f _ h hf
    subst hf
    simp only [Reduction.outline, Tag.withoutInvalid_absorb] at h ⊢
    rw [h]
  cutOff := by
    intro t u h
    simp only [Reduction.outline] at h ⊢
    rw [Tag.withoutInvalid_report t (by simp [Cause.code]),
      Tag.withoutInvalid_report u (by simp [Cause.code]), h]
  leftOpen := by
    intro t u h
    simp only [Reduction.outline] at h ⊢
    -- The anchor is one of the runs, which outlines keep.
    have hanchor : t.anchor? = u.anchor? := by
      show t.withoutInvalid.anchor? = u.withoutInvalid.anchor?
      rw [h]
    rw [Tag.withoutInvalid_report t (by simp [Cause.code]),
      Tag.withoutInvalid_report u (by simp [Cause.code]), h, hanchor]
  refused := by
    rintro f _ rfl k
    rfl

/-- Tokens count as the same as themselves wherever fields and single runs do. -/
theorem Agreement.Alike.refl {r : Reduction} {s s' : Setting} {a : Agreement r s s'}
    (hrun : ∀ x, a.stretch [x] [x]) (hfield : ∀ f, a.field f f) (ts : List Token) :
    a.Alike ts ts := by
  induction ts using Token.cellInduction with
  | h ts cells =>
    induction ts with
    | nil => exact .nil
    | cons t ts ih =>
      have hrest : a.Alike ts ts := by
        apply ih
        intro id rows hmem
        exact cells id rows (List.mem_cons_of_mem t hmem)
      cases t with
      | text x => exact .text (hrun x) hrest
      | tag k f => exact .tag (hfield f) hrest
      | table id rows =>
        refine .table ?_ hrest
        refine List.forall₂_same.mpr fun row hrow => List.forall₂_same.mpr fun c hc => ?_
        exact cells id rows List.mem_cons_self row hrow c hc

/-- **Compilers and providers do not change the structure of a template.** Two parses of a body
under the same limit fail with the same error, or give templates with the same outline. -/
theorem Body.parse_outline (b : Body) (limit : Nat) (compile compile' : Compiler)
    (providers providers' : Registry) :
    (∃ e, (b.parse ⟨compile, providers, limit⟩).result = .error e ∧
        (b.parse ⟨compile', providers', limit⟩).result = .error e) ∨
      ∃ t t', (b.parse ⟨compile, providers, limit⟩).result = .ok t ∧
        (b.parse ⟨compile', providers', limit⟩).result = .ok t' ∧ t.outline = t'.outline := by
  have hlimit : (⟨compile, providers, limit⟩ : Setting).limit =
      (⟨compile', providers', limit⟩ : Setting).limit := rfl
  have hlike : (Agreement.outline hlimit).Alike b.linearTokens b.linearTokens :=
    .refl (fun _ => rfl) (fun _ => rfl) _
  have hsame := hlike.readAlike.ofTokens 0
  rw [b.result_parse, b.result_parse]
  cases hread : Template.ofTokens ⟨compile, providers, limit⟩ 0 b.linearTokens with
  | error e =>
    rw [hread] at hsame
    obtain ⟨e', hread', he⟩ := Reduction.onResult_eq_error hsame.symm
    exact .inl ⟨e, rfl, hread'.trans (congrArg Except.error he)⟩
  | ok t =>
    rw [hread] at hsame
    obtain ⟨t', hread', ht⟩ := Reduction.onResult_eq_ok hsame.symm
    exact .inr ⟨t, t', rfl, hread', ht.symm⟩

end DocTemplate
