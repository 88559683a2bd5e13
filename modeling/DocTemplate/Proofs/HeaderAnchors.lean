import DocTemplate.Proofs.TreeInvariants

/-!
# Where the problems of a field show

All problems that are found in a field are reported at one run of that field: at the run after the
opening mark, or for a query at the style run. The first is the tag's anchor, which is computed from
the runs that the tag has at that moment; for a header these are the runs of its field and no
others, and later ones change nothing, since they are added behind.

## Main statements

- `Tag.anchor?_of_prefix`: the anchor of a tag is that of its first field
- `header?_showsAt`, `single?_showsAt`: the problems of every tag that is read from a field show at
  one run of the field
-/

namespace DocTemplate

theorem Field.opening_mem_runs (f : Field) : f.opening.id ∈ f.runs := by
  simp [runs]

/-- The style run of a field is one of its runs. -/
theorem styleRun?_mem {rs : List Run} {r : RunId} (h : styleRun? rs = some r) :
    r ∈ rs.map Run.id := by
  induction rs with
  | nil => cases h
  | cons r' rs ih =>
    rw [styleRun?] at h
    split at h
    -- Without a colon the search goes on, and a colon at the end of a run leaves it to a later one.
    · exact List.mem_cons_of_mem _ (ih h)
    · obtain ⟨r'', hfind, rfl⟩ := Option.map_eq_some_iff.mp h
      exact List.mem_cons_of_mem _ (List.mem_map_of_mem (List.mem_of_find?_eq_some hfind))
    · cases h
      exact List.mem_cons_self

theorem Field.styleRun_mem_runs {f : Field} {r : RunId} (h : styleRun? f.inner = some r) :
    r ∈ f.runs :=
  List.mem_cons_of_mem _ (List.mem_append_left _ (styleRun?_mem h))

/-- The run that problems of the field are reported at: the one after the opening mark. -/
def Field.anchor (f : Field) : RunId :=
  match f.inner with
  | [] => f.closing.id
  | r :: _ => r.id

theorem Field.anchor_mem_runs (f : Field) : f.anchor ∈ f.runs := by
  rw [anchor, runs]
  cases f.inner <;> simp

namespace Tag

/-- A tag with runs has an anchor among them. -/
theorem exists_anchor {t : Tag} (h : t.runs ≠ []) : ∃ r ∈ t.runs, t.anchor? = some r := by
  unfold anchor?
  cases hruns : t.runs with
  | nil => exact absurd hruns h
  | cons r rs =>
    cases rs with
    | nil => exact ⟨r, List.mem_cons_self, rfl⟩
    | cons r' rs => exact ⟨r', List.mem_cons_of_mem _ List.mem_cons_self, rfl⟩

/-- The first field of a tag settles its anchor. -/
theorem anchor?_of_prefix {t : Tag} {f : Field} (h : f.runs <+: t.runs) :
    t.anchor? = some f.anchor := by
  obtain ⟨more, hmore⟩ := h
  rw [anchor?, ← hmore, Field.runs, Field.anchor]
  cases f.inner <;> rfl

/-- The runs of the tag are those of the field, and all its problems show at one of them. -/
structure ShowsIn (t : Tag) (f : Field) : Prop where
  runs : t.runs = f.runs
  problems : ∀ p ∈ t.problems, ∃ r ∈ f.runs, p.run = some r

/-- The runs of the tag are those of the field, and all its problems show at `r`. -/
structure ShowsAt (t : Tag) (f : Field) (r : RunId) : Prop where
  runs : t.runs = f.runs
  problems : ∀ p ∈ t.problems, p.run = some r

namespace ShowsAt

theorem ofField (f : Field) (r : RunId) : (Tag.ofField f).ShowsAt f r where
  runs := (Describes.ofField f).runs
  problems := by simp [Tag.ofField, Tag.absorb]

variable {t : Tag} {f : Field} {r : RunId}

theorem showsIn (h : t.ShowsAt f r) (hr : r ∈ f.runs) : t.ShowsIn f where
  runs := h.runs
  problems p hp := ⟨r, hr, h.problems p hp⟩

theorem anchor? (h : t.ShowsAt f r) : t.anchor? = some f.anchor :=
  anchor?_of_prefix (h.runs ▸ List.prefix_refl _)

theorem report (h : t.ShowsAt f r) (cause : Cause) {run : Option RunId} (hrun : run = some r) :
    (t.report cause run).ShowsAt f r where
  runs := h.runs
  problems := by
    intro p hp
    rcases List.mem_append.mp hp with hp | hp
    · exact h.problems p hp
    · rw [List.mem_singleton.mp hp]
      exact hrun

theorem reportAll (h : t.ShowsAt f f.anchor) (causes : List Cause) :
    (t.reportAll causes).ShowsAt f f.anchor where
  runs := h.runs
  problems := by
    intro p hp
    rcases List.mem_append.mp hp with hp | hp
    · exact h.problems p hp
    · obtain ⟨cause, -, rfl⟩ := List.mem_map.mp hp
      exact h.anchor?

theorem compileFor (h : t.ShowsAt f r) (s : Setting) {anchor : Option RunId}
    (hanchor : anchor = some r) (source : String) :
    (s.compileFor t anchor source).2.ShowsAt f r := by
  rw [Setting.compileFor]
  split
  · exact h
  · exact h.report _ hanchor

end ShowsAt

end Tag

/-! ## Headers -/

theorem readQuery_showsAt (s : Setting) (f : Field) :
    ∃ tag expression display, ∃ r ∈ f.runs,
      readQuery s f = .query tag expression display ∧ tag.ShowsAt f r := by
  -- An invalid expression shows at the style run, and without one at the tag's anchor.
  have hrun : ∃ r ∈ f.runs, ((Tag.ofField f).styleRun <|> (Tag.ofField f).anchor?) = some r := by
    rw [(Tag.Describes.ofField f).styleRun]
    cases hstyle : styleRun? f.inner with
    | none => exact ⟨_, f.anchor_mem_runs, (Tag.ShowsAt.ofField f f.anchor).anchor?⟩
    | some r => exact ⟨r, Field.styleRun_mem_runs hstyle, rfl⟩
  obtain ⟨r, hr, hrun⟩ := hrun
  exact ⟨_, _, _, r, hr, rfl, (Tag.ShowsAt.ofField f r).compileFor s hrun _⟩

theorem readLoop_showsAt (s : Setting) (f : Field) : (readLoop s f).tag.ShowsAt f f.anchor := by
  have hfield := Tag.ShowsAt.ofField f f.anchor
  have hanchor := hfield.anchor?
  unfold readLoop
  dsimp only
  split
  · exact hfield.report .loopWithoutSeparator hanchor
  · have hnamed := hfield.report .loopWithoutVariable hanchor
    dsimp only
    -- With or without a variable, and with or without something to repeat over.
    split <;> split
    · exact hnamed.report .loopWithoutSource hanchor
    · exact hfield.report .loopWithoutSource hanchor
    · exact hnamed.compileFor s hanchor _
    · exact hfield.compileFor s hanchor _

theorem readCondition_showsAt (s : Setting) (f : Field) :
    (readCondition s f).2.ShowsAt f f.anchor :=
  (Tag.ShowsAt.ofField f f.anchor).compileFor s (Tag.ShowsAt.ofField f f.anchor).anchor? _

theorem readImage_showsAt (f : Field) :
    ∃ tag options, readImage f = .image tag options ∧ tag.ShowsAt f f.anchor := by
  have hread : ∀ causes causes',
      (((Tag.ofField f).reportAll causes).reportAll causes').ShowsAt f f.anchor :=
    fun causes causes' => ((Tag.ShowsAt.ofField f _).reportAll causes).reportAll causes'
  unfold readImage
  dsimp only
  split
  · exact ⟨_, _, rfl, (hread _ _).reportAll _⟩
  · exact ⟨_, _, rfl, (hread _ _).reportAll _⟩

theorem readExtras_showsAt (s : Setting) (p : Provider) {tag : Tag} {f : Field}
    (h : tag.ShowsAt f f.anchor) (options : OptionMap) :
    (readExtras s p tag options).2.ShowsAt f f.anchor := by
  unfold readExtras
  -- The options are compiled one by one, and each may add a report to the tag of the one before.
  generalize options.entries.filter _ = entries
  generalize (Dict.empty : Dict OptionValue) = extras
  induction entries generalizing extras tag with
  | nil => exact h
  | cons e entries ih =>
    obtain ⟨key, value⟩ := e
    rw [List.foldl_cons]
    cases htype : p.options.get? key with
    | none => simpa only [htype] using ih h _
    | some type =>
      cases type with
      | text => simpa only [htype] using ih h _
      | expression => simpa only [htype] using ih (h.compileFor s h.anchor? _) _

theorem readDiagram_showsAt (s : Setting) (f : Field) :
    ∃ tag options provider extras,
      readDiagram s f = .diagram tag options provider extras ∧ tag.ShowsAt f f.anchor := by
  have hread : ∀ causes, ((Tag.ofField f).reportAll causes).ShowsAt f f.anchor :=
    fun causes => (Tag.ShowsAt.ofField f _).reportAll causes
  unfold readDiagram
  dsimp only
  split
  · exact ⟨_, _, _, _, rfl, (hread _).reportAll _⟩
  · refine ⟨_, _, _, _, rfl, ?_⟩
    apply readExtras_showsAt
    exact ((hread _).reportAll _).reportAll _

/-- **What opens a body reports its problems at the anchor of its own field.** -/
theorem header?_showsAt {s : Setting} {f : Field} {k : Keyword} {frame : Frame} {tag : Tag}
    (h : header? s f k = some (frame, tag)) : tag.ShowsAt f f.anchor := by
  unfold header? at h
  split at h <;> cases h
  · exact readLoop_showsAt s f
  · exact readCondition_showsAt s f
  · exact readCondition_showsAt s f
  · exact .ofField f f.anchor

/-- A tag that is understood by itself reports its problems at one run of its field. -/
theorem single?_showsAt {s : Setting} {f : Field} {k : Keyword} {c : Construct}
    (h : single? s f k = some c) :
    ∃ (tag : Tag) (r : RunId), r ∈ f.runs ∧ tag.Describes f ∧ tag.ShowsAt f r ∧
      ((k = .query ∧ ∃ expression display, c = .query tag expression display) ∨
        (k = .image ∧ ∃ options, c = .image tag options) ∨
        k = .diagram ∧ ∃ options provider extras, c = .diagram tag options provider extras) := by
  obtain ⟨tag, htag, hc⟩ := single?_cases h
  -- Each header is read in one way, so that the tag is the one whose problems are known.
  rcases hc with ⟨rfl, _, _, rfl⟩ | ⟨rfl, _, rfl⟩ | ⟨rfl, _, _, _, rfl⟩
  · obtain ⟨tag', _, _, r, hr, hread, hshows⟩ := readQuery_showsAt s f
    cases (Option.some.inj h).symm.trans hread
    exact ⟨tag, r, hr, htag, hshows, .inl ⟨rfl, _, _, rfl⟩⟩
  · obtain ⟨tag', _, hread, hshows⟩ := readImage_showsAt f
    cases (Option.some.inj h).symm.trans hread
    exact ⟨tag, _, f.anchor_mem_runs, htag, hshows, .inr (.inl ⟨rfl, _, rfl⟩)⟩
  · obtain ⟨tag', _, _, _, hread, hshows⟩ := readDiagram_showsAt s f
    cases (Option.some.inj h).symm.trans hread
    exact ⟨tag, _, f.anchor_mem_runs, htag, hshows, .inr (.inr ⟨rfl, _, _, _, rfl⟩)⟩

theorem header?_showsIn {s : Setting} {f : Field} {k : Keyword} {frame : Frame} {tag : Tag}
    (h : header? s f k = some (frame, tag)) : tag.ShowsIn f :=
  (header?_showsAt h).showsIn f.anchor_mem_runs

theorem single?_showsIn {s : Setting} {f : Field} {k : Keyword} {c : Construct}
    (h : single? s f k = some c) :
    ∃ tag : Tag, tag.Describes f ∧ tag.ShowsIn f ∧
      ((k = .query ∧ ∃ expression display, c = .query tag expression display) ∨
        (k = .image ∧ ∃ options, c = .image tag options) ∨
        k = .diagram ∧ ∃ options provider extras, c = .diagram tag options provider extras) := by
  obtain ⟨tag, r, hr, htag, hshows, hc⟩ := single?_showsAt h
  exact ⟨tag, htag, hshows.showsIn hr, hc⟩

end DocTemplate
