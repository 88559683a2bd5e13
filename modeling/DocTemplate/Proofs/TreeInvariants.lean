import DocTemplate.Proofs.Gathering

/-!
# Invariants of the tree that a reading builds

What is recorded at the tags of a template, and how this fits the bodies that belong to them, is
settled node by node while the template is read. So it is enough to say what is asked of a tag that
is still open and of a construct that is finished, and to show that each kind of step keeps to it;
that a whole reading does is shown here once.

What is asked may refer to the tokens that have been read so far. A construct that the end of the
body cuts off may differ from the other ones; it is always the last one of its body.

## Main statements

- `TreeProperty.Kept`: what has to be shown of the single steps
- `TagStep.keeps`, `Reads.keeps`, `Runs.keeps`: every state of a reading has the property
- `TreeProperty.Kept.ofTokens`: every template has it
-/

namespace DocTemplate

/-- What is asked of the tags and constructs of a tree, relative to the tokens read so far. -/
structure TreeProperty where
  /-- What is asked of a tag that is open: that of the template itself, or with its frame that of a
  level. The same is asked of the finished branches of an open conditional. -/
  openTag : List Token → Option Frame → Tag → Prop
  /-- What is asked of a construct that is finished. -/
  construct : List Token → Construct → Prop
  /-- What is asked of a construct that the end of the body cuts off. -/
  cutOff : List Token → Construct → Prop

/-- What a field says that opens a body: the frame that it opens, and the tag. -/
def header? (s : Setting) (f : Field) : Keyword → Option (Frame × Tag)
  | .forEach => some (.loop, (readLoop s f).tag)
  | .ifThen | .elseIf => some (.branch, (readCondition s f).2)
  | .otherwise => some (.otherwise, Tag.ofField f)
  | _ => none

theorem header?_of_opened? {s : Setting} {f : Field} {depth : Nat} {k : Keyword} {l : Level}
    (h : opened? s f depth k = some l) :
    header? s f k = some (l.frame, l.tag) ∧ l.purpose.branches = [] ∧ l.body = [] := by
  unfold opened? at h
  split at h <;> cases h <;>
    simp [header?, Level.ofLoop, Level.ofCondition, Level.frame, Level.tag, Tag.swallowAll_nil,
      Purpose.branches]

theorem header?_describes {s : Setting} {f : Field} {k : Keyword} {frame : Frame} {tag : Tag}
    (h : header? s f k = some (frame, tag)) : tag.Describes f := by
  unfold header? at h
  split at h <;> cases h
  · exact readLoop_describes s f
  · exact readCondition_describes s f
  · exact readCondition_describes s f
  · exact .ofField f

namespace TreeProperty

variable (P : TreeProperty) (ts : List Token)

/-- A body of which only the last construct may be cut off. -/
def OfBody (cs : List Construct) : Prop :=
  ∃ before, ∃ last : Option Construct, cs = before ++ last.toList ∧
    (∀ c ∈ before, P.construct ts c) ∧ ∀ c ∈ last, P.cutOff ts c

/-- A template whose tag and body are as they should be. -/
structure OfTemplate (t : Template) : Prop where
  tag : P.openTag ts none t.tag
  body : P.OfBody ts t.body

/-- An open level, apart from its own body. -/
structure OfLevel (l : Level) : Prop where
  tag : P.openTag ts (some l.frame) l.tag
  branches : ∀ b ∈ l.purpose.branches,
    P.openTag ts (some .branch) b.tag ∧ ∀ c ∈ b.body, P.construct ts c

/-- A state of a reading. -/
structure OfState (p : Progress) : Prop where
  tag : P.openTag ts none p.block.tag
  body : ∀ c ∈ p.block.body, P.construct ts c
  levels : ∀ l ∈ p.levels, P.OfLevel ts l ∧ ∀ c ∈ l.body, P.construct ts c

/-- The steps of a reading keep to the property. -/
structure Kept (P : TreeProperty) (s : Setting) : Prop where
  openTag_mono : ∀ {ts frame tag} (t : Token), P.openTag ts frame tag →
    P.openTag (ts ++ [t]) frame tag
  construct_mono : ∀ {ts c} (t : Token), P.construct ts c → P.construct (ts ++ [t]) c
  /-- A template begins with an empty tag. -/
  fresh : P.openTag [] none {}
  text : ∀ ts runs, P.construct ts (.text { runs := runs })
  single : ∀ {f k c} ts, single? s f k = some c → P.construct (ts ++ [.tag k f]) c
  table : ∀ {rows us} ts id, List.Forall₂ (List.Forall₂ P.OfTemplate) rows us →
    P.construct (ts ++ [.table id rows]) (.table id us)
  header : ∀ {f k frame tag} ts, header? s f k = some (frame, tag) →
    P.openTag (ts ++ [.tag k f]) (some frame) tag
  swallow : ∀ {ts frame tag} k f, P.openTag ts frame tag →
    P.openTag (ts ++ [.tag k f]) frame (tag.swallow k f)
  close : ∀ {ts l} k f, P.OfLevel ts l → (∀ c ∈ l.body, P.construct ts c) →
    P.construct (ts ++ [.tag k f]) (l.close f)
  closeAtEnd : ∀ {ts l}, P.OfLevel ts l → P.OfBody ts l.body.reverse → P.cutOff ts l.closeAtEnd

variable {P : TreeProperty} {ts : List Token} {s : Setting} {p : Progress}

/-! ## States -/

theorem OfLevel.mono (hP : P.Kept s) {l : Level} (h : P.OfLevel ts l) (t : Token) :
    P.OfLevel (ts ++ [t]) l where
  tag := hP.openTag_mono t h.tag
  branches b hb := by
    obtain ⟨htag, hbody⟩ := h.branches b hb
    exact ⟨hP.openTag_mono t htag, fun c hc => hP.construct_mono t (hbody c hc)⟩

theorem OfState.mono (hP : P.Kept s) (h : P.OfState ts p) (t : Token) :
    P.OfState (ts ++ [t]) p where
  tag := hP.openTag_mono t h.tag
  body c hc := hP.construct_mono t (h.body c hc)
  levels l hl := by
    obtain ⟨hlevel, hbody⟩ := h.levels l hl
    exact ⟨hlevel.mono hP t, fun c hc => hP.construct_mono t (hbody c hc)⟩

/-- The open levels may be replaced by others. -/
theorem OfState.withLevels (h : P.OfState ts p) {ls : List Level}
    (hls : ∀ l ∈ ls, P.OfLevel ts l ∧ ∀ c ∈ l.body, P.construct ts c) :
    P.OfState ts { p with levels := ls } :=
  ⟨h.tag, h.body, hls⟩

theorem OfState.push (h : P.OfState ts p) {c : Construct} (hc : P.construct ts c) :
    P.OfState ts (p.push c) := by
  unfold Progress.push
  cases hlevels : p.levels with
  | nil => exact ⟨h.tag, List.forall_mem_cons.mpr ⟨hc, h.body⟩, by simp⟩
  | cons l ls =>
    obtain ⟨hl, hbody⟩ := h.levels l (by simp [hlevels])
    apply h.withLevels
    apply Progress.forall_levels_replace hlevels h.levels
    exact ⟨⟨hl.tag, hl.branches⟩, List.forall_mem_cons.mpr ⟨hc, hbody⟩⟩

theorem OfState.settle (hP : P.Kept s) (h : P.OfState ts p) : P.OfState ts p.settle := by
  unfold Progress.settle
  split
  · exact h
  · have hpush := h.push (hP.text ts p.stretch.reverse)
    exact ⟨hpush.tag, hpush.body, hpush.levels⟩

/-- A stray is taken into the tag of the innermost body. -/
theorem OfState.swallow (hP : P.Kept s) (h : P.OfState ts p) (k : Keyword) (f : Field) :
    P.OfState (ts ++ [.tag k f]) (p.swallow k f) := by
  have hmono := h.mono hP (.tag k f)
  unfold Progress.swallow
  cases hlevels : p.levels with
  | nil =>
    refine ⟨?_, hmono.body, by simp⟩
    rw [Block.tag, List.reverse_cons, Tag.swallowAll_concat]
    exact hP.swallow k f h.tag
  | cons l ls =>
    have hl := (h.levels l (by simp [hlevels])).1
    obtain ⟨hlmono, hbody⟩ := hmono.levels l (by simp [hlevels])
    refine ⟨hmono.tag, hmono.body, ?_⟩
    apply Progress.forall_levels_replace hlevels hmono.levels
    refine ⟨⟨?_, hlmono.branches⟩, hbody⟩
    rw [Level.tag, List.reverse_cons, Tag.swallowAll_concat]
    exact hP.swallow k f hl.tag

/-- The branch that a condition's level amounts to joins those before it. -/
theorem OfLevel.toBranch {l : Level} (h : P.OfLevel ts l) (hbody : ∀ c ∈ l.body, P.construct ts c)
    {earlier : List (Branch Construct)} {condition : Option Expression}
    (hpurpose : l.purpose = .branch earlier condition) :
    ∀ b ∈ earlier.reverse ++ [l.toBranch condition],
      P.openTag ts (some .branch) b.tag ∧ ∀ c ∈ b.body, P.construct ts c := by
  have htag := h.tag
  have hbranches := h.branches
  rw [hpurpose] at hbranches
  rw [Level.frame, hpurpose] at htag
  intro b hb
  rcases List.mem_append.mp hb with hb | hb
  · exact hbranches b hb
  · rw [List.mem_singleton.mp hb]
    exact ⟨htag, fun c hc => hbody c (List.mem_reverse.mp hc)⟩

end TreeProperty

/-! ## Steps -/

section Steps

variable {P : TreeProperty} {s : Setting} {ts : List Token} {p q : Progress}

/-- **Every tag keeps to the property.** -/
theorem TagStep.keeps (hP : P.Kept s) {k : Keyword} {f : Field} (h : TagStep s p k f q)
    (hp : P.OfState ts p) : P.OfState (ts ++ [.tag k f]) q := by
  have hmono := hp.mono hP (.tag k f)
  cases h with
  | single hc => exact hmono.push (hP.single ts hc)
  | opens hl hlimit =>
    obtain ⟨hheader, hbranches, hbody⟩ := header?_of_opened? hl
    apply hmono.withLevels
    refine List.forall_mem_cons.mpr ⟨⟨⟨hP.header ts hheader, ?_⟩, ?_⟩, hmono.levels⟩
    · simp [hbranches]
    · simp [hbody]
  | @closes _ _ l ls hlevels hends =>
    -- The closed level is judged by what it was before the end tag.
    obtain ⟨hl, hbody⟩ := hp.levels l (by simp [hlevels])
    have hrest := List.forall_mem_cons.mp (hlevels ▸ hmono.levels)
    exact (hmono.withLevels hrest.2).push (hP.close k f hl hbody)
  | @elseIf _ l ls earlier condition hlevels hpurpose hlimit =>
    -- The finished condition stands before the new one, whose body is still empty.
    obtain ⟨hl, hbody⟩ := hmono.levels l (by simp [hlevels])
    apply hmono.withLevels
    apply Progress.forall_levels_replace hlevels hmono.levels
    refine ⟨⟨?_, ?_⟩, by simp [Level.ofCondition]⟩
    · rw [Level.tag, Level.ofCondition, List.reverse_nil, Tag.swallowAll_nil]
      exact hP.header ts rfl
    · simpa [Level.ofCondition, Purpose.branches] using hl.toBranch hbody hpurpose
  | @otherwise _ l ls earlier condition hlevels hpurpose =>
    obtain ⟨hl, hbody⟩ := hmono.levels l (by simp [hlevels])
    apply hmono.withLevels
    apply Progress.forall_levels_replace hlevels hmono.levels
    refine ⟨⟨?_, ?_⟩, by simp [Level.ofOtherwise]⟩
    · rw [Level.tag, Level.ofOtherwise, List.reverse_nil, Tag.swallowAll_nil]
      exact hP.header ts rfl
    · simpa [Level.ofOtherwise, Purpose.branches] using hl.toBranch hbody hpurpose
  | strays hterminator hnone => exact hp.swallow hP k f

theorem Reads.keeps (hP : P.Kept s) {t : Token} (h : Reads s t p q)
    (hcells : ∀ id rows, t = .table id rows → ∀ row ∈ rows, ∀ c ∈ row, ∀ depth u,
      Template.ofTokens s depth c = .ok u → P.OfTemplate c u)
    (hp : P.OfState ts p) : P.OfState (ts ++ [t]) q := by
  cases h with
  | text r p =>
    have hmono := hp.mono hP (.text r)
    exact ⟨hmono.tag, hmono.body, hmono.levels⟩
  | tag hstep => exact hstep.keeps hP (hp.settle hP)
  | @table id rows p us hread =>
    have hside := forall₂_cells_imp (cellTemplates_eq_ok_iff.mp hread)
      fun row hrow c hc u hu => hcells id rows rfl row hrow c hc p.depth u hu
    have hpush := ((hp.settle hP).mono hP (.table id rows)).push (hP.table ts id hside)
    exact ⟨hpush.tag, hpush.body, hpush.levels⟩

theorem Runs.keeps (hP : P.Kept s) {us : List Token} (h : Runs s us p q)
    (hcells : ∀ id rows, Token.table id rows ∈ us → ∀ row ∈ rows, ∀ c ∈ row, ∀ depth u,
      Template.ofTokens s depth c = .ok u → P.OfTemplate c u)
    (hp : P.OfState ts p) : P.OfState (ts ++ us) q := by
  induction h generalizing ts with
  | nil p => rwa [List.append_nil]
  | @cons t us p q r hstep hrest ih =>
    have hnext := hstep.keeps hP (fun id rows ht => hcells id rows (ht ▸ List.mem_cons_self)) hp
    rw [List.append_cons]
    exact ih (fun id rows hmem => hcells id rows (List.mem_cons_of_mem _ hmem)) hnext

/-! ## The end of the body -/

/-- A level that is cut off is the last construct of the body around it. -/
theorem Progress.keeps_closeLevels (hP : P.Kept s) {b : Block} {inner : Option Construct}
    {ls : List Level} (hb : ∀ c ∈ b.body, P.construct ts c) (hinner : ∀ c ∈ inner, P.cutOff ts c)
    (hls : ∀ l ∈ ls, P.OfLevel ts l ∧ ∀ c ∈ l.body, P.construct ts c) :
    P.OfBody ts (closeLevels b inner ls).body.reverse := by
  have hbody : ∀ {inner : Option Construct} {cs : List Construct}, (∀ c ∈ inner, P.cutOff ts c) →
      (∀ c ∈ cs, P.construct ts c) → P.OfBody ts (inner.toList ++ cs).reverse := by
    intro inner cs hinner hcs
    refine ⟨cs.reverse, inner, ?_, fun c hc => hcs c (List.mem_reverse.mp hc), hinner⟩
    cases inner <;> simp
  -- From the innermost level outward, with what was cut off last as the end of the next body.
  induction ls generalizing inner with
  | nil => exact hbody hinner hb
  | cons l ls ih =>
    obtain ⟨⟨hl, hlbody⟩, hrest⟩ := List.forall_mem_cons.mp hls
    rw [closeLevels]
    apply ih _ hrest
    intro c hc
    cases hc
    exact hP.closeAtEnd ⟨hl.tag, hl.branches⟩ (hbody hinner hlbody)

theorem Progress.keeps_finish (hP : P.Kept s) (hstops : p.block.stops = [.endOfBody])
    (h : P.OfState ts p) : P.OfTemplate ts p.finish.block.toSection := by
  have hsettle := h.settle hP
  rw [block_finish hstops]
  constructor
  · rw [closeLevels_eq]
    exact hsettle.tag
  · exact keeps_closeLevels hP hsettle.body (by simp) hsettle.levels

/-- **What the steps keep to, every template has**, whatever depth it is read at. -/
theorem TreeProperty.Kept.ofTokens (hP : P.Kept s) {depth : Nat} {ts : List Token} {t : Template}
    (h : Template.ofTokens s depth ts = .ok t) : P.OfTemplate ts t := by
  refine Template.ofTokens_induction h ?_
  intro depth ts q hruns hcells
  apply Progress.keeps_finish hP hruns.stops
  have hfresh : P.OfState [] (Progress.fresh depth) :=
    ⟨hP.fresh, by simp [Progress.fresh, Progress.start], by simp [Progress.fresh, Progress.start]⟩
  exact hruns.keeps hP hcells hfresh

end Steps

end DocTemplate
