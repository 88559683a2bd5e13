import DocTemplate.Proofs.Assembling
import DocTemplate.Proofs.Gathering
import DocTemplate.Proofs.Nesting

/-!
# How deep a reading goes

A state of a reading holds depths: each open level knows how deep its body lies. They are there for
the nesting limit alone. What is read at one depth is read at every other depth and under every
other limit as well, as long as it fits.

How much a state needs is measured without looking at its depths, from the constructs that it holds
and the levels that are open in it. Every step raises this measure by what it opens, and at the end
of the body it is what the template needs.

## Main statements

- `Progress.need_finish`: the template of a reading needs what its last state needs
- `TagStep.atDepth`, `Reads.atDepth`: a step can be taken at any depth where its result fits
- `Template.ofTokens_withLimit_iff`: at which depths and under which limits a template is read
-/

namespace DocTemplate

/-- The setting with another nesting limit. -/
def Setting.withLimit (s : Setting) (m : Nat) : Setting := { s with limit := m }

theorem Setting.limit_withLimit (s : Setting) (m : Nat) : (s.withLimit m).limit = m := rfl

/-! ## Constructs -/

namespace Construct

theorem nestingOfBody_append (cs ds : List Construct) :
    nestingOfBody (cs ++ ds) = max (nestingOfBody cs) (nestingOfBody ds) := by
  induction cs with
  | nil => simp [nestingOfBody]
  | cons c cs ih => rw [List.cons_append, nestingOfBody, nestingOfBody, ih, Nat.max_assoc]

theorem nestingOfBody_reverse (cs : List Construct) :
    nestingOfBody cs.reverse = nestingOfBody cs := by
  induction cs with
  | nil => rfl
  | cons c cs ih =>
    rw [List.reverse_cons, nestingOfBody_append, ih]
    simp only [nestingOfBody]
    omega

theorem nestingOfCells_le_iff {cells : List Template} {n : Nat} :
    nestingOfCells cells ≤ n ↔ ∀ u ∈ cells, Template.need u ≤ n := by
  induction cells with
  | nil => simp [nestingOfCells]
  | cons u cells ih =>
    obtain ⟨tag, body⟩ := u
    rw [nestingOfCells, Nat.max_le, ih, List.forall_mem_cons]
    rfl

/-- A table needs what each of its cells needs. -/
theorem nestingOfRows_le_iff {rows : List (List Template)} {n : Nat} :
    nestingOfRows rows ≤ n ↔ ∀ row ∈ rows, ∀ u ∈ row, Template.need u ≤ n := by
  induction rows with
  | nil => simp [nestingOfRows]
  | cons row rows ih =>
    rw [nestingOfRows, Nat.max_le, nestingOfCells_le_iff, ih, List.forall_mem_cons]

/-- How much the branches of a conditional take, listed last first: each lies as deep as there are
branches before it. -/
def nestingOfChain : List (Branch Construct) → Nat
  | [] => 0
  | b :: bs => max (bs.length + 1 + nestingOfBody b.body) (nestingOfChain bs)

theorem nestingOfLinks_append (bs cs : List (Branch Construct)) (alternative : Nat) :
    nestingOfLinks (bs ++ cs) alternative = nestingOfLinks bs (nestingOfLinks cs alternative) := by
  induction bs with
  | nil => rfl
  | cons b bs ih => simp [nestingOfLinks, ih]

theorem nestingOfLinks_reverse (last : Branch Construct) (earlier : List (Branch Construct))
    (alternative : Nat) :
    nestingOfLinks (earlier.reverse ++ [last]) alternative =
      1 + max (nestingOfChain (last :: earlier)) (earlier.length + alternative) := by
  obtain ⟨tag, condition, body⟩ := last
  -- The last branch with its alternative is the alternative of the branch before it.
  induction earlier generalizing tag condition body alternative with
  | nil => simp [nestingOfLinks, nestingOfBranch, nestingOfChain]
  | cons b earlier ih =>
    obtain ⟨tag', condition', body'⟩ := b
    rw [List.reverse_cons, nestingOfLinks_append, ih]
    simp only [nestingOfChain, nestingOfLinks, nestingOfBranch, List.length_cons]
    omega

/-- What a conditional takes, from its branches listed last first. -/
theorem nesting_ofBranches (last : Branch Construct) (earlier : List (Branch Construct))
    (otherwise : Option (Section Construct)) :
    (ofBranches last earlier otherwise).nesting =
      max (nestingOfChain (last :: earlier)) (earlier.length + nestingOfElse otherwise) := by
  -- Seen as a further condition, a conditional takes one more.
  have hlinks : 1 + (ofBranches last earlier otherwise).nesting =
      nestingOfLinks (earlier.reverse ++ [last]) (nestingOfElse otherwise) := by
    unfold ofBranches
    cases earlier.reverse <;> rfl
  rw [nestingOfLinks_reverse] at hlinks
  omega

end Construct

/-! ## States -/

/-- The finished branches before the one that a level builds, last first. -/
def Purpose.finished : Purpose → List (Branch Construct)
  | .loop .. => []
  | .branch earlier _ => earlier
  | .otherwise earlier last => last :: earlier

/-- How much deeper the body of a level lies than the body around the level. -/
def Purpose.rise : Purpose → Nat
  | .loop .. => 1
  | .branch earlier _ | .otherwise earlier _ => earlier.length + 1

namespace Level

/-- How many bodies lie inside one another in the construct that a level builds. -/
def nesting (l : Level) : Nat :=
  max (Construct.nestingOfChain l.purpose.finished)
    (l.purpose.rise + Construct.nestingOfBody l.body)

/-- How much deeper the innermost body lies than that of the block. -/
def height : List Level → Nat
  | [] => 0
  | l :: ls => l.purpose.rise + height ls

/-- What the open levels take, above the body of the block. -/
def nestingOfAll : List Level → Nat
  | [] => 0
  | l :: ls => max (height ls + l.nesting) (nestingOfAll ls)

theorem nesting_close (l : Level) (f : Field) : (l.close f).nesting = l.nesting := by
  unfold close nesting
  cases l.purpose with
  | loop iterator source =>
    simp [Construct.nesting, Construct.nestingOfBody_reverse, Construct.nestingOfChain,
      Purpose.finished, Purpose.rise]
  | branch earlier condition =>
    simp only [Construct.nesting_ofBranches, Construct.nestingOfChain, Construct.nestingOfElse,
      Construct.nestingOfBody_reverse, Purpose.finished, Purpose.rise]
    omega
  | otherwise earlier last =>
    simp only [Construct.nesting_ofBranches, Construct.nestingOfChain, Construct.nestingOfElse,
      Construct.nestingOfBody_reverse, Purpose.finished, Purpose.rise]
    omega

/-- What is recorded at a tag does not count. -/
theorem nesting_closeAtEnd (l : Level) : l.closeAtEnd.nesting = l.nesting := by
  rw [← l.nesting_close default]
  unfold closeAtEnd close
  cases l.purpose with
  | loop iterator source => rfl
  | branch earlier condition =>
    simp only [Construct.nesting_ofBranches, Construct.nestingOfChain]
  | otherwise earlier last =>
    simp only [Construct.nesting_ofBranches, Construct.nestingOfChain, Construct.nestingOfElse]

/-- What is added to the body of a level lies as deep as the body. -/
theorem nesting_append (l : Level) (cs : List Construct) :
    { l with body := cs ++ l.body }.nesting =
      max l.nesting (l.purpose.rise + Construct.nestingOfBody cs) := by
  simp only [nesting, Construct.nestingOfBody_append]
  omega

end Level

namespace Progress

/-- How many bodies lie inside one another in what has been read, that of the block left out. -/
def nesting (p : Progress) : Nat :=
  max (Construct.nestingOfBody p.block.body) (Level.nestingOfAll p.levels)

theorem nesting_push (p : Progress) (c : Construct) :
    (p.push c).nesting = max p.nesting (Level.height p.levels + c.nesting) := by
  unfold push nesting
  cases p.levels with
  | nil =>
    simp only [Construct.nestingOfBody, Level.nestingOfAll, Level.height]
    omega
  | cons l ls =>
    have hlevel := l.nesting_append [c]
    rw [List.singleton_append] at hlevel
    simp only [Level.nestingOfAll, hlevel, Construct.nestingOfBody, Level.height]
    omega

theorem height_push (p : Progress) (c : Construct) :
    Level.height (p.push c).levels = Level.height p.levels := by
  unfold push
  cases p.levels <;> rfl

/-- The innermost body counts also when it is empty. -/
theorem height_le_nesting (p : Progress) : Level.height p.levels ≤ p.nesting := by
  unfold nesting
  cases p.levels with
  | nil => simp [Level.height]
  | cons l ls =>
    simp only [Level.height, Level.nestingOfAll, Level.nesting]
    omega

theorem nesting_settle (p : Progress) : p.settle.nesting = p.nesting := by
  unfold settle
  split
  · rfl
  · have hpush := p.nesting_push (.text { runs := p.stretch.reverse })
    rw [Construct.nesting, Nat.add_zero, Nat.max_eq_left p.height_le_nesting] at hpush
    exact hpush

theorem height_settle (p : Progress) : Level.height p.settle.levels = Level.height p.levels := by
  unfold settle
  split
  · rfl
  · exact p.height_push _

theorem nesting_swallow (p : Progress) (k : Keyword) (f : Field) :
    (p.swallow k f).nesting = p.nesting := by
  unfold swallow nesting
  cases p.levels <;> rfl

theorem nesting_closeLevel {p : Progress} {l : Level} {ls : List Level} (h : p.levels = l :: ls)
    (f : Field) : (p.closeLevel ls (l.close f)).nesting = p.nesting := by
  rw [closeLevel, nesting_push, l.nesting_close]
  simp only [nesting, h, Level.nestingOfAll]
  omega

/-- Closing the levels at the end of the body takes nothing and adds nothing. -/
theorem nesting_closeLevels (b : Block) (inner : Option Construct) (ls : List Level) :
    Construct.nestingOfBody (closeLevels b inner ls).body =
      max (Construct.nestingOfBody b.body)
        (max (Level.nestingOfAll ls) (Level.height ls + Construct.nestingOfBody inner.toList)) := by
  -- From the innermost level outward; the level closed before is the last construct of the next.
  induction ls generalizing inner with
  | nil =>
    simp only [closeLevels, Construct.nestingOfBody_append, Level.nestingOfAll, Level.height]
    omega
  | cons l ls ih =>
    have hinner : Construct.nestingOfBody
        (some { l with body := inner.toList ++ l.body }.closeAtEnd).toList =
          max l.nesting (l.purpose.rise + Construct.nestingOfBody inner.toList) := by
      rw [← l.nesting_append, ← Level.nesting_closeAtEnd]
      exact Nat.max_zero _
    rw [closeLevels, ih, hinner, Level.nestingOfAll, Level.height]
    omega

/-- **The template of a reading needs what its last state needs**, and one more for itself. -/
theorem need_finish {p : Progress} (hstops : p.block.stops = [.endOfBody]) :
    Template.need p.finish.block.toSection = 1 + p.nesting := by
  rw [Template.need, block_finish hstops, Block.toSection, Construct.nestingOfBody_reverse,
    nesting_closeLevels]
  rw [← p.nesting_settle, nesting]
  have htop := p.settle.height_le_nesting
  simp only [Option.toList_none, Construct.nestingOfBody, nesting] at htop ⊢
  omega

end Progress

/-! ## The same state at another depth -/

namespace Level

/-- The levels above a block at depth `ground`, each as deep as those below it demand. -/
def regrade (ground : Nat) : List Level → List Level
  | [] => []
  | l :: ls => { l with depth := ground + height (l :: ls) } :: regrade ground ls

/-- The depths of the levels fit that of the block below them. -/
def Graded (ground : Nat) : List Level → Prop
  | [] => True
  | l :: ls => l.depth = ground + height (l :: ls) ∧ Graded ground ls

end Level

namespace Progress

/-- The state with its block at another depth. -/
def atDepth (p : Progress) (d : Nat) : Progress :=
  { p with block := { p.block with depth := d }, levels := Level.regrade d p.levels }

/-- The depths of the levels fit that of the block. -/
def Graded (p : Progress) : Prop := Level.Graded p.block.depth p.levels

variable (p : Progress) (d : Nat)

theorem depth_atDepth : (p.atDepth d).depth = d + Level.height p.levels := by
  unfold atDepth depth
  cases p.levels <;> rfl

theorem levels_atDepth {p : Progress} {l : Level} {ls : List Level} (h : p.levels = l :: ls) :
    (p.atDepth d).levels =
      { l with depth := d + Level.height (l :: ls) } :: Level.regrade d ls := by
  rw [atDepth, h]
  rfl

/-- A level on top of others, at the depth that they demand. -/
theorem atDepth_levels (l : Level) (ls : List Level) {depth : Nat}
    (h : depth = d + Level.height (l :: ls)) :
    { p with levels := l :: ls }.atDepth d =
      { p.atDepth d with levels := { l with depth := depth } :: Level.regrade d ls } := by
  subst h
  rfl

theorem Graded.depth_eq {p : Progress} (h : p.Graded) :
    p.depth = p.block.depth + Level.height p.levels := by
  unfold Graded at h
  unfold depth
  cases hlevels : p.levels with
  | nil => rfl
  | cons l ls =>
    rw [hlevels] at h
    exact h.1

theorem Graded.push {p : Progress} (h : p.Graded) (c : Construct) : (p.push c).Graded := by
  unfold Graded at h ⊢
  unfold Progress.push
  cases hlevels : p.levels with
  | nil => trivial
  | cons l ls =>
    rw [hlevels] at h
    exact h

theorem Graded.settle {p : Progress} (h : p.Graded) : p.settle.Graded := by
  unfold Progress.settle
  split
  · exact h
  · exact h.push _

theorem Graded.swallow {p : Progress} (h : p.Graded) (k : Keyword) (f : Field) :
    (p.swallow k f).Graded := by
  unfold Graded at h ⊢
  unfold Progress.swallow
  cases hlevels : p.levels with
  | nil => trivial
  | cons l ls =>
    rw [hlevels] at h
    exact h

theorem frames_atDepth : (p.atDepth d).frames = p.frames := by
  unfold atDepth frames
  induction p.levels with
  | nil => rfl
  | cons l ls ih => simpa [Level.regrade, Level.frame] using ih

theorem push_atDepth (c : Construct) : (p.atDepth d).push c = (p.push c).atDepth d := by
  unfold push atDepth
  cases p.levels <;> rfl

theorem settle_atDepth : (p.atDepth d).settle = p.settle.atDepth d := by
  unfold settle
  rw [push_atDepth]
  show (if p.stretch.isEmpty then _ else _) = _
  split <;> rfl

theorem closeLevel_atDepth (ls : List Level) (c : Construct) :
    (p.atDepth d).closeLevel (Level.regrade d ls) c = (p.closeLevel ls c).atDepth d :=
  push_atDepth { p with levels := ls } d c

/-- A stray is swallowed by the same tag, and remembered with the depth it was met at. -/
theorem swallow_atDepth (k : Keyword) (f : Field) :
    (p.atDepth d).swallow k f =
      { (p.swallow k f).atDepth d with strays := ⟨k, d + Level.height p.levels⟩ :: p.strays } := by
  have hdepth := p.depth_atDepth d
  unfold swallow
  rw [hdepth]
  unfold atDepth
  cases p.levels <;> rfl

theorem closeLevels_atDepth (b : Block) (inner : Option Construct) (ls : List Level) :
    closeLevels { b with depth := d } inner (Level.regrade d ls) =
      { closeLevels b inner ls with depth := d } := by
  induction ls generalizing inner with
  | nil => rfl
  | cons l ls ih => exact ih _

theorem finish_atDepth (hstops : p.block.stops = [.endOfBody]) :
    (p.atDepth d).finish.block.toSection = p.finish.block.toSection := by
  have hstops' : (p.atDepth d).block.stops = [.endOfBody] := hstops
  rw [block_finish hstops', block_finish hstops, settle_atDepth, atDepth, closeLevels_atDepth]
  rfl

end Progress

/-! ## Steps -/

/-- The limit plays no part in what a field says. -/
theorem single?_withLimit (s : Setting) (m : Nat) (f : Field) (k : Keyword) :
    single? (s.withLimit m) f k = single? s f k := by
  cases k <;> rfl

theorem opened?_withLimit {s : Setting} {f : Field} {depth : Nat} {k : Keyword} {l : Level}
    (h : opened? s f depth k = some l) (m depth' : Nat) :
    opened? (s.withLimit m) f depth' k = some { l with depth := depth' } := by
  unfold opened? at h ⊢
  split at h <;> cases h <;> rfl

/-- A level that has just been opened lies one deeper than the body around it, and holds nothing. -/
theorem opened?_nesting {s : Setting} {f : Field} {depth : Nat} {k : Keyword} {l : Level}
    (h : opened? s f depth k = some l) :
    l.depth = depth ∧ l.purpose.rise = 1 ∧ l.nesting = 1 := by
  unfold opened? at h
  split at h <;> cases h <;> exact ⟨rfl, rfl, rfl⟩

/-- A further condition needs one more than the level that it follows. -/
theorem Level.nesting_elseIf (s : Setting) {l : Level} {earlier : List (Branch Construct)}
    {condition : Option Expression} (h : l.purpose = .branch earlier condition) (depth : Nat)
    (f : Field) :
    (Level.ofCondition s depth (l.toBranch condition :: earlier) f).nesting =
      max l.nesting (l.purpose.rise + 1) := by
  simp only [nesting, h, ofCondition, toBranch, Purpose.finished, Purpose.rise,
    Construct.nestingOfChain, Construct.nestingOfBody, Construct.nestingOfBody_reverse,
    List.length_cons]
  omega

/-- What `m:else` opens needs no more. -/
theorem Level.nesting_otherwise {l : Level} {earlier : List (Branch Construct)}
    {condition : Option Expression} (h : l.purpose = .branch earlier condition) (depth : Nat)
    (f : Field) :
    (Level.ofOtherwise depth earlier (l.toBranch condition) f).nesting = l.nesting := by
  simp only [nesting, h, ofOtherwise, toBranch, Purpose.finished, Purpose.rise,
    Construct.nestingOfChain, Construct.nestingOfBody, Construct.nestingOfBody_reverse]
  omega

theorem single?_nesting {s : Setting} {f : Field} {k : Keyword} {c : Construct}
    (h : single? s f k = some c) : c.nesting = 0 := by
  obtain ⟨tag, -, ⟨-, _, _, rfl⟩ | ⟨-, _, rfl⟩ | ⟨-, _, _, _, rfl⟩⟩ := single?_cases h <;> rfl

section Steps

variable {s : Setting} {p q : Progress}

/-- **What a tag needs**: no more than was needed before, or a body one deeper than the innermost
one, which the limit allows. -/
theorem TagStep.nesting {k : Keyword} {f : Field} (h : TagStep s p k f q) :
    q.nesting = p.nesting ∨
      q.nesting = max p.nesting (Level.height p.levels + 1) ∧ p.depth < s.limit := by
  cases h with
  | single hc =>
    left
    rw [p.nesting_push, single?_nesting hc, Nat.add_zero, Nat.max_eq_left p.height_le_nesting]
  | opens hl hlimit =>
    obtain ⟨-, -, hnesting⟩ := opened?_nesting hl
    refine .inr ⟨?_, hlimit⟩
    simp only [Progress.nesting, Level.nestingOfAll, hnesting]
    omega
  | closes hlevels hends => exact .inl (Progress.nesting_closeLevel hlevels f)
  | elseIf hlevels hpurpose hlimit =>
    -- The new condition takes the place of the level that it follows, one deeper.
    right
    constructor
    · simp only [Progress.nesting, hlevels, Level.nestingOfAll, Level.height,
        Level.nesting_elseIf s hpurpose]
      omega
    · simpa only [Progress.depth, hlevels] using hlimit
  | otherwise hlevels hpurpose =>
    left
    simp only [Progress.nesting, hlevels, Level.nestingOfAll, Level.nesting_otherwise hpurpose]
  | strays hterminator hnone => exact .inl (p.nesting_swallow k f)

/-- Every tag leaves the depths in order. -/
theorem TagStep.graded {k : Keyword} {f : Field} (h : TagStep s p k f q) (hp : p.Graded) :
    q.Graded := by
  cases h with
  | single hc => exact hp.push _
  | @opens _ _ l hl hlimit =>
    obtain ⟨hdepth, hrise, -⟩ := opened?_nesting hl
    refine ⟨?_, hp⟩
    show l.depth = p.block.depth + Level.height (l :: p.levels)
    rw [hdepth, hp.depth_eq, Level.height, hrise]
    omega
  | @closes _ _ l ls hlevels hends =>
    have hlevel : Level.Graded p.block.depth (l :: ls) := hlevels ▸ hp
    exact Progress.Graded.push (p := { p with levels := ls }) hlevel.2 _
  | @elseIf _ l ls earlier condition hlevels hpurpose hlimit =>
    have hlevel : Level.Graded p.block.depth (l :: ls) := hlevels ▸ hp
    refine ⟨?_, hlevel.2⟩
    -- The new condition has one branch more before it.
    simp only [Level.ofCondition, hlevel.1, Level.height, hpurpose, Purpose.rise, List.length_cons]
    omega
  | @otherwise _ l ls earlier condition hlevels hpurpose =>
    have hlevel : Level.Graded p.block.depth (l :: ls) := hlevels ▸ hp
    refine ⟨?_, hlevel.2⟩
    simp only [Level.ofOtherwise, hlevel.1, Level.height, hpurpose, Purpose.rise]
  | strays hterminator hnone => exact hp.swallow k f

/-- **A tag takes the same step at any depth where its result fits.** -/
theorem TagStep.atDepth {k : Keyword} {f : Field} (h : TagStep s p k f q) {d m : Nat}
    (hfits : d + q.nesting ≤ m) :
    ∃ strays, TagStep (s.withLimit m) (p.atDepth d) k f { q.atDepth d with strays := strays } := by
  cases h with
  | @single _ _ c hc =>
    refine ⟨((p.push c).atDepth d).strays, ?_⟩
    show TagStep _ _ _ _ ((p.push c).atDepth d)
    rw [← p.push_atDepth]
    exact .single (by rwa [single?_withLimit])
  | @opens _ _ l hl hlimit =>
    obtain ⟨-, hrise, hnesting⟩ := opened?_nesting hl
    refine ⟨p.strays, ?_⟩
    have hdepth : (p.atDepth d).depth + 1 = d + Level.height (l :: p.levels) := by
      rw [p.depth_atDepth, Level.height, hrise]
      omega
    rw [p.atDepth_levels d l p.levels hdepth]
    apply TagStep.opens (opened?_withLimit hl m _)
    -- The new level is part of the result, so it fits.
    simp only [Progress.nesting, Level.nestingOfAll, hnesting] at hfits
    rw [Setting.limit_withLimit, p.depth_atDepth]
    omega
  | @closes _ _ l ls hlevels hends =>
    refine ⟨((p.closeLevel ls (l.close f)).atDepth d).strays, ?_⟩
    show TagStep _ _ _ _ ((p.closeLevel ls (l.close f)).atDepth d)
    have hstep := TagStep.closes (s := s.withLimit m) (f := f) (p.levels_atDepth d hlevels) hends
    -- The depths of the levels below do not depend on the one that is closed.
    rw [← p.closeLevel_atDepth]
    exact hstep
  | @elseIf _ l ls earlier condition hlevels hpurpose hlimit =>
    refine ⟨p.strays, ?_⟩
    have hdepth : d + Level.height (l :: ls) + 1 = d + Level.height
        (Level.ofCondition s (l.depth + 1) (l.toBranch condition :: earlier) f :: ls) := by
      simp only [Level.height, hpurpose, Level.ofCondition, Purpose.rise, List.length_cons]
      omega
    rw [p.atDepth_levels d _ ls hdepth]
    apply TagStep.elseIf (p.levels_atDepth d hlevels) hpurpose
    -- The condition that was open lies one below the new one, which fits.
    simp only [Progress.nesting, Level.nestingOfAll, Level.nesting_elseIf s hpurpose] at hfits
    simp only [Setting.limit_withLimit, Level.height]
    omega
  | @otherwise _ l ls earlier condition hlevels hpurpose =>
    refine ⟨p.strays, ?_⟩
    have hdepth : d + Level.height (l :: ls) = d + Level.height
        (Level.ofOtherwise l.depth earlier (l.toBranch condition) f :: ls) := by
      simp only [Level.height, hpurpose, Level.ofOtherwise, Purpose.rise]
    rw [p.atDepth_levels d _ ls hdepth]
    exact TagStep.otherwise (p.levels_atDepth d hlevels) hpurpose
  | strays hterminator hnone =>
    refine ⟨⟨k, d + Level.height p.levels⟩ :: p.strays, ?_⟩
    rw [← p.swallow_atDepth]
    exact .strays hterminator (by rwa [p.frames_atDepth])

theorem Progress.nesting_table (p : Progress) (id : TableId) (us : List (List Template))
    (strays : List Stray) :
    { p.settle.push (.table id us) with strays := strays }.nesting =
      max p.nesting (Level.height p.levels + Construct.nestingOfRows us) := by
  have hpush := p.settle.nesting_push (.table id us)
  rw [p.nesting_settle, p.height_settle, Construct.nesting] at hpush
  exact hpush

theorem Reads.graded {t : Token} (h : Reads s t p q) (hp : p.Graded) : q.Graded := by
  cases h with
  | text r p => exact hp
  | tag hstep => exact hstep.graded hp.settle
  | table hcells => exact hp.settle.push _

theorem Reads.nesting_le {t : Token} (h : Reads s t p q) : p.nesting ≤ q.nesting := by
  cases h with
  | text r p => exact Nat.le_refl _
  | @tag k f p q hstep =>
    have hnesting := hstep.nesting
    rw [p.nesting_settle, p.height_settle] at hnesting
    omega
  | @table id rows p us hcells =>
    rw [p.nesting_table]
    exact Nat.le_max_left _ _

theorem Runs.nesting_le {ts : List Token} (h : Runs s ts p q) : p.nesting ≤ q.nesting := by
  induction h with
  | nil p => exact Nat.le_refl _
  | cons hstep hrest ih => exact Nat.le_trans hstep.nesting_le ih

theorem Reads.depth_block {t : Token} (h : Reads s t p q) : q.block.depth = p.block.depth :=
  show q.block.emptied.depth = p.block.emptied.depth by rw [h.emptied]

/-- What is read within the limit stays within the limit. -/
theorem Reads.fits {t : Token} (h : Reads s t p q) (hp : p.Graded)
    (hcells : ∀ id rows, t = .table id rows → ∀ row ∈ rows, ∀ c ∈ row, ∀ depth u,
      Template.ofTokens s depth c = .ok u → depth + u.need ≤ s.limit)
    (hfits : p.block.depth + p.nesting ≤ s.limit) : q.block.depth + q.nesting ≤ s.limit := by
  rw [h.depth_block]
  cases h with
  | text r p => exact hfits
  | @tag k f p q hstep =>
    -- Where a tag opens a body, the innermost one is below the limit, and its depth is known.
    have hnesting := hstep.nesting
    rw [p.nesting_settle, p.height_settle, p.depth_settle, hp.depth_eq] at hnesting
    omega
  | @table id rows p us hread =>
    have htop := p.height_le_nesting
    have hside := forall₂_cells_imp (cellTemplates_eq_ok_iff.mp hread)
      (S := fun _ u => Template.need u ≤ s.limit - p.depth) (fun row hrow c hc u hu => by
        have hneed := hcells id rows rfl row hrow c hc p.depth u hu
        omega)
    have hrows := Construct.nestingOfRows_le_iff.mpr (forall_cells_right hside)
    rw [p.nesting_table]
    rw [hp.depth_eq] at hrows
    omega

/-- **A token is read the same at any depth where its result fits.** -/
theorem Reads.atDepth {t : Token} (h : Reads s t p q) {d m : Nat}
    (hcells : ∀ id rows, t = .table id rows → ∀ row ∈ rows, ∀ c ∈ row, ∀ depth u,
      Template.ofTokens s depth c = .ok u → ∀ depth', depth' + u.need ≤ m →
        Template.ofTokens (s.withLimit m) depth' c = .ok u)
    (hfits : d + q.nesting ≤ m) :
    ∃ strays, Reads (s.withLimit m) t (p.atDepth d) { q.atDepth d with strays := strays } := by
  cases h with
  | text r p => exact ⟨p.strays, .text r (p.atDepth d)⟩
  | @tag k f p q hstep =>
    obtain ⟨strays, hstep'⟩ := hstep.atDepth hfits
    rw [← p.settle_atDepth] at hstep'
    exact ⟨strays, .tag hstep'⟩
  | @table id rows p us hread =>
    rw [p.nesting_table] at hfits
    have hrows : Construct.nestingOfRows us ≤ m - (p.atDepth d).depth := by
      rw [p.depth_atDepth]
      omega
    have hread' : cellTemplates (s.withLimit m) (p.atDepth d).depth rows = .ok us := by
      have hboth := forall₂_cells_and_right.mpr
        ⟨cellTemplates_eq_ok_iff.mp hread, Construct.nestingOfRows_le_iff.mp hrows⟩
      apply cellTemplates_eq_ok_iff.mpr
      apply forall₂_cells_imp hboth
      rintro row hrow c hc u ⟨hu, hneed⟩
      apply hcells id rows rfl row hrow c hc p.depth u hu
      -- The innermost body itself fits, so that there is room for a cell.
      have htop := p.height_le_nesting
      rw [p.depth_atDepth] at hneed ⊢
      omega
    have hstep : Reads (s.withLimit m) (.table id rows) (p.atDepth d) _ := .table hread'
    rw [p.settle_atDepth, Progress.push_atDepth] at hstep
    exact ⟨_, hstep⟩

theorem Runs.fits {ts : List Token} (h : Runs s ts p q) (hp : p.Graded)
    (hcells : ∀ id rows, Token.table id rows ∈ ts → ∀ row ∈ rows, ∀ c ∈ row, ∀ depth u,
      Template.ofTokens s depth c = .ok u → depth + u.need ≤ s.limit)
    (hfits : p.block.depth + p.nesting ≤ s.limit) : q.block.depth + q.nesting ≤ s.limit := by
  induction h with
  | nil p => exact hfits
  | cons hstep hrest ih =>
    apply ih (hstep.graded hp)
    · intro id rows hmem
      exact hcells id rows (List.mem_cons_of_mem _ hmem)
    · exact hstep.fits hp (fun id rows ht => hcells id rows (ht ▸ List.mem_cons_self)) hfits

/-- Reading on at another depth ends in the same template. -/
theorem Runs.templateAfter_atDepth {ts : List Token} (h : Runs s ts p q)
    (hstops : p.block.stops = [.endOfBody]) {d m : Nat}
    (hcells : ∀ id rows, Token.table id rows ∈ ts → ∀ row ∈ rows, ∀ c ∈ row, ∀ depth u,
      Template.ofTokens s depth c = .ok u → ∀ depth', depth' + u.need ≤ m →
        Template.ofTokens (s.withLimit m) depth' c = .ok u)
    (hfits : d + q.nesting ≤ m) :
    (p.atDepth d).templateAfter (s.withLimit m) ts = .ok q.finish.block.toSection := by
  induction h with
  | nil p => rw [Progress.templateAfter_nil, p.finish_atDepth d hstops]
  | @cons t ts p q r hstep hrest ih =>
    -- Nothing that is read later takes away from what is needed now.
    have hq : d + q.nesting ≤ m := by
      have hle := hrest.nesting_le
      omega
    obtain ⟨strays, hstep'⟩ := hstep.atDepth
      (fun id rows ht => hcells id rows (ht ▸ List.mem_cons_self)) hq
    have hstops' : (p.atDepth d).block.stops = [.endOfBody] := hstops
    rw [Progress.templateAfter_cons hstops', readToken_eq_next_iff.mpr hstep']
    -- The strays met on the way carry their depth, but nothing depends on them.
    show Progress.templateAfter _ _ _ = _
    rw [Progress.templateAfter_strays]
    apply ih (hstep.stops.trans hstops)
    · intro id rows hmem
      exact hcells id rows (List.mem_cons_of_mem _ hmem)
    · exact hfits

/-- **A template fits the limit under which it is read.** -/
theorem Template.need_le {depth : Nat} {ts : List Token} {t : Template}
    (h : Template.ofTokens s depth ts = .ok t) : depth + t.need ≤ s.limit := by
  induction ts using Token.cellInduction generalizing depth t with
  | h ts cells =>
    obtain ⟨hlimit, q, hruns, rfl⟩ := Template.ofTokens_eq_ok_iff.mp h
    have hstart : (Progress.fresh depth).block.depth + (Progress.fresh depth).nesting ≤ s.limit :=
      hlimit
    have hfits := hruns.fits trivial (fun id rows hmem row hrow c hc depth u hu =>
      cells id rows hmem row hrow c hc hu) hstart
    have hdepth : q.block.depth = depth + 1 :=
      show q.block.emptied.depth = _ by rw [hruns.emptied]; rfl
    rw [Progress.need_finish hruns.stops]
    omega

/-- A template is read wherever it fits. -/
theorem Template.ofTokens_withLimit {depth : Nat} {ts : List Token} {t : Template}
    (h : Template.ofTokens s depth ts = .ok t) {m : Nat} :
    ∀ depth', depth' + t.need ≤ m → Template.ofTokens (s.withLimit m) depth' ts = .ok t := by
  refine Template.ofTokens_induction h ?_
  intro depth ts q hruns hcells depth' hfits
  rw [Progress.need_finish hruns.stops] at hfits
  have hlimit : depth' < (s.withLimit m).limit := by
    rw [Setting.limit_withLimit]
    omega
  rw [Template.ofTokens_eq_fresh hlimit]
  -- Without levels, a fresh state at one depth is a fresh state moved to it.
  have hfresh : Progress.fresh depth' = (Progress.fresh depth).atDepth (depth' + 1) := rfl
  rw [hfresh]
  apply hruns.templateAfter_atDepth rfl
  · exact hcells
  · omega

/-- **At which depths and under which limits a template is read**: those that it fits. -/
theorem Template.ofTokens_withLimit_iff {depth : Nat} {ts : List Token} {t : Template}
    (h : Template.ofTokens s depth ts = .ok t) {depth' m : Nat} :
    Template.ofTokens (s.withLimit m) depth' ts = .ok t ↔ depth' + t.need ≤ m :=
  ⟨Template.need_le, Template.ofTokens_withLimit h depth'⟩

end Steps

end DocTemplate
