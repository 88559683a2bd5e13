import DocTemplate.Proofs.Gathering
import DocTemplate.Proofs.Reduction

/-!
# Readings that agree

Two readings go side by side, with two settings and over two lists of tokens. An agreement lists what
has to hold of single fields and single tags so that a reduction cannot tell the two readings apart:
which fields and which stretches of plain runs count as the same, and that whatever is made of two
such fields is reduced to the same. From that it follows for whole readings, however deep the tokens
nest: both end in templates that are reduced to the same, or both fail with errors that are.

## Main statements

- `Agreement.readTag`, `Agreement.readToken_table`: what one token does to both readings
- `Agreement.Alike.readAlike`: tokens that count as the same are read to the same
-/

namespace DocTemplate

/-- Settings `s` and `s'`, with a sameness of fields and of stretches, that a reduction cannot tell
apart field by field. -/
structure Agreement (r : Reduction) (s s' : Setting) where
  stretch : List RunId → List RunId → Prop
  field : Field → Field → Prop
  limit : s.limit = s'.limit
  stretch_nil : stretch [] []
  stretch_append : ∀ {xs ys xs' ys'}, stretch xs ys → stretch xs' ys' →
    stretch (xs ++ xs') (ys ++ ys')
  stretch_eq_nil : ∀ {xs ys}, stretch xs ys → (xs = [] ↔ ys = [])
  text : ∀ {xs ys}, stretch xs ys → r.text { runs := xs } = r.text { runs := ys }
  single : ∀ {f g}, field f g → ∀ k,
    (single? s f k).map (Construct.reduce r) = (single? s' g k).map (Construct.reduce r)
  loop : ∀ {f g}, field f g →
    r.tag (readLoop s f).tag = r.tag (readLoop s' g).tag ∧
      (readLoop s f).iterator = (readLoop s' g).iterator ∧
      r.expression (readLoop s f).source = r.expression (readLoop s' g).source
  condition : ∀ {f g}, field f g →
    r.expression (readCondition s f).1 = r.expression (readCondition s' g).1 ∧
      r.tag (readCondition s f).2 = r.tag (readCondition s' g).2
  opening : ∀ {f g}, field f g → r.tag (Tag.ofField f) = r.tag (Tag.ofField g)
  swallow : ∀ {t u f g}, r.tag t = r.tag u → field f g → ∀ k,
    r.tag (t.swallow k f) = r.tag (u.swallow k g)
  closing : ∀ {t u f g}, r.tag t = r.tag u → field f g →
    r.tag (t.absorb .closing f) = r.tag (u.absorb .closing g)
  cutOff : ∀ {t u}, r.tag t = r.tag u →
    r.tag (t.report (.unexpected .endOfBody) none) = r.tag (u.report (.unexpected .endOfBody) none)
  leftOpen : ∀ {t u}, r.tag t = r.tag u →
    r.tag (t.report .conditionalLeftOpen t.anchor?) = r.tag (u.report .conditionalLeftOpen u.anchor?)
  refused : ∀ {f g}, field f g → ∀ k,
    r.error (.unsupportedTag k f.opening.id) = r.error (.unsupportedTag k g.opening.id)

theorem Level.tag_swallowed (l : Level) (k : Keyword) (f : Field) :
    { l with swallowed := (k, f) :: l.swallowed }.tag = l.tag.swallow k f := by
  simp only [Level.tag, List.reverse_cons, Tag.swallowAll_concat]

theorem Block.tag_swallowed (b : Block) (k : Keyword) (f : Field) :
    { b with swallowed := (k, f) :: b.swallowed }.tag = b.tag.swallow k f := by
  simp only [Block.tag, List.reverse_cons, Tag.swallowAll_concat]

/-! ## States that are reduced to the same -/

inductive Purpose.Same (r : Reduction) : Purpose → Purpose → Prop where
  | loop (iterator : Option String) {x y : Option Expression}
      (hsource : r.expression x = r.expression y) : Same r (.loop iterator x) (.loop iterator y)
  | branch {bs cs : List (Branch Construct)} {x y : Option Expression}
      (hearlier : bs.map (Construct.reduceBranch r) = cs.map (Construct.reduceBranch r))
      (hcondition : r.expression x = r.expression y) : Same r (.branch bs x) (.branch cs y)
  | otherwise {bs cs : List (Branch Construct)} {b c : Branch Construct}
      (hearlier : bs.map (Construct.reduceBranch r) = cs.map (Construct.reduceBranch r))
      (hlast : Construct.reduceBranch r b = Construct.reduceBranch r c) :
      Same r (.otherwise bs b) (.otherwise cs c)

structure Level.Same (r : Reduction) (l m : Level) : Prop where
  purpose : l.purpose.Same r m.purpose
  depth : l.depth = m.depth
  tag : r.tag l.tag = r.tag m.tag
  body : l.body.map (Construct.reduce r) = m.body.map (Construct.reduce r)

structure Block.Same (r : Reduction) (b c : Block) : Prop where
  depth : b.depth = c.depth
  tag : r.tag b.tag = r.tag c.tag
  body : b.body.map (Construct.reduce r) = c.body.map (Construct.reduce r)

namespace Agreement

variable {r : Reduction} {s s' : Setting} (a : Agreement r s s')

/-- Two states that a reduction cannot tell apart. -/
structure Same (p q : Progress) : Prop where
  block : p.block.Same r q.block
  levels : List.Forall₂ (Level.Same r) p.levels q.levels
  stretch : a.stretch p.stretch.reverse q.stretch.reverse

/-- Two steps that lead to such states, or fail with errors that are reduced to the same. -/
inductive SameStep : Step → Step → Prop where
  | next {p q : Progress} (h : a.Same p q) : SameStep (.next p) (.next q)
  | fail {e e' : ParseError} (h : r.error e = r.error e') (taken taken' : Bool) (p q : Progress) :
      SameStep (.fail e taken p) (.fail e' taken' q)

variable {a} {p q : Progress}

/-- Nothing is open in both states, or what is innermost in one is the same as in the other. -/
theorem Same.levels_cases (h : a.Same p q) :
    (p.levels = [] ∧ q.levels = []) ∨
      ∃ l ls m ms, p.levels = l :: ls ∧ q.levels = m :: ms ∧ l.Same r m ∧
        List.Forall₂ (Level.Same r) ls ms := by
  have hlevels := h.levels
  cases hp : p.levels with
  | nil =>
    rw [hp] at hlevels
    exact .inl ⟨rfl, List.forall₂_nil_left_iff.mp hlevels⟩
  | cons l ls =>
    rw [hp] at hlevels
    obtain ⟨m, ms, hl, hls, hq⟩ := List.forall₂_cons_left_iff.mp hlevels
    exact .inr ⟨l, ls, m, ms, rfl, hq, hl, hls⟩

namespace Same

theorem depth (h : a.Same p q) : p.depth = q.depth := by
  rcases h.levels_cases with ⟨hp, hq⟩ | ⟨l, ls, m, ms, hp, hq, hl, -⟩
  · simp only [Progress.depth, hp, hq]
    exact h.block.depth
  · simp only [Progress.depth, hp, hq]
    exact hl.depth

theorem push (h : a.Same p q) {c d : Construct} (hcd : c.reduce r = d.reduce r) :
    a.Same (p.push c) (q.push d) := by
  rcases h.levels_cases with ⟨hp, hq⟩ | ⟨l, ls, m, ms, hp, hq, hl, hls⟩
  · simp only [Progress.push, hp, hq]
    refine ⟨⟨h.block.depth, h.block.tag, ?_⟩, .nil, h.stretch⟩
    rw [List.map_cons, List.map_cons, hcd, h.block.body]
  · simp only [Progress.push, hp, hq]
    refine ⟨h.block, .cons ⟨hl.purpose, hl.depth, hl.tag, ?_⟩ hls, h.stretch⟩
    rw [List.map_cons, List.map_cons, hcd, hl.body]

theorem settle (h : a.Same p q) : a.Same p.settle q.settle := by
  have hnil : p.stretch = [] ↔ q.stretch = [] := by simpa using a.stretch_eq_nil h.stretch
  unfold Progress.settle
  by_cases hempty : p.stretch = []
  · simpa [hempty, hnil.mp hempty] using h
  · have hother : q.stretch ≠ [] := fun hq => hempty (hnil.mpr hq)
    have htext : (Construct.text { runs := p.stretch.reverse }).reduce r =
        (Construct.text { runs := q.stretch.reverse }).reduce r := by
      rw [Construct.reduce, Construct.reduce, a.text h.stretch]
    obtain ⟨hblock, hlevels, -⟩ := h.push htext
    simp only [List.isEmpty_iff, hempty, hother, if_false]
    exact ⟨hblock, hlevels, a.stretch_nil⟩

theorem swallow (h : a.Same p q) {f g : Field} (hfield : a.field f g) (k : Keyword) :
    a.Same (p.swallow k f) (q.swallow k g) := by
  rcases h.levels_cases with ⟨hp, hq⟩ | ⟨l, ls, m, ms, hp, hq, hl, hls⟩
  · simp only [Progress.swallow, hp, hq]
    refine ⟨⟨h.block.depth, ?_, h.block.body⟩, .nil, h.stretch⟩
    rw [Block.tag_swallowed, Block.tag_swallowed]
    exact a.swallow h.block.tag hfield k
  · simp only [Progress.swallow, hp, hq]
    refine ⟨h.block, .cons ⟨hl.purpose, hl.depth, ?_, hl.body⟩ hls, h.stretch⟩
    rw [Level.tag_swallowed, Level.tag_swallowed]
    exact a.swallow hl.tag hfield k

/-- Other levels may be opened in the place of the innermost ones. -/
theorem withLevels (h : a.Same p q) {ls ms : List Level}
    (hlevels : List.Forall₂ (Level.Same r) ls ms) :
    a.Same { p with levels := ls } { q with levels := ms } := ⟨h.block, hlevels, h.stretch⟩

end Same

/-! ## Levels -/

variable {f g : Field}

theorem same_ofLoop (hfield : a.field f g) (depth : Nat) :
    (Level.ofLoop s depth f).Same r (Level.ofLoop s' depth g) := by
  obtain ⟨htag, hiterator, hsource⟩ := a.loop hfield
  refine ⟨?_, rfl, ?_, rfl⟩
  · simp only [Level.ofLoop, hiterator]
    exact .loop _ hsource
  · simpa [Level.ofLoop, Level.tag, Tag.swallowAll_nil] using htag

theorem same_ofCondition (hfield : a.field f g) (depth : Nat) {bs cs : List (Branch Construct)}
    (hearlier : bs.map (Construct.reduceBranch r) = cs.map (Construct.reduceBranch r)) :
    (Level.ofCondition s depth bs f).Same r (Level.ofCondition s' depth cs g) := by
  obtain ⟨hcondition, htag⟩ := a.condition hfield
  refine ⟨.branch hearlier hcondition, rfl, ?_, rfl⟩
  simpa [Level.ofCondition, Level.tag, Tag.swallowAll_nil] using htag

theorem same_ofOtherwise (hfield : a.field f g) (depth : Nat) {bs cs : List (Branch Construct)}
    {b c : Branch Construct}
    (hearlier : bs.map (Construct.reduceBranch r) = cs.map (Construct.reduceBranch r))
    (hlast : Construct.reduceBranch r b = Construct.reduceBranch r c) :
    (Level.ofOtherwise depth bs b f).Same r (Level.ofOtherwise depth cs c g) := by
  refine ⟨.otherwise hearlier hlast, rfl, ?_, rfl⟩
  simpa [Level.ofOtherwise, Level.tag, Tag.swallowAll_nil] using a.opening hfield

end Agreement

namespace Level.Same

variable {r : Reduction} {l m : Level}

theorem reduce_body (h : l.Same r m) :
    Construct.reduceEach r l.body.reverse = Construct.reduceEach r m.body.reverse := by
  rw [Construct.reduceEach_eq_map, Construct.reduceEach_eq_map, List.map_reverse, List.map_reverse,
    h.body]

theorem reduce_toBranch (h : l.Same r m) {x y : Option Expression}
    (hcondition : r.expression x = r.expression y) :
    Construct.reduceBranch r (l.toBranch x) = Construct.reduceBranch r (m.toBranch y) := by
  simp only [Level.toBranch, Construct.reduceBranch, h.tag, hcondition, h.reduce_body]

theorem frame (h : l.Same r m) : l.frame = m.frame := by
  have hpurpose := h.purpose
  unfold Level.frame
  cases hl : l.purpose <;> cases hm : m.purpose <;> rw [hl, hm] at hpurpose <;> cases hpurpose

theorem branch (h : l.Same r m) {bs : List (Branch Construct)} {x : Option Expression}
    (hl : l.purpose = .branch bs x) :
    ∃ cs y, m.purpose = .branch cs y ∧
      bs.map (Construct.reduceBranch r) = cs.map (Construct.reduceBranch r) ∧
      r.expression x = r.expression y := by
  have hpurpose := h.purpose
  cases hm : m.purpose <;> rw [hl, hm] at hpurpose <;> cases hpurpose
  case branch.branch hearlier hcondition => exact ⟨_, _, rfl, hearlier, hcondition⟩

theorem reduce_close (h : l.Same r m) {s s' : Setting} {f g : Field} {a : Agreement r s s'}
    (hfield : a.field f g) : (l.close f).reduce r = (m.close g).reduce r := by
  have htag := a.closing h.tag hfield
  have hpurpose := h.purpose
  unfold Level.close
  cases hl : l.purpose <;> cases hm : m.purpose <;> rw [hl, hm] at hpurpose <;> cases hpurpose
  case loop.loop.loop hsource => simp only [Construct.reduce, htag, hsource, h.reduce_body]
  case branch.branch.branch hearlier hcondition =>
    simp only [Construct.reduce_ofBranches, Construct.reduceBranch, Construct.reduceElse, htag,
      hcondition, hearlier, h.reduce_body]
  case otherwise.otherwise.otherwise bs b cs c hearlier hlast =>
    -- The closing field goes to the last condition, not to what `m:else` opens.
    obtain ⟨t, x, body⟩ := b
    obtain ⟨u, y, body'⟩ := c
    simp only [Construct.reduceBranch, Branch.mk.injEq] at hlast
    obtain ⟨htags, hconditions, hbodies⟩ := hlast
    simp only [Construct.reduce_ofBranches, Construct.reduceBranch, Construct.reduceElse,
      Construct.reduceSection, a.closing htags hfield, h.tag, hconditions, hbodies, hearlier,
      h.reduce_body]

theorem reduce_closeAtEnd (h : l.Same r m) {s s' : Setting} (a : Agreement r s s') :
    l.closeAtEnd.reduce r = m.closeAtEnd.reduce r := by
  have hcut := a.cutOff h.tag
  have hopen := a.leftOpen hcut
  have hpurpose := h.purpose
  unfold Level.closeAtEnd
  cases hl : l.purpose <;> cases hm : m.purpose <;> rw [hl, hm] at hpurpose <;> cases hpurpose
  case loop.loop.loop hsource => simp only [Construct.reduce, hcut, hsource, h.reduce_body]
  case branch.branch.branch hearlier hcondition =>
    simp only [Construct.reduce_ofBranches, Construct.reduceBranch, Construct.reduceElse, hopen,
      hcondition, hearlier, h.reduce_body]
  case otherwise.otherwise.otherwise hearlier hlast =>
    simp only [Construct.reduce_ofBranches, Construct.reduceElse, Construct.reduceSection, hcut,
      hlast, hearlier, h.reduce_body]

end Level.Same

/-! ## The end of the body -/

namespace Agreement

variable {r : Reduction} {s s' : Setting} {a : Agreement r s s'} {p q : Progress}

theorem same_closeLevels (a : Agreement r s s') {b c : Block} (h : b.Same r c)
    {inner inner' : Option Construct}
    (hinner : inner.map (Construct.reduce r) = inner'.map (Construct.reduce r)) {ls ms : List Level}
    (hlevels : List.Forall₂ (Level.Same r) ls ms) :
    (Progress.closeLevels b inner ls).Same r (Progress.closeLevels c inner' ms) := by
  have hlist : inner.toList.map (Construct.reduce r) = inner'.toList.map (Construct.reduce r) := by
    cases inner <;> cases inner' <;> simp_all
  -- From the innermost level outward: a level that is closed is the last construct of the next.
  induction hlevels generalizing inner inner' with
  | nil =>
    refine ⟨h.depth, h.tag, ?_⟩
    simp only [Progress.closeLevels, List.map_append, hlist, h.body]
  | @cons l m ls ms hl hls ih =>
    have hclosed : { l with body := inner.toList ++ l.body }.Same r
        { m with body := inner'.toList ++ m.body } := by
      refine ⟨hl.purpose, hl.depth, hl.tag, ?_⟩
      rw [List.map_append, List.map_append, hlist, hl.body]
    have hend := hclosed.reduce_closeAtEnd a
    apply ih
    · rw [Option.map_some, Option.map_some, hend]
    · simp [hend]

theorem Same.finish (h : a.Same p q) (hp : p.block.stops = [.endOfBody])
    (hq : q.block.stops = [.endOfBody]) :
    Template.reduce r p.finish.block.toSection = Template.reduce r q.finish.block.toSection := by
  obtain ⟨hblock, hlevels, -⟩ := h.settle
  have hnone : (none : Option Construct).map (Construct.reduce r) = none.map (Construct.reduce r) :=
    rfl
  obtain ⟨-, htag, hbody⟩ := a.same_closeLevels hblock hnone hlevels
  rw [Progress.block_finish hp, Progress.block_finish hq]
  simp only [Template.reduce, Block.toSection, Construct.reduceSection, htag,
    Construct.reduceEach_eq_map, List.map_reverse, hbody]

/-! ## Steps -/

theorem same_openLevel (h : a.Same p q) {level level' : Nat → Level}
    (hlevel : ∀ depth, (level depth).Same r (level' depth)) :
    a.SameStep (p.openLevel s level) (q.openLevel s' level') := by
  unfold Progress.openLevel
  rw [← a.limit, ← h.depth]
  split
  · exact .fail rfl _ _ _ _
  · exact .next (h.withLevels (.cons (hlevel _) h.levels))

theorem Same.frames (h : a.Same p q) : p.frames = q.frames := by
  have hframes := h.levels.imp fun _ _ hl => hl.frame
  rwa [← List.forall₂_map_right_iff, ← List.forall₂_map_left_iff, List.forall₂_eq_eq_eq] at hframes

/-- A further condition and `m:else` take the place of the same condition in both readings. -/
theorem readTag_betweenBranches (h : a.Same p q) {f g : Field} (hfield : a.field f g) {l m : Level}
    {ls ms : List Level} (hp : p.levels = l :: ls) (hq : q.levels = m :: ms) (hl : l.Same r m)
    (hls : List.Forall₂ (Level.Same r) ls ms) {earlier : List (Branch Construct)}
    {condition : Option Expression} (hpurpose : l.purpose = .branch earlier condition) {k : Keyword}
    (hk : k = .elseIf ∨ k = .otherwise) : a.SameStep (p.readTag s k f) (q.readTag s' k g) := by
  obtain ⟨earlier', condition', hpurpose', hearlier, hcondition⟩ := hl.branch hpurpose
  have hlast := hl.reduce_toBranch hcondition
  rcases hk with rfl | rfl
  · simp only [Progress.readTag, hp, hq, hpurpose, hpurpose', ← a.limit, ← hl.depth]
    split
    · exact .fail rfl _ _ _ _
    · apply SameStep.next
      apply h.withLevels
      refine .cons (same_ofCondition hfield _ ?_) hls
      rw [List.map_cons, List.map_cons, hlast, hearlier]
  · simp only [Progress.readTag, hp, hq, hpurpose, hpurpose', ← hl.depth]
    apply SameStep.next
    apply h.withLevels
    exact .cons (same_ofOtherwise hfield _ hearlier hlast) hls

/-- A tag does the same in both readings. -/
theorem readTag (h : a.Same p q) {f g : Field} (hfield : a.field f g) (k : Keyword) :
    a.SameStep (p.readTag s k f) (q.readTag s' k g) := by
  by_cases hterminator : k.isTerminator = true
  · by_cases hnone : advance (.tag k) p.frames = none
    · have hnone' : advance (.tag k) q.frames = none := by rwa [← h.frames]
      rw [readTag_of_advance_eq_none hterminator hnone,
        readTag_of_advance_eq_none hterminator hnone']
      exact .next (h.swallow hfield k)
    · obtain ⟨l, ls, hp, hends | ⟨hk, earlier, condition, hpurpose⟩⟩ :=
        exists_level_of_advance hterminator hnone
      -- What is innermost is the same in both readings, so the tag has its place in both.
      all_goals
        have hlevels := h.levels
        rw [hp] at hlevels
        obtain ⟨m, ms, hl, hls, hq⟩ := List.forall₂_cons_left_iff.mp hlevels
      · have hends' : m.endsAt k := by rwa [Level.endsAt, ← hl.frame]
        rw [readTag_of_tagStep (.closes hp hends), readTag_of_tagStep (.closes hq hends')]
        exact .next ((h.withLevels hls).push (hl.reduce_close hfield))
      · exact readTag_betweenBranches h hfield hp hq hl hls hpurpose hk
  · have hsingle := a.single hfield k
    cases k with
    | query | image | diagram => exact .next (h.push (Option.some.inj hsingle))
    | forEach => exact same_openLevel h fun depth => same_ofLoop hfield depth
    | ifThen => exact same_openLevel h fun depth => same_ofCondition hfield depth rfl
    | element | binding => exact .fail (a.refused hfield _) _ _ _ _
    | endFor | endIf | elseIf | otherwise | endBinding => exact absurd rfl hterminator

/-! ## Tokens -/

/-- Tokens that count as the same: tags with the same keyword and fields that count as the same,
stretches of plain runs that do, and tables with such tokens in their cells. -/
inductive Alike (a : Agreement r s s') : List Token → List Token → Prop where
  | nil : Alike a [] []
  | text {xs ys : List RunId} {ts us : List Token} (hruns : a.stretch xs ys)
      (hrest : Alike a ts us) : Alike a (xs.map .text ++ ts) (ys.map .text ++ us)
  | tag {k : Keyword} {f g : Field} {ts us : List Token} (hfield : a.field f g)
      (hrest : Alike a ts us) : Alike a (.tag k f :: ts) (.tag k g :: us)
  | table {id : TableId} {rows rows' : List (List (List Token))} {ts us : List Token}
      (hcells : List.Forall₂ (List.Forall₂ (Alike a)) rows rows') (hrest : Alike a ts us) :
      Alike a (.table id rows :: ts) (.table id rows' :: us)

/-- Steps that lead to the same lead to the same templates. -/
theorem templateAfter_cons {t u : Token} {ts us : List Token} (hp : p.block.stops = [.endOfBody])
    (hq : q.block.stops = [.endOfBody]) (hstep : a.SameStep (readToken s t p) (readToken s' u q))
    (hrest : ∀ p' q', readToken s t p = .next p' → readToken s' u q = .next q' → a.Same p' q' →
      r.onResult (Template.reduce r) (p'.templateAfter s ts) =
        r.onResult (Template.reduce r) (q'.templateAfter s' us)) :
    r.onResult (Template.reduce r) (p.templateAfter s (t :: ts)) =
      r.onResult (Template.reduce r) (q.templateAfter s' (u :: us)) := by
  rw [Progress.templateAfter_cons hp, Progress.templateAfter_cons hq]
  cases ht : readToken s t p <;> cases hu : readToken s' u q <;> rw [ht, hu] at hstep <;>
    cases hstep
  case next.next.next p' q' h => exact hrest p' q' ht hu h
  case fail.fail.fail he => exact congrArg Except.error he

theorem readToken_table (h : a.Same p q) {id : TableId} {rows rows' : List (List (List Token))}
    (hcells : r.onResult (List.map (List.map (Template.reduce r))) (cellTemplates s p.depth rows) =
      r.onResult (List.map (List.map (Template.reduce r))) (cellTemplates s' p.depth rows')) :
    a.SameStep (readToken s (.table id rows) p) (readToken s' (.table id rows') q) := by
  cases hread : cellTemplates s p.depth rows with
  | error e =>
    rw [hread] at hcells
    obtain ⟨e', hread', he⟩ := Reduction.onResult_eq_error hcells.symm
    rw [h.depth] at hread'
    obtain ⟨p', hfail⟩ := readToken_table_error hread id
    obtain ⟨q', hfail'⟩ := readToken_table_error hread' id
    rw [hfail, hfail']
    exact .fail he.symm _ _ _ _
  | ok ts =>
    rw [hread] at hcells
    obtain ⟨us, hread', hrows⟩ := Reduction.onResult_eq_ok hcells.symm
    rw [h.depth] at hread'
    rw [readToken_table_ok hread, readToken_table_ok hread']
    have htable : (Construct.table id ts).reduce r = (Construct.table id us).reduce r := by
      simp only [Construct.reduce, Construct.reduceRows_eq_map]
      exact congrArg _ hrows.symm
    obtain ⟨hblock, hlevels, hstretch⟩ := h.settle.push htable
    exact .next ⟨hblock, hlevels, hstretch⟩

/-- Induction over tokens that count as the same, through the cells of tables. -/
@[elab_as_elim]
theorem Alike.cellInduction {P : List Token → List Token → Prop} {ts us : List Token}
    (h : a.Alike ts us) (nil : P [] [])
    (text : ∀ xs ys ts us, a.stretch xs ys → P ts us →
      P (xs.map .text ++ ts) (ys.map .text ++ us))
    (tag : ∀ k f g ts us, a.field f g → P ts us → P (.tag k f :: ts) (.tag k g :: us))
    (table : ∀ id rows rows' ts us, List.Forall₂ (List.Forall₂ P) rows rows' → P ts us →
      P (.table id rows :: ts) (.table id rows' :: us)) : P ts us :=
  @Alike.rec r s s' a (fun ts us _ => P ts us)
    (fun rows rows' _ => List.Forall₂ (List.Forall₂ P) rows rows')
    (fun cells cells' _ => List.Forall₂ P cells cells')
    nil (fun hruns _ ih => text _ _ _ _ hruns ih) (fun hfield _ ih => tag _ _ _ _ _ hfield ih)
    (fun _ _ ihcells ih => table _ _ _ _ _ ihcells ih)
    .nil (fun _ _ ihrow ihrows => .cons ihrow ihrows)
    .nil (fun _ _ ihcell ihcells => .cons ihcell ihcells) ts us h

/-- Reading on over the one list and over the other ends in the same, from all states that are. -/
def ReadAlike (a : Agreement r s s') (ts us : List Token) : Prop :=
  ∀ p q : Progress, p.block.stops = [.endOfBody] → q.block.stops = [.endOfBody] → a.Same p q →
    r.onResult (Template.reduce r) (p.templateAfter s ts) =
      r.onResult (Template.reduce r) (q.templateAfter s' us)

theorem ReadAlike.ofTokens {ts us : List Token} (h : a.ReadAlike ts us) (depth : Nat) :
    r.onResult (Template.reduce r) (Template.ofTokens s depth ts) =
      r.onResult (Template.reduce r) (Template.ofTokens s' depth us) := by
  rw [Template.ofTokens_eq_templateAfter, Template.ofTokens_eq_templateAfter, ← a.limit]
  split
  · rfl
  · exact h _ _ rfl rfl ⟨⟨rfl, rfl, rfl⟩, .nil, a.stretch_nil⟩

theorem ReadAlike.cellTemplates {rows rows' : List (List (List Token))}
    (h : List.Forall₂ (List.Forall₂ a.ReadAlike) rows rows') (depth : Nat) :
    r.onResult (List.map (List.map (Template.reduce r))) (cellTemplates s depth rows) =
      r.onResult (List.map (List.map (Template.reduce r))) (cellTemplates s' depth rows') := by
  apply Reduction.onResult_mapM
  refine h.imp fun row row' hrow => Reduction.onResult_mapM ?_
  exact hrow.imp fun c c' hcell => hcell.ofTokens depth

/-- **Readings over tokens that count as the same end in the same.** -/
theorem Alike.readAlike {ts us : List Token} (hlike : a.Alike ts us) : a.ReadAlike ts us := by
  refine hlike.cellInduction ?nil ?text ?tag ?table
  case nil =>
    intro p q hp hq h
    rw [Progress.templateAfter_nil, Progress.templateAfter_nil]
    exact congrArg Except.ok (h.finish hp hq)
  case text =>
    intro xs ys ts us hruns ih p q hp hq h
    rw [Progress.templateAfter_text hp, Progress.templateAfter_text hq]
    refine ih { p with stretch := _ } { q with stretch := _ } hp hq ⟨h.block, h.levels, ?_⟩
    simpa using a.stretch_append h.stretch hruns
  case tag =>
    intro k f g ts us hfield ih p q hp hq h
    apply templateAfter_cons hp hq
    · exact readTag h.settle hfield k
    · intro p' q' hp' hq' h'
      exact ih p' q' ((stops_of_readToken hp').trans hp)
        ((stops_of_readToken hq').trans hq) h'
  case table =>
    intro id rows rows' ts us ihcells ih p q hp hq h
    apply templateAfter_cons hp hq
    · exact readToken_table h (ReadAlike.cellTemplates ihcells p.depth)
    · intro p' q' hp' hq' h'
      exact ih p' q' ((stops_of_readToken hp').trans hp)
        ((stops_of_readToken hq').trans hq) h'

end Agreement

end DocTemplate
