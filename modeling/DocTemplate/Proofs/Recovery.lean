import DocTemplate.Proofs.Pruning
import DocTemplate.Proofs.Tidying

/-!
# Recovery from stray tags

Two readings go side by side, one over all tokens and one over the tokens without the stray tags. The
second is always where the first would be if it had never met a stray: its block and its levels are
those of the first, tidied. Only the current stretch of plain runs may differ, since a stray ends the
stretch of the first reading and not that of the second; so the two are compared after ending the
stretch in both.

## Main statements

- `Reads.follows`: what one token does to both readings
- `Template.ofTokens_prune`: the template without the stray tags is the tidied template
-/

namespace DocTemplate

/-! ## Mirrored states -/

/-- The innermost body, last construct first. -/
def Progress.body (p : Progress) : List Construct :=
  match p.levels with
  | [] => p.block.body
  | l :: _ => l.body

/-- Add a construct to the innermost body; a text joins a text before it. -/
def Progress.attach (p : Progress) (c : Construct) : Progress :=
  match p.levels with
  | [] => { p with block := { p.block with body := Construct.attach p.block.body c } }
  | l :: ls => { p with levels := { l with body := Construct.attach l.body c } :: ls }

/-- What is open in `q` is what is open in `p`, tidied. -/
structure Progress.Mirrors (gone : RunId → Bool) (p q : Progress) : Prop where
  block : q.block = p.block.tidy gone
  levels : q.levels = p.levels.map (Level.tidy gone)

namespace Progress

variable {gone : RunId → Bool} {p q : Progress}

theorem Mirrors.depth (h : p.Mirrors gone q) : q.depth = p.depth := by
  unfold Progress.depth
  rw [h.levels]
  cases p.levels with
  | nil =>
    rw [h.block]
    rfl
  | cons l ls => rfl

theorem Mirrors.levels_cons (h : p.Mirrors gone q) {l : Level} {ls : List Level}
    (hlevels : p.levels = l :: ls) : q.levels = l.tidy gone :: ls.map (Level.tidy gone) := by
  rw [h.levels, hlevels, List.map_cons]

/-- A construct that is added here is attached there. -/
theorem Mirrors.attach (h : p.Mirrors gone q) (c : Construct) :
    (p.push c).Mirrors gone (q.attach (c.tidy gone)) := by
  unfold push Progress.attach
  rw [h.levels]
  cases hlevels : p.levels with
  | nil => exact ⟨by rw [h.block]; rfl, rfl⟩
  | cons l ls => exact ⟨h.block, rfl⟩

theorem attach_of_not_isText (p : Progress) {c : Construct} (h : c.isText = false) :
    p.attach c = p.push c := by
  unfold push attach
  cases p.levels <;> simp only [Construct.attach_of_not_isText _ h]

theorem attach_of_head {p : Progress} (h : ∀ d ∈ p.body.head?, d.isText = false) (c : Construct) :
    p.attach c = p.push c := by
  unfold push attach
  unfold body at h
  cases hlevels : p.levels <;> rw [hlevels] at h <;> simp only [Construct.attach_of_head c h]

/-- Any construct but a text is added here and there. -/
theorem Mirrors.push (h : p.Mirrors gone q) {c : Construct} (hc : c.isText = false) :
    (p.push c).Mirrors gone (q.push (c.tidy gone)) := by
  rw [← attach_of_not_isText q (by rw [Construct.isText_tidy, hc])]
  exact h.attach c

theorem body_push (p : Progress) (c : Construct) : (p.push c).body = c :: p.body := by
  unfold Progress.push body
  cases p.levels <;> rfl

/-- A text that goes on is attached to where it began. -/
theorem attach_push_text (p : Progress) (xs ys : List RunId) :
    (p.push (.text { runs := xs })).attach (.text { runs := ys }) =
      p.push (.text { runs := xs ++ ys }) := by
  unfold Progress.push attach
  cases p.levels <;> simp [Construct.attach, Tag.join]

theorem tidyLast_text {rs : List RunId} (h : ∀ r ∈ rs, gone r = false) (body : List Construct) :
    Construct.tidyLast gone (.text { runs := rs } :: body) =
      Construct.attach (Construct.tidyLast gone body) (.text { runs := rs }) := by
  rw [Construct.tidyLast, Construct.tidy, Tag.tidy_text h]

theorem Mirrors.attach_text {xs ys : List RunId} (hxs : ∀ r ∈ xs, gone r = false)
    (hys : ∀ r ∈ ys, gone r = false) (h : (p.push (.text { runs := xs })).Mirrors gone q) :
    (p.push (.text { runs := xs ++ ys })).Mirrors gone (q.attach (.text { runs := ys })) := by
  have hboth : ∀ r ∈ xs ++ ys, gone r = false := List.forall_mem_append.mpr ⟨hxs, hys⟩
  -- The innermost body is that of the block or that of a level; the argument is the same.
  unfold Progress.push at h ⊢
  cases hcase : p.levels with
  | nil =>
    simp only [hcase] at h ⊢
    have hq : q.levels = [] := by simpa [hcase] using h.levels
    have hblock := h.block
    simp only [Block.tidy, tidyLast_text hxs] at hblock
    unfold Progress.attach
    constructor
    · simp only [hq, hblock, Block.tidy, tidyLast_text hboth, Construct.attach_text_text]
    · simp only [hq, List.map_nil]
  | cons l ls =>
    simp only [hcase] at h ⊢
    have hlevels := h.levels
    simp only [List.map_cons, Level.tidy, tidyLast_text hxs] at hlevels
    unfold Progress.attach
    constructor
    · simp only [hlevels, h.block]
    · simp only [hlevels, List.map_cons, Level.tidy, tidyLast_text hboth,
        Construct.attach_text_text]

/-! ## Ending the stretch -/

/-- One more plain run is attached when the stretch ends. -/
theorem settle_text {p : Progress} (h : p.stretch = [] → ∀ d ∈ p.body.head?, d.isText = false)
    (r : RunId) :
    { p with stretch := r :: p.stretch }.settle = p.settle.attach (.text { runs := [r] }) := by
  rw [settle_of_ne_nil (by simp)]
  by_cases hstretch : p.stretch = []
  · -- The run begins a text, and no text stands before it.
    rw [settle_of_nil hstretch, attach_of_head (h hstretch)]
    unfold Progress.push
    cases p.levels <;> simp [hstretch]
  · rw [settle_of_ne_nil hstretch, attach_push_text]
    simp

theorem Mirrors.settle_text (hkept : ∀ r ∈ p.stretch, gone r = false)
    (h : p.settle.Mirrors gone q) {r : RunId} (hr : gone r = false) :
    { p with stretch := r :: p.stretch }.settle.Mirrors gone
      (q.attach (.text { runs := [r] })) := by
  have hrun : ∀ x ∈ [r], gone x = false := by simpa using hr
  rw [settle_of_ne_nil (by simp)]
  by_cases hstretch : p.stretch = []
  · -- Here a text begins, while there it may go on behind a deleted tag.
    rw [settle_of_nil hstretch] at h
    have hpush := h.attach (.text { runs := [r] })
    rw [Construct.tidy, Tag.tidy_text hrun] at hpush
    unfold Progress.push at hpush ⊢
    simp only [hstretch, List.reverse_singleton]
    cases hlevels : p.levels <;> rw [hlevels] at hpush <;> exact ⟨hpush.block, hpush.levels⟩
  · rw [settle_of_ne_nil hstretch] at h
    have hpush := h.attach_text (by simpa using hkept) hrun
    simpa using hpush

end Progress

/-! ## One reading follows the other -/

/-- Nothing but what is gone has been swallowed, and the current stretch is kept. -/
structure Progress.Genuine (gone : RunId → Bool) (p : Progress) : Prop where
  stretch : ∀ r ∈ p.stretch, gone r = false
  swallowed : ∀ s ∈ p.block.swallowed, ∀ r ∈ s.2.runs, gone r = true
  levels : ∀ l ∈ p.levels, l.Genuine gone

/-- The state `q` is where `p` would be if it had met no stray. -/
structure Progress.Follows (gone : RunId → Bool) (p q : Progress) : Prop where
  genuine : p.Genuine gone
  mirrors : p.settle.Mirrors gone q.settle
  /-- A text that has ended is followed by something else. -/
  ended : q.stretch = [] → ∀ c ∈ q.body.head?, c.isText = false

/-- Tags whose level has a tag of its own. -/
def Keyword.opensBody : Keyword → Bool
  | .forEach | .ifThen | .elseIf | .otherwise => true
  | _ => false

section Genuine

variable {gone : RunId → Bool} {s : Setting} {f : Field}

/-- A level at its start, opened by a field that is kept. -/
theorem Level.genuine_of_describes {l : Level} (htag : l.header.Describes f)
    (hkept : ∀ r ∈ f.runs, gone r = false) (hstyle : (styleRun? f.inner).isSome = true)
    (hswallowed : l.swallowed = []) : l.Genuine gone where
  runs := ⟨f, htag.runs, hkept⟩
  styled := by rw [htag.styleRun, hstyle]
  swallowed := by simp [hswallowed]

/-- There is nothing to tidy up in it but the branches before it. -/
theorem Level.tidy_of_describes {l : Level} (htag : l.header.Describes f)
    (hkept : ∀ r ∈ f.runs, gone r = false) (hswallowed : l.swallowed = []) (hbody : l.body = []) :
    l.tidy gone = { l with purpose := l.purpose.tidy gone } := by
  rw [Level.tidy, Tag.tidy_of_describes htag hkept, hbody, Construct.tidyLast, ← hswallowed, ← hbody]

namespace Progress

variable {p : Progress}

theorem Genuine.push (h : p.Genuine gone) (c : Construct) : (p.push c).Genuine gone := by
  unfold Progress.push
  cases hlevels : p.levels with
  | nil => exact ⟨h.stretch, h.swallowed, by simp⟩
  | cons l ls =>
    have hl : l.Genuine gone := h.levels l (by simp [hlevels])
    refine ⟨h.stretch, h.swallowed, ?_⟩
    exact forall_levels_replace hlevels h.levels ⟨hl.runs, hl.styled, hl.swallowed⟩

theorem Genuine.settle (h : p.Genuine gone) : p.settle.Genuine gone := by
  by_cases hstretch : p.stretch = []
  · rwa [settle_of_nil hstretch]
  · rw [settle_of_ne_nil hstretch]
    apply Genuine.push
    exact ⟨by simp, h.swallowed, h.levels⟩

theorem Genuine.withLevels (h : p.Genuine gone) {ls : List Level} (hls : ∀ l ∈ ls, l.Genuine gone) :
    { p with levels := ls }.Genuine gone := ⟨h.stretch, h.swallowed, hls⟩

/-- Another level takes the place of the innermost one. -/
theorem Genuine.replace (h : p.Genuine gone) {l new : Level} {ls : List Level}
    (hlevels : p.levels = l :: ls) (hnew : new.Genuine gone) :
    { p with levels := new :: ls }.Genuine gone := by
  apply h.withLevels
  exact forall_levels_replace hlevels h.levels hnew

theorem Genuine.swallow (h : p.Genuine gone) {k : Keyword} (hgone : ∀ r ∈ f.runs, gone r = true) :
    (p.swallow k f).Genuine gone := by
  unfold Progress.swallow
  cases hlevels : p.levels with
  | nil =>
    refine ⟨h.stretch, ?_, by simp⟩
    exact List.forall_mem_cons.mpr ⟨hgone, h.swallowed⟩
  | cons l ls =>
    have hl : l.Genuine gone := h.levels l (by simp [hlevels])
    refine ⟨h.stretch, h.swallowed, forall_levels_replace hlevels h.levels ?_⟩
    exact ⟨hl.runs, hl.styled, List.forall_mem_cons.mpr ⟨hgone, hl.swallowed⟩⟩

end Progress

/-- A tag that is understood by itself has nothing to tidy up and is no text. -/
theorem single?_tidy {k : Keyword} {c : Construct} (h : single? s f k = some c)
    (hkept : ∀ r ∈ f.runs, gone r = false) : c.tidy gone = c ∧ c.isText = false := by
  unfold single? at h
  split at h <;> cases h
  · obtain ⟨tag, e, d, hread, htag⟩ := readQuery_describes s f
    rw [hread, Construct.tidy, Tag.tidy_of_describes htag hkept]
    exact ⟨rfl, rfl⟩
  · obtain ⟨tag, o, hread, htag⟩ := readImage_describes f
    rw [hread, Construct.tidy, Tag.tidy_of_describes htag hkept]
    exact ⟨rfl, rfl⟩
  · obtain ⟨tag, o, n, x, hread, htag⟩ := readDiagram_describes s f
    rw [hread, Construct.tidy, Tag.tidy_of_describes htag hkept]
    exact ⟨rfl, rfl⟩

/-- A condition that a level builds stays one. -/
theorem Level.purpose_tidy (gone : RunId → Bool) {l : Level} {earlier : List (Branch Construct)}
    {condition : Option Expression} (h : l.purpose = .branch earlier condition) :
    (l.tidy gone).purpose = .branch (earlier.map (Construct.tidyBranch gone)) condition := by
  rw [Level.tidy, h, Purpose.tidy]

/-- An opening tag opens the same level in both readings. -/
theorem opened?_tidy {k : Keyword} {depth : Nat} {l : Level} (h : opened? s f depth k = some l)
    (hkept : ∀ r ∈ f.runs, gone r = false) (hstyle : (styleRun? f.inner).isSome = true) :
    l.tidy gone = l ∧ l.Genuine gone ∧ l.body = [] := by
  unfold opened? at h
  split at h <;> cases h
  · have htag : (Level.ofLoop s depth f).header.Describes f := readLoop_describes s f
    rw [Level.tidy_of_describes htag hkept rfl rfl]
    exact ⟨rfl, Level.genuine_of_describes htag hkept hstyle rfl, rfl⟩
  · have htag : (Level.ofCondition s depth [] f).header.Describes f := readCondition_describes s f
    rw [Level.tidy_of_describes htag hkept rfl rfl]
    exact ⟨rfl, Level.genuine_of_describes htag hkept hstyle rfl, rfl⟩

end Genuine

/-! ## Tags -/

/-- A tag that is in its place does the same in both readings. -/
theorem TagStep.mirrors {gone : RunId → Bool} {s : Setting} {p p' q : Progress} {k : Keyword}
    {f : Field} (h : TagStep s p k f p') (hplace : advance (.tag k) p.frames ≠ none)
    (hgenuine : p.Genuine gone) (hmirrors : p.Mirrors gone q)
    (hkept : ∀ r ∈ f.runs, gone r = false)
    (hstyle : k.opensBody = true → (styleRun? f.inner).isSome = true) :
    ∃ q', TagStep s q k f q' ∧ p'.Genuine gone ∧ p'.Mirrors gone q' ∧
      ∀ c ∈ q'.body.head?, c.isText = false := by
  cases h with
  | @single _ _ c hc =>
    obtain ⟨htidy, hnot⟩ := single?_tidy hc hkept
    have hpush := hmirrors.push hnot
    rw [htidy] at hpush
    refine ⟨_, .single hc, hgenuine.push c, hpush, ?_⟩
    simpa [Progress.body_push] using hnot
  | @opens _ _ l hl hlimit =>
    have hopens : k.opensBody = true := by cases k <;> first | rfl | cases hl
    obtain ⟨htidy, hnew, hbody⟩ := opened?_tidy hl hkept (hstyle hopens)
    rw [← hmirrors.depth] at hl hlimit
    refine ⟨_, .opens hl hlimit, ?_, ⟨hmirrors.block, ?_⟩, ?_⟩
    · exact hgenuine.withLevels (List.forall_mem_cons.mpr ⟨hnew, hgenuine.levels⟩)
    · simp [htidy, hmirrors.levels]
    · simp [Progress.body, hbody]
  | @closes _ _ l ls hlevels hends =>
    have hl : l.Genuine gone := hgenuine.levels l (by simp [hlevels])
    have hq := hmirrors.levels_cons hlevels
    have hends' : (l.tidy gone).endsAt k := by rwa [Level.endsAt, Level.frame_tidy]
    -- Closing commutes with tidying, so both readings add the same construct.
    have hrest : { p with levels := ls }.Mirrors gone
        { q with levels := ls.map (Level.tidy gone) } := ⟨hmirrors.block, rfl⟩
    have hpush := hrest.push (l.isText_close f)
    rw [← Level.close_tidy hl hkept] at hpush
    refine ⟨_, .closes hq hends', ?_, hpush, ?_⟩
    · apply Progress.Genuine.push
      exact hgenuine.withLevels fun l' hl' => hgenuine.levels l' (by simp [hlevels, hl'])
    · simp [Progress.closeLevel, Progress.body_push, Level.isText_close]
  | @elseIf _ l ls earlier condition hlevels hpurpose hlimit =>
    have hl : l.Genuine gone := hgenuine.levels l (by simp [hlevels])
    have hq := hmirrors.levels_cons hlevels
    have hpurpose' := Level.purpose_tidy gone hpurpose
    have htag : (Level.ofCondition s (l.depth + 1) (l.toBranch condition :: earlier) f).header.Describes
        f := readCondition_describes s f
    refine ⟨_, .elseIf hq hpurpose' hlimit, ?_, ⟨hmirrors.block, ?_⟩, ?_⟩
    · exact hgenuine.replace hlevels (Level.genuine_of_describes htag hkept (hstyle rfl) rfl)
    · rw [List.map_cons, Level.tidy_of_describes htag hkept rfl rfl, Level.toBranch_tidy hl]
      rfl
    · simp [Progress.body, Level.ofCondition]
  | @otherwise _ l ls earlier condition hlevels hpurpose =>
    have hl : l.Genuine gone := hgenuine.levels l (by simp [hlevels])
    have hq := hmirrors.levels_cons hlevels
    have hpurpose' := Level.purpose_tidy gone hpurpose
    have htag : (Level.ofOtherwise l.depth earlier (l.toBranch condition) f).header.Describes f :=
      .ofField f
    refine ⟨_, .otherwise hq hpurpose', ?_, ⟨hmirrors.block, ?_⟩, ?_⟩
    · exact hgenuine.replace hlevels (Level.genuine_of_describes htag hkept (hstyle rfl) rfl)
    · rw [List.map_cons, Level.tidy_of_describes htag hkept rfl rfl, Level.toBranch_tidy hl]
      rfl
    · simp [Progress.body, Level.ofOtherwise]
  | strays hterminator hnone => exact absurd hnone hplace

/-- A stray tag leaves nothing to see in the tidied state. -/
theorem Progress.Mirrors.swallow {gone : RunId → Bool} {p q : Progress} (h : p.Mirrors gone q)
    (k : Keyword) (f : Field) : (p.swallow k f).Mirrors gone q := by
  unfold Progress.swallow
  cases hlevels : p.levels with
  | nil => exact ⟨h.block, by rw [h.levels, hlevels]⟩
  | cons l ls => exact ⟨h.block, by rw [h.levels, hlevels]; rfl⟩

/-! ## Tokens -/

/-- Every tag with a body has a style run. -/
def Styled (ts : List Token) : Prop :=
  ∀ k f, Token.tag k f ∈ Token.leavesOf ts → k.opensBody = true → (styleRun? f.inner).isSome = true

namespace Styled

variable {t : Token} {ts : List Token}

theorem head (h : Styled (t :: ts)) : Styled [t] := by
  intro k f hmem
  rw [Token.leavesOf_cons, Token.leavesOf, List.append_nil] at hmem
  exact h k f (List.mem_append_left _ hmem)

theorem tail (h : Styled (t :: ts)) : Styled ts := by
  intro k f hmem
  exact h k f (List.mem_append_right _ hmem)

theorem cell (h : Styled ts) {id : TableId} {rows : List (List (List Token))}
    (htable : Token.table id rows ∈ ts) : ∀ row ∈ rows, ∀ c ∈ row, Styled c := by
  intro row hrow c hc k f hmem
  apply h k f
  rw [Token.leavesOf_eq_flatMap]
  refine List.mem_flatMap.mpr ⟨_, htable, ?_⟩
  rw [Token.leaves, Token.leavesOfRows_eq_flatMap]
  exact List.mem_flatMap.mpr ⟨row, hrow, List.mem_flatMap.mpr ⟨c, hc, hmem⟩⟩

end Styled

/-- Tokens can be deleted from a cell without changing its template but for the traces of stray
tags. -/
def CellRecovers (gone : RunId → Bool) (s : Setting) (c : List Token) : Prop :=
  ∀ depth u, Template.ofTokens s depth c = .ok u →
    Template.ofTokens s depth (Token.prune [] c) = .ok (u.tidy gone)

theorem cellTemplates_prune {gone : RunId → Bool} {s : Setting} {depth : Nat}
    {rows : List (List (List Token))} {ts : List (List Template)}
    (hcells : ∀ row ∈ rows, ∀ c ∈ row, CellRecovers gone s c)
    (h : cellTemplates s depth rows = .ok ts) :
    cellTemplates s depth (Token.pruneRows rows) =
      .ok (ts.map (fun row => row.map (Template.tidy gone))) := by
  have hside := forall₂_cells_imp (cellTemplates_eq_ok_iff.mp h)
    fun row hrow c hc u hu => hcells row hrow c hc depth u hu
  rw [cellTemplates_eq_ok_iff, Token.pruneRows_eq_map]
  simpa [List.forall₂_map_left_iff, List.forall₂_map_right_iff] using hside

section Following

variable {gone : RunId → Bool} {s : Setting} {p p' q : Progress}

/-- **What one token does to both readings**: the one without the strays takes the step too, or
stays where it is if the token is a stray. -/
theorem Reads.follows {t : Token} (h : Reads s t p p') (hfollows : p.Follows gone q)
    (hstrays : ∀ x ∈ Token.straysAt p.frames t, ∀ r ∈ x.2.runs, gone r = true)
    (hkept : ∀ r ∈ Token.runsOf (Token.pruneAt p.frames t), gone r = false)
    (hstyled : Styled [t])
    (hcells : ∀ id rows, t = .table id rows → ∀ row ∈ rows, ∀ c ∈ row, CellRecovers gone s c) :
    ∃ q', Runs s (Token.pruneAt p.frames t) q q' ∧ p'.Follows gone q' := by
  obtain ⟨hgenuine, hmirrors, hended⟩ := hfollows
  cases h with
  | text r p =>
    have hr : gone r = false := hkept r (by simp [Token.pruneAt, Token.runsOf_text])
    refine ⟨_, .single (.text r q), ?_, ?_, by simp⟩
    · exact ⟨List.forall_mem_cons.mpr ⟨hr, hgenuine.stretch⟩, hgenuine.swallowed, hgenuine.levels⟩
    · rw [Progress.settle_text hended]
      exact Progress.Mirrors.settle_text hgenuine.stretch hmirrors hr
  | @tag k f p p' hstep =>
    have hstretch : p'.stretch = [] := hstep.stretch.trans p.stretch_settle
    by_cases hnone : advance (.tag k) p.frames = none
    · -- A stray: the other reading stays where it is and does not end its stretch.
      have hgone : ∀ r ∈ f.runs, gone r = true :=
        hstrays (k, f) (by simp [Token.straysAt, hnone])
      rw [Token.pruneAt, if_pos hnone]
      refine ⟨q, .nil q, ?_, ?_, hended⟩
      · rw [hstep.eq_swallow (by rwa [p.frames_settle])]
        exact hgenuine.settle.swallow hgone
      · rw [Progress.settle_of_nil hstretch, hstep.eq_swallow (by rwa [p.frames_settle])]
        exact hmirrors.swallow k f
    · -- Both readings end their stretches and take the tag.
      rw [Token.pruneAt, if_neg hnone] at hkept ⊢
      have hruns : ∀ r ∈ f.runs, gone r = false := by
        simpa [Token.runsOf_tag, Token.runsOf_nil] using hkept
      have hstyle := hstyled k f (by simp [Token.leavesOf, Token.leaves])
      obtain ⟨q', hstep', hgenuine', hmirrors', hended'⟩ := hstep.mirrors
        (by rwa [p.frames_settle]) hgenuine.settle hmirrors hruns hstyle
      have hstretch' : q'.stretch = [] := hstep'.stretch.trans q.stretch_settle
      refine ⟨q', .single (.tag hstep'), hgenuine', ?_, fun _ => hended'⟩
      rwa [Progress.settle_of_nil hstretch, Progress.settle_of_nil hstretch']
  | @table id rows p ts hread =>
    -- The cells lie at the same depth in both readings, so they recover by assumption.
    have hdepth : q.depth = p.depth := by
      rw [← q.depth_settle, ← p.depth_settle, hmirrors.depth]
    have hread' := cellTemplates_prune (hcells id rows rfl) hread
    have hpush := hmirrors.push (c := .table id ts) rfl
    rw [Construct.tidy, Construct.tidyRows_eq_map] at hpush
    rw [← hdepth] at hread'
    have hsettled : ∀ {p : Progress} {c : Construct} {strays : List Stray},
        { p.settle.push c with strays := strays }.settle =
          { p.settle.push c with strays := strays } :=
      fun {p c strays} => Progress.settle_of_nil ((p.settle.stretch_push c).trans p.stretch_settle)
    refine ⟨_, .single (.table hread'), ?_, ?_, ?_⟩
    · have hgen := hgenuine.settle.push (.table id ts)
      exact ⟨hgen.stretch, hgen.swallowed, hgen.levels⟩
    · rw [hsettled, hsettled]
      exact ⟨hpush.block, hpush.levels⟩
    · intro _ c hc
      have hbody : c ∈ (q.settle.push (.table id _)).body.head? := hc
      rw [Progress.body_push] at hbody
      cases hbody
      rfl

theorem Runs.follows {ts : List Token} (h : Runs s ts p p') (hfollows : p.Follows gone q)
    (hseparates : Separates gone p.frames ts) (hstyled : Styled ts)
    (hcells : ∀ id rows, Token.table id rows ∈ ts → ∀ row ∈ rows, ∀ c ∈ row,
      CellRecovers gone s c) :
    ∃ q', Runs s (Token.prune p.frames ts) q q' ∧ p'.Follows gone q' := by
  induction h generalizing q with
  | nil p => exact ⟨q, .nil q, hfollows⟩
  | @cons t ts p p₁ p' hstep hrest ih =>
    obtain ⟨hstrays, hkept⟩ := hseparates.head
    obtain ⟨q₁, hfirst, hfollows₁⟩ := hstep.follows hfollows hstrays hkept hstyled.head
      fun id rows ht => hcells id rows (ht ▸ List.mem_cons_self)
    have htail := hseparates.tail
    rw [← hstep.frames] at htail
    obtain ⟨q', hlater, hfollows'⟩ := ih hfollows₁ htail hstyled.tail
      fun id rows hmem => hcells id rows (List.mem_cons_of_mem _ hmem)
    refine ⟨q', ?_, hfollows'⟩
    rw [Token.prune, ← hstep.frames]
    exact hfirst.append hlater

/-- Where one reading follows the other to the end, it gives the tidied template. -/
theorem Progress.Follows.finish (h : p.Follows gone q) (hp : p.block.stops = [.endOfBody])
    (hq : q.block.stops = [.endOfBody]) :
    q.finish.block.toSection = Template.tidy gone p.finish.block.toSection := by
  obtain ⟨hgenuine, hmirrors, -⟩ := h
  have hsettle := hgenuine.settle
  have hclose := Progress.closeLevels_tidy p.settle.block none (by simp) hsettle.levels
  have hswallowed : ∀ x ∈ (Progress.closeLevels p.settle.block none p.settle.levels).swallowed,
      ∀ r ∈ x.2.runs, gone r = true := by
    rw [Progress.closeLevels_eq]
    exact hsettle.swallowed
  rw [Progress.block_finish hp, Progress.block_finish hq, hmirrors.block, hmirrors.levels,
    ← Block.toSection_tidy hswallowed, ← hclose]
  rfl

/-- **Deleting the stray tags tidies the template**, and does nothing else to it. -/
theorem Template.ofTokens_prune {depth : Nat} {ts : List Token} {t : Template}
    (hseparates : Separates gone [] ts) (hstyled : Styled ts)
    (h : Template.ofTokens s depth ts = .ok t) :
    Template.ofTokens s depth (Token.prune [] ts) = .ok (t.tidy gone) := by
  induction ts using Token.cellInduction generalizing depth t with
  | h ts cells =>
    obtain ⟨hlimit, p, hruns, rfl⟩ := Template.ofTokens_eq_ok_iff.mp h
    have hfresh : (Progress.fresh depth).Follows gone (Progress.fresh depth) := by
      refine ⟨⟨by simp [Progress.fresh, Progress.start], by simp [Progress.fresh, Progress.start],
        by simp [Progress.fresh, Progress.start]⟩, ⟨rfl, rfl⟩, ?_⟩
      simp [Progress.body, Progress.fresh, Progress.start]
    have hcells : ∀ id rows, Token.table id rows ∈ ts → ∀ row ∈ rows, ∀ c ∈ row,
        CellRecovers gone s c := by
      intro id rows hmem row hrow c hc depth u hu
      exact cells id rows hmem row hrow c hc (hseparates.cell hmem row hrow c hc)
        (hstyled.cell hmem row hrow c hc) hu
    obtain ⟨q, hruns', hfollows⟩ := hruns.follows hfresh hseparates hstyled hcells
    apply Template.ofTokens_eq_ok_iff.mpr
    exact ⟨hlimit, q, hruns', (hfollows.finish hruns.stops hruns'.stops).symm⟩

end Following

end DocTemplate
