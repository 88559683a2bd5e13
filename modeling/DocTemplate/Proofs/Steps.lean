import DocTemplate.Proofs.CellReading
import DocTemplate.Proofs.DocumentOrder

/-!
# What a token does

Reading goes from state to state, one token at a time. This module says once what a token can do to
a state: extend the current stretch, add a construct to the innermost body, open a level, close one,
put the next branch of a conditional in the place of the last, or be swallowed as a stray. Everything
that is proved about whole readings is proved of these steps first.

Which of them a tag takes is decided by what is open alone. `Frame` keeps of a level only which
construct it builds, and `advance` tells what a tag of some kind makes of the open frames.

## Main statements

- `readTag_eq_next_iff`, `readToken_eq_next_iff`: the steps are what reading does
- `readToken_eq_fail`: why a token is refused
- `Template.ofTokens_eq_ok_iff`: a template is what a run of steps over all tokens ends in
- `Template.ofTokens_eq_templateAfter`: the same for readings that fail
- `Template.ofTokens_induction`: induction on templates, through the runs that they come from
-/

namespace DocTemplate

/-! ## Frames -/

/-- What kind of construct is open. -/
inductive Frame where
  | loop
  | branch
  | otherwise
  deriving DecidableEq, Repr

/-- The kind of construct that a level builds. -/
def Level.frame (l : Level) : Frame :=
  match l.purpose with
  | .loop .. => .loop
  | .branch .. => .branch
  | .otherwise .. => .otherwise

/-- The kinds of what is open, innermost first. -/
def Progress.frames (p : Progress) : List Frame := p.levels.map Level.frame

/-- What is open after a token, or nothing when a tag has no place where it stands. -/
def advance : TokenKind → List Frame → Option (List Frame)
  | .text, fs | .table, fs => some fs
  | .tag .query, fs | .tag .image, fs | .tag .diagram, fs => some fs
  | .tag .forEach, fs => some (.loop :: fs)
  | .tag .ifThen, fs => some (.branch :: fs)
  | .tag .endFor, .loop :: fs => some fs
  | .tag .endIf, .branch :: fs | .tag .endIf, .otherwise :: fs => some fs
  | .tag .elseIf, .branch :: fs => some (.branch :: fs)
  | .tag .otherwise, .branch :: fs => some (.otherwise :: fs)
  | _, _ => none

/-! ## Tags -/

/-- The construct of a tag that is understood by itself. -/
def single? (s : Setting) (f : Field) : Keyword → Option Construct
  | .query => some (readQuery s f)
  | .image => some (readImage f)
  | .diagram => some (readDiagram s f)
  | _ => none

/-- The level that a tag opens at a depth. -/
def opened? (s : Setting) (f : Field) (depth : Nat) : Keyword → Option Level
  | .forEach => some (Level.ofLoop s depth f)
  | .ifThen => some (Level.ofCondition s depth [] f)
  | _ => none

/-- The tag ends the level. -/
def Level.endsAt (l : Level) (k : Keyword) : Prop :=
  match l.frame with
  | .loop => k = .endFor
  | .branch | .otherwise => k = .endIf

/-- What a tag can do to a state in which no stretch is pending. -/
inductive TagStep (s : Setting) (p : Progress) : Keyword → Field → Progress → Prop where
  /-- A tag that is understood by itself is a construct of the innermost body. -/
  | single {k : Keyword} {f : Field} {c : Construct} (hc : single? s f k = some c) :
      TagStep s p k f (p.push c)
  /-- An opening tag opens a level, where the limit allows it. -/
  | opens {k : Keyword} {f : Field} {l : Level} (hl : opened? s f (p.depth + 1) k = some l)
      (hlimit : p.depth < s.limit) :
      TagStep s p k f { p with levels := l :: p.levels }
  /-- The end tag of the innermost level closes it. -/
  | closes {k : Keyword} {f : Field} {l : Level} {ls : List Level} (hlevels : p.levels = l :: ls)
      (hends : l.endsAt k) :
      TagStep s p k f (p.closeLevel ls (l.close f))
  /-- A further condition takes the place of the one before, one deeper. -/
  | elseIf {f : Field} {l : Level} {ls : List Level} {earlier : List (Branch Construct)}
      {condition : Option Expression} (hlevels : p.levels = l :: ls)
      (hpurpose : l.purpose = .branch earlier condition) (hlimit : l.depth < s.limit) :
      TagStep s p .elseIf f
        { p with levels :=
            Level.ofCondition s (l.depth + 1) (l.toBranch condition :: earlier) f :: ls }
  /-- What `m:else` opens takes the place of the last condition. -/
  | otherwise {f : Field} {l : Level} {ls : List Level} {earlier : List (Branch Construct)}
      {condition : Option Expression} (hlevels : p.levels = l :: ls)
      (hpurpose : l.purpose = .branch earlier condition) :
      TagStep s p .otherwise f
        { p with levels := Level.ofOtherwise l.depth earlier (l.toBranch condition) f :: ls }
  /-- An end tag that has no place here is swallowed. -/
  | strays {k : Keyword} {f : Field} (hterminator : k.isTerminator = true)
      (hnone : advance (.tag k) p.frames = none) :
      TagStep s p k f (p.swallow k f)

/-- Where the innermost frame has no place for an end tag, the tag is swallowed. -/
theorem readTag_of_advance_eq_none {s : Setting} {p : Progress} {k : Keyword} {f : Field}
    (hterminator : k.isTerminator = true) (hnone : advance (.tag k) p.frames = none) :
    p.readTag s k f = .next (p.swallow k f) := by
  cases hlevels : p.levels with
  | nil => cases k <;> simp_all [Keyword.isTerminator, Progress.readTag]
  | cons l ls =>
    -- The innermost level decides alone.
    simp only [Progress.frames, hlevels, List.map_cons, Level.frame] at hnone
    cases hpurpose : l.purpose <;> rw [hpurpose] at hnone <;> cases k <;>
      simp_all [Keyword.isTerminator, Progress.readTag, advance]

/-- Whatever `TagStep` allows happens. -/
theorem readTag_of_tagStep {s : Setting} {p q : Progress} {k : Keyword} {f : Field}
    (h : TagStep s p k f q) : p.readTag s k f = .next q := by
  cases h with
  | single hc => cases k <;> simp_all [single?, Progress.readTag]
  | opens hl hlimit =>
    have hnot : ¬ s.limit ≤ p.depth := Nat.not_le_of_lt hlimit
    cases k <;> simp_all [opened?, Progress.readTag, Progress.openLevel]
  | @closes _ _ l ls hlevels hends =>
    simp only [Level.endsAt, Level.frame] at hends
    cases hpurpose : l.purpose <;> rw [hpurpose] at hends <;> cases hends <;>
      simp only [Progress.readTag, hlevels, hpurpose]
  | elseIf hlevels hpurpose hlimit =>
    have hnot : ¬ s.limit ≤ _ := Nat.not_le_of_lt hlimit
    simp only [Progress.readTag, hlevels, hpurpose, if_neg hnot]
  | otherwise hlevels hpurpose => simp only [Progress.readTag, hlevels, hpurpose]
  | strays hterminator hnone => exact readTag_of_advance_eq_none hterminator hnone

/-- Where an end tag has a place, it ends the innermost level or stands between two of its
branches. -/
theorem exists_level_of_advance {p : Progress} {k : Keyword} (hterminator : k.isTerminator = true)
    (hplace : advance (.tag k) p.frames ≠ none) :
    ∃ l ls, p.levels = l :: ls ∧
      (l.endsAt k ∨ (k = .elseIf ∨ k = .otherwise) ∧
        ∃ earlier condition, l.purpose = .branch earlier condition) := by
  cases hlevels : p.levels with
  | nil =>
    rw [Progress.frames, hlevels] at hplace
    cases k <;> first | exact absurd rfl hplace | cases hterminator
  | cons l ls =>
    refine ⟨l, ls, rfl, ?_⟩
    simp only [Progress.frames, hlevels, List.map_cons, Level.frame] at hplace
    cases hpurpose : l.purpose <;> rw [hpurpose] at hplace <;> cases k <;>
      simp_all [Keyword.isTerminator, advance, Level.endsAt, Level.frame]

/-- A tag that is read does one of the things that `TagStep` lists. -/
theorem tagStep_of_readTag {s : Setting} {p q : Progress} {k : Keyword} {f : Field}
    (h : p.readTag s k f = .next q) : TagStep s p k f q := by
  -- Reading is a function, so it is enough to find a step that is possible.
  have hsame : ∀ {q'}, TagStep s p k f q' → TagStep s p k f q := by
    intro q' hstep
    rw [readTag_of_tagStep hstep] at h
    cases h
    exact hstep
  by_cases hterminator : k.isTerminator = true
  · by_cases hnone : advance (.tag k) p.frames = none
    · exact hsame (.strays hterminator hnone)
    · obtain ⟨l, ls, hlevels, hends | ⟨hk, earlier, condition, hpurpose⟩⟩ :=
        exists_level_of_advance hterminator hnone
      · exact hsame (.closes hlevels hends)
      · rcases hk with rfl | rfl
        · by_cases hlimit : l.depth < s.limit
          · exact hsame (.elseIf hlevels hpurpose hlimit)
          · simp only [Progress.readTag, hlevels, hpurpose, if_pos (Nat.le_of_not_lt hlimit)] at h
            cases h
        · exact hsame (.otherwise hlevels hpurpose)
  · cases k with
    | query | image | diagram => exact hsame (.single rfl)
    | forEach | ifThen =>
      by_cases hlimit : p.depth < s.limit
      · exact hsame (.opens rfl hlimit)
      · simp only [Progress.readTag, Progress.openLevel, if_pos (Nat.le_of_not_lt hlimit)] at h
        cases h
    | element | binding => cases h
    | endFor | endIf | elseIf | otherwise | endBinding => exact absurd rfl hterminator

/-- **A tag is read exactly by the steps of `TagStep`.** -/
theorem readTag_eq_next_iff {s : Setting} {p q : Progress} {k : Keyword} {f : Field} :
    p.readTag s k f = .next q ↔ TagStep s p k f q :=
  ⟨tagStep_of_readTag, readTag_of_tagStep⟩

/-- A tag is refused where it has a place but the limit leaves no room for what it opens, and when
it is reserved; a reserved tag is not taken. -/
theorem readTag_eq_fail {s : Setting} {p q : Progress} {k : Keyword} {f : Field} {e : ParseError}
    {taken : Bool} (h : p.readTag s k f = .fail e taken q) :
    q = p ∧
      ((k = .forEach ∨ k = .ifThen ∨ k = .elseIf) ∧ advance (.tag k) p.frames ≠ none ∧
          s.limit ≤ p.depth ∧ e = .nestingTooDeep s.limit ∧ taken = true ∨
        (k = .element ∨ k = .binding) ∧ e = .unsupportedTag k f.opening.id ∧ taken = false) := by
  cases k with
  | query | image | diagram | endBinding => simp [Progress.readTag] at h
  | forEach | ifThen =>
    simp only [Progress.readTag, Progress.openLevel] at h
    split at h
    · next hlimit =>
      cases h
      exact ⟨rfl, .inl ⟨by simp, by simp [advance], hlimit, rfl, rfl⟩⟩
    · cases h
  | element | binding =>
    cases h
    exact ⟨rfl, .inr ⟨by simp, rfl, rfl⟩⟩
  | endFor | endIf | otherwise =>
    -- These end a level, go on with it, or are swallowed.
    simp only [Progress.readTag] at h
    split at h
    · split at h <;> cases h
    · cases h
  | elseIf =>
    -- A further condition lies deeper than the one before, so that the limit counts.
    cases hlevels : p.levels with
    | nil => simp [Progress.readTag, hlevels] at h
    | cons l ls =>
      have hdepth : p.depth = l.depth := by rw [Progress.depth, hlevels]
      simp only [Progress.readTag, hlevels] at h
      split at h
      · next hpurpose =>
        have hplace : advance (.tag .elseIf) p.frames ≠ none := by
          simp [Progress.frames, hlevels, Level.frame, hpurpose, advance]
        split at h
        · next hlimit =>
          cases h
          exact ⟨rfl, .inl ⟨by simp, hplace, hdepth ▸ hlimit, rfl, rfl⟩⟩
        · cases h
      · cases h

/-! ## Tokens -/

/-- What a token can do to a state. -/
inductive Reads (s : Setting) : Token → Progress → Progress → Prop where
  /-- Plain text extends the current stretch. -/
  | text (r : RunId) (p : Progress) : Reads s (.text r) p { p with stretch := r :: p.stretch }
  /-- A tag ends the stretch and takes its step. -/
  | tag {k : Keyword} {f : Field} {p q : Progress} (hstep : TagStep s p.settle k f q) :
      Reads s (.tag k f) p q
  /-- A table ends the stretch and is a construct of the innermost body. -/
  | table {id : TableId} {rows : List (List (List Token))} {p : Progress}
      {ts : List (List Template)} (hcells : cellTemplates s p.depth rows = .ok ts) :
      Reads s (.table id rows) p
        { p.settle.push (.table id ts) with
          strays := (cellStrays s p.depth rows).reverse ++ p.strays }

/-- **A token is read exactly by the steps of `Reads`.** -/
theorem readToken_eq_next_iff {s : Setting} {t : Token} {p q : Progress} :
    readToken s t p = .next q ↔ Reads s t p q := by
  constructor
  · intro h
    cases t with
    | text r =>
      rw [readToken] at h
      cases h
      exact .text r p
    | tag k f =>
      rw [readToken] at h
      exact .tag (readTag_eq_next_iff.mp h)
    | table id rows =>
      cases hcells : cellTemplates s p.depth rows with
      | ok ts =>
        rw [readToken_table_ok hcells] at h
        cases h
        exact .table hcells
      | error e =>
        obtain ⟨q', hfail⟩ := readToken_table_error hcells id
        rw [hfail] at h
        cases h
  · intro h
    cases h with
    | text r p => rw [readToken]
    | tag hstep => rw [readToken, readTag_eq_next_iff.mpr hstep]
    | table hcells => rw [readToken_table_ok hcells]

/-- A token is refused as a tag is, or because one of its cells is refused. -/
theorem readToken_eq_fail {s : Setting} {t : Token} {p q : Progress} {e : ParseError} {taken : Bool}
    (h : readToken s t p = .fail e taken q) :
    e = .nestingTooDeep s.limit ∨
      (∃ k f, t = .tag k f ∧ (k = .element ∨ k = .binding) ∧
        e = .unsupportedTag k f.opening.id) ∨
      ∃ id rows, t = .table id rows ∧ cellTemplates s p.depth rows = .error e := by
  cases t with
  | text r => simp [readToken] at h
  | tag k f =>
    rw [readToken] at h
    obtain ⟨-, ⟨-, -, -, hdeep, -⟩ | ⟨hk, he, -⟩⟩ := readTag_eq_fail h
    · exact .inl hdeep
    · exact .inr (.inl ⟨k, f, rfl, hk, he⟩)
  | table id rows =>
    refine .inr (.inr ⟨id, rows, rfl, ?_⟩)
    cases hcells : cellTemplates s p.depth rows with
    | ok ts =>
      rw [readToken_table_ok hcells] at h
      cases h
    | error e' =>
      obtain ⟨q', hfail⟩ := readToken_table_error hcells id
      rw [hfail] at h
      cases h
      rfl

/-! ## Frames along a reading -/

theorem Progress.frames_push (p : Progress) (c : Construct) : (p.push c).frames = p.frames := by
  unfold push
  cases h : p.levels <;> simp [frames, h, Level.frame]

theorem Progress.frames_settle (p : Progress) : p.settle.frames = p.frames := by
  unfold settle
  split
  · rfl
  · exact frames_push p _

theorem Progress.frames_swallow (p : Progress) (k : Keyword) (f : Field) :
    (p.swallow k f).frames = p.frames := by
  unfold swallow
  cases h : p.levels <;> simp [frames, h, Level.frame]

/-- A tag changes what is open as `advance` tells, or it is a stray. -/
theorem TagStep.frames {s : Setting} {p q : Progress} {k : Keyword} {f : Field}
    (h : TagStep s p k f q) :
    advance (.tag k) p.frames = some q.frames ∨
      advance (.tag k) p.frames = none ∧ q = p.swallow k f := by
  cases h with
  | single hc =>
    rw [Progress.frames_push]
    cases k <;> simp_all [single?, advance]
  | opens hl hlimit =>
    unfold opened? at hl
    split at hl <;> cases hl <;> exact .inl rfl
  | @closes _ _ l ls hlevels hends =>
    rw [Progress.closeLevel, Progress.frames_push]
    simp only [Level.endsAt] at hends
    simp only [Progress.frames, hlevels, List.map_cons]
    split at hends <;> next hframe => rw [hframe, hends]; exact .inl rfl
  | elseIf hlevels hpurpose hlimit =>
    simp [Progress.frames, hlevels, Level.frame, hpurpose, Level.ofCondition, advance]
  | otherwise hlevels hpurpose =>
    simp [Progress.frames, hlevels, Level.frame, hpurpose, Level.ofOtherwise, advance]
  | strays hterminator hnone => exact .inr ⟨hnone, rfl⟩

/-- A tag that has no place is swallowed. -/
theorem TagStep.eq_swallow {s : Setting} {p q : Progress} {k : Keyword} {f : Field}
    (h : TagStep s p k f q) (hnone : advance (.tag k) p.frames = none) : q = p.swallow k f := by
  rcases h.frames with hsome | ⟨-, hq⟩
  · rw [hnone] at hsome
    cases hsome
  · exact hq

/-- What is open after a token: what `advance` tells, or what was open before a stray. -/
theorem Reads.frames {s : Setting} {t : Token} {p q : Progress} (h : Reads s t p q) :
    q.frames = (advance t.kind p.frames).getD p.frames := by
  cases h with
  | text r p => rfl
  | @tag k f p q hstep =>
    have hframes := hstep.frames
    rw [p.frames_settle] at hframes
    rcases hframes with hsome | ⟨hnone, rfl⟩
    · rw [Token.kind, hsome, Option.getD_some]
    · rw [Token.kind, hnone, Option.getD_none, Progress.frames_swallow, p.frames_settle]
  | table hcells => exact (p.settle.frames_push _).trans p.frames_settle

/-! ## Stretches -/

namespace Progress

theorem stretch_push (p : Progress) (c : Construct) : (p.push c).stretch = p.stretch := by
  unfold push
  cases p.levels <;> rfl

theorem stretch_settle (p : Progress) : p.settle.stretch = [] := by
  unfold settle
  split
  · next h => exact List.isEmpty_iff.mp h
  · rfl

theorem settle_of_nil {p : Progress} (h : p.stretch = []) : p.settle = p := by
  simp [settle, h]

theorem settle_of_ne_nil {p : Progress} (h : p.stretch ≠ []) :
    p.settle = { p with stretch := [] }.push (.text { runs := p.stretch.reverse }) := by
  have hnot : p.stretch.isEmpty = false := by simpa using h
  rw [settle, hnot, if_neg (by simp)]
  unfold Progress.push
  cases p.levels <;> rfl

end Progress

theorem TagStep.stretch {s : Setting} {p q : Progress} {k : Keyword} {f : Field}
    (h : TagStep s p k f q) : q.stretch = p.stretch := by
  cases h with
  | single hc => exact p.stretch_push _
  | opens hl hlimit => rfl
  | closes hlevels hends => exact Progress.stretch_push _ _
  | elseIf hlevels hpurpose hlimit => rfl
  | otherwise hlevels hpurpose => rfl
  | strays hterminator hnone => unfold Progress.swallow; cases p.levels <;> rfl

/-! ## Runs -/

/-- A state is reached from another by reading tokens one after another. -/
inductive Runs (s : Setting) : List Token → Progress → Progress → Prop where
  | nil (p : Progress) : Runs s [] p p
  | cons {t : Token} {ts : List Token} {p q r : Progress} (hstep : Reads s t p q)
      (hrest : Runs s ts q r) : Runs s (t :: ts) p r

theorem Runs.single {s : Setting} {t : Token} {p q : Progress} (h : Reads s t p q) :
    Runs s [t] p q :=
  .cons h (.nil _)

theorem Runs.append {s : Setting} {ts us : List Token} {p q r : Progress} (h : Runs s ts p q)
    (h' : Runs s us q r) : Runs s (ts ++ us) p r := by
  induction h with
  | nil p => exact h'
  | cons hstep hrest ih => exact .cons hstep (ih h')

theorem Token.kind_ne_endOfBody (t : Token) : t.kind ≠ .endOfBody := by
  cases t <;> simp [kind]

/-- The block as it was when nothing had been read into it. -/
def Block.emptied (b : Block) : Block := { b with swallowed := [], body := [] }

theorem Block.stops_of_emptied {b c : Block} (h : b.emptied = c.emptied) : b.stops = c.stops :=
  show b.emptied.stops = c.emptied.stops by rw [h]

/-- No step changes what a reading is for. -/
theorem Progress.emptied_push (p : Progress) (c : Construct) :
    (p.push c).block.emptied = p.block.emptied := by
  unfold push
  cases p.levels <;> rfl

theorem Progress.emptied_settle (p : Progress) : p.settle.block.emptied = p.block.emptied := by
  unfold settle
  split
  · rfl
  · exact emptied_push p _

theorem Progress.stops_settle (p : Progress) : p.settle.block.stops = p.block.stops :=
  Block.stops_of_emptied p.emptied_settle

theorem TagStep.emptied {s : Setting} {p q : Progress} {k : Keyword} {f : Field}
    (h : TagStep s p k f q) : q.block.emptied = p.block.emptied := by
  cases h with
  | single hc => exact p.emptied_push _
  | opens hl hlimit => rfl
  | closes hlevels hends => exact Progress.emptied_push _ _
  | elseIf hlevels hpurpose hlimit => rfl
  | otherwise hlevels hpurpose => rfl
  | strays hterminator hnone => unfold Progress.swallow; cases p.levels <;> rfl

theorem Reads.emptied {s : Setting} {t : Token} {p q : Progress} (h : Reads s t p q) :
    q.block.emptied = p.block.emptied := by
  cases h with
  | text r p => rfl
  | tag hstep => rw [hstep.emptied, p.emptied_settle]
  | table hcells => exact (p.settle.emptied_push _).trans p.emptied_settle

theorem Runs.emptied {s : Setting} {ts : List Token} {p q : Progress} (h : Runs s ts p q) :
    q.block.emptied = p.block.emptied := by
  induction h with
  | nil p => rfl
  | cons hstep hrest ih => exact ih.trans hstep.emptied

theorem Reads.stops {s : Setting} {t : Token} {p q : Progress} (h : Reads s t p q) :
    q.block.stops = p.block.stops := Block.stops_of_emptied h.emptied

theorem Runs.stops {s : Setting} {ts : List Token} {p q : Progress} (h : Runs s ts p q) :
    q.block.stops = p.block.stops := Block.stops_of_emptied h.emptied

/-- A reading that only the end of the body stops goes over every token. -/
theorem Progress.not_stopsAt {p : Progress} (h : p.block.stops = [.endOfBody]) (t : Token) :
    p.stopsAt t.kind = false := by
  simp [stopsAt, h, t.kind_ne_endOfBody]

theorem readTokens_of_runs {s : Setting} {ts : List Token} {p q : Progress}
    (hstops : p.block.stops = [.endOfBody]) (h : Runs s ts p q) :
    readTokens s ts p = ⟨q.finish, [], .ok .endOfBody⟩ := by
  induction h with
  | nil p => rw [readTokens]
  | cons hstep hrest ih =>
    rw [readTokens, Progress.not_stopsAt hstops, readToken_eq_next_iff.mpr hstep]
    exact ih (hstep.stops.trans hstops)

theorem runs_of_readTokens {s : Setting} {ts : List Token} {p : Progress} {k : TokenKind}
    (hstops : p.block.stops = [.endOfBody]) (h : (readTokens s ts p).result = .ok k) :
    ∃ q, Runs s ts p q := by
  induction ts generalizing p with
  | nil => exact ⟨p, .nil p⟩
  | cons t ts ih =>
    rw [readTokens, Progress.not_stopsAt hstops] at h
    cases hread : readToken s t p with
    | fail e taken q => rw [hread] at h; cases h
    | next q =>
      rw [hread] at h
      have hstep : Reads s t p q := readToken_eq_next_iff.mp hread
      obtain ⟨r, hrest⟩ := ih (hstep.stops.trans hstops) h
      exact ⟨r, .cons hstep hrest⟩

/-- The state in which a template is begun that stands in a body of this depth. -/
def Progress.fresh (depth : Nat) : Progress := Progress.start [.endOfBody] (depth + 1) []

/-- **A template is what a run of steps over all its tokens ends in.** -/
theorem Template.ofTokens_eq_ok_iff {s : Setting} {depth : Nat} {ts : List Token} {t : Template} :
    Template.ofTokens s depth ts = .ok t ↔
      depth < s.limit ∧ ∃ q, Runs s ts (Progress.fresh depth) q ∧ t = q.finish.block.toSection := by
  have hstops : (Progress.fresh depth).block.stops = [.endOfBody] := rfl
  have hstart : Progress.fresh depth = { block := { stops := [.endOfBody], depth := depth + 1 } } :=
    rfl
  simp only [Template.ofTokens, readTemplate, readBlock, ← hstart]
  by_cases hlimit : s.limit ≤ depth
  · -- At the limit nothing is read.
    simp only [if_pos hlimit, Except.map, reduceCtorEq, false_iff, not_and]
    intro hlt
    omega
  · simp only [if_neg hlimit, Nat.lt_of_not_le hlimit, true_and]
    constructor
    · intro h
      cases hresult : (readTokens s ts (Progress.fresh depth)).result with
      | error e => rw [hresult] at h; cases h
      | ok k =>
        -- No token was refused, so the reading is a run over all of them.
        rw [hresult] at h
        obtain ⟨q, hruns⟩ := runs_of_readTokens hstops hresult
        rw [readTokens_of_runs hstops hruns] at h
        cases h
        exact ⟨q, hruns, rfl⟩
    · rintro ⟨q, hruns, rfl⟩
      rw [readTokens_of_runs hstops hruns]
      rfl

/-! ## Reading on -/

/-- The template that a reading ends in if it goes on from a state over these tokens. -/
def Progress.templateAfter (s : Setting) (ts : List Token) (p : Progress) :
    Except ParseError Template :=
  (readTokens s ts p).result.map fun _ => (readTokens s ts p).progress.block.toSection

theorem Progress.templateAfter_nil (s : Setting) (p : Progress) :
    p.templateAfter s [] = .ok p.finish.block.toSection := by
  rw [templateAfter, readTokens]
  rfl

theorem Progress.templateAfter_cons {s : Setting} {t : Token} {ts : List Token} {p : Progress}
    (hstops : p.block.stops = [.endOfBody]) :
    p.templateAfter s (t :: ts) =
      match readToken s t p with
      | .next q => q.templateAfter s ts
      | .fail e _ _ => .error e := by
  rw [templateAfter, readTokens, Progress.not_stopsAt hstops]
  cases readToken s t p <;> rfl

theorem Progress.templateAfter_text {s : Setting} {p : Progress}
    (hstops : p.block.stops = [.endOfBody]) (xs : List RunId) (ts : List Token) :
    p.templateAfter s (xs.map .text ++ ts) =
      { p with stretch := xs.reverse ++ p.stretch }.templateAfter s ts := by
  induction xs generalizing p with
  | nil => rfl
  | cons x xs ih =>
    rw [List.map_cons, List.cons_append, templateAfter_cons hstops, readToken]
    simpa using ih (p := { p with stretch := x :: p.stretch }) hstops

/-- Whatever is not plain ends the stretch first. -/
theorem Progress.templateAfter_settle {s : Setting} {ts : List Token} {p : Progress}
    (hstops : p.block.stops = [.endOfBody]) (h : ts.head?.map Token.kind ≠ some .text) :
    p.settle.templateAfter s ts = p.templateAfter s ts := by
  have hsettled : p.settle.settle = p.settle := Progress.settle_of_nil p.stretch_settle
  cases ts with
  | nil => simp only [Progress.templateAfter_nil, Progress.finish, hsettled]
  | cons t ts =>
    rw [Progress.templateAfter_cons (p.stops_settle.trans hstops),
      Progress.templateAfter_cons hstops]
    cases t with
    | text r => exact absurd rfl h
    | tag k f => simp only [readToken, hsettled]
    | table id rows => simp only [readToken, hsettled]

theorem stops_of_readToken {s : Setting} {t : Token} {p q : Progress}
    (h : readToken s t p = .next q) : q.block.stops = p.block.stops :=
  (readToken_eq_next_iff.mp h).stops

/-- Reading on over more tokens is reading on from where the first ones lead. -/
theorem Runs.templateAfter_append {s : Setting} {ts : List Token} {p q : Progress}
    (h : Runs s ts p q) (hstops : p.block.stops = [.endOfBody]) (us : List Token) :
    p.templateAfter s (ts ++ us) = q.templateAfter s us := by
  induction h with
  | nil p => rfl
  | cons hstep hrest ih =>
    rw [List.cons_append, Progress.templateAfter_cons hstops, readToken_eq_next_iff.mpr hstep]
    exact ih (hstep.stops.trans hstops)

/-- A template is what reading on from a fresh state gives, where the limit allows a state at all. -/
theorem Template.ofTokens_eq_templateAfter (s : Setting) (depth : Nat) (ts : List Token) :
    Template.ofTokens s depth ts =
      if s.limit ≤ depth then .error (.nestingTooDeep s.limit)
      else (Progress.fresh depth).templateAfter s ts := by
  simp only [Template.ofTokens, readTemplate, readBlock]
  split <;> rfl

theorem Template.ofTokens_eq_fresh {s : Setting} {depth : Nat} (hlimit : depth < s.limit)
    (ts : List Token) :
    Template.ofTokens s depth ts = (Progress.fresh depth).templateAfter s ts := by
  rw [ofTokens_eq_templateAfter, if_neg (Nat.not_le_of_lt hlimit)]

/-- What follows for the template that a run ends in, from the templates of the cells on the way,
holds of every template and the tokens that it is read from. -/
@[elab_as_elim]
theorem Template.ofTokens_induction {s : Setting} {P : List Token → Template → Prop} {depth : Nat}
    {ts : List Token} {t : Template} (ht : Template.ofTokens s depth ts = .ok t)
    (h : ∀ depth ts q, Runs s ts (Progress.fresh depth) q →
      (∀ id rows, Token.table id rows ∈ ts → ∀ row ∈ rows, ∀ c ∈ row, ∀ depth u,
        Template.ofTokens s depth c = .ok u → P c u) →
      P ts q.finish.block.toSection) : P ts t := by
  induction ts using Token.cellInduction generalizing depth t with
  | h ts cells =>
    obtain ⟨-, q, hruns, rfl⟩ := Template.ofTokens_eq_ok_iff.mp ht
    apply h depth ts q hruns
    intro id rows hmem row hrow c hc depth u hu
    exact cells id rows hmem row hrow c hc hu

/-- The template of a body is that of its linear tokenization. -/
theorem Body.result_parse (s : Setting) (b : Body) :
    (b.parse s).result = Template.ofTokens s 0 b.linearTokens := by
  rw [← b.tokens_eq_linearTokens]
  rfl

/-- What can be computed from a result shows that there is one. -/
theorem exists_of_toOption_map {α β ε : Type} {x : Except ε α} {g : α → β} {y : β}
    (h : x.toOption.map g = some y) : ∃ a, x = .ok a ∧ g a = y := by
  cases x with
  | error e => cases h
  | ok a => exact ⟨a, rfl, Option.some.inj h⟩

end DocTemplate
