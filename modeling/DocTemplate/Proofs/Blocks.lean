import DocTemplate.Proofs.Concatenation
import DocTemplate.Proofs.FieldReading
import DocTemplate.Proofs.RunConservation
import DocTemplate.Proofs.TableMirroring

/-!
# What a block takes

A block is read up to the first token of some kinds that stands where nothing is open in it. That
token is left where it is. What has been taken by then is read as it would be if the body ended
there: the constructs are those of the template that the taken positions have on their own, and the
tags that end nothing there go to the block's tag, one report each.

## Main statements

- `linear_eq_append`: tokens that were read are the tokens of the positions that they take
- `readTokens_eq_ok`: how a reading ends that does not fail
- `readTokens_within`: a block is read as on its own, above what it holds already
- `Session.readBlock_contract`: what a session that has read a block has taken, and where it stands
-/

namespace DocTemplate

/-! ## Positions that tokens take -/

/-- A field that stands in front of some positions stands also in front of more. -/
theorem Field.StandsAt.append {f : Field} {ps rest : List Position} (h : f.StandsAt ps rest)
    (qs : List Position) : f.StandsAt (ps ++ qs) (rest ++ qs) :=
  ⟨by simp [h.positions], h.opening, h.inner, h.closing⟩

/-- A run that is plain text stays plain when less follows. -/
theorem classify_of_append {r : Run} {ps qs : List Position}
    (h : classify (.run r :: (ps ++ qs)) = .text) : classify (.run r :: ps) = .text := by
  rcases classify_run r ps with htext | ⟨k, htag⟩
  · exact htext
  · obtain ⟨f, rest, hread, hk⟩ := classify_eq_tag_iff.mp htag
    have hlonger := (Field.standsAt_of_readField hread).append qs
    rw [List.cons_append] at hlonger
    rw [hlonger.classify, hk] at h
    cases h

/-- The first token takes some positions in front, whatever is left of those behind them. -/
theorem linear_eq_cons {ps : List Position} {u : Token} {ts : List Token}
    (h : linear ps = u :: ts) :
    ∃ front rest, ps = front ++ rest ∧ linear rest = ts ∧
      ∀ qs, qs <+: rest → linear (front ++ qs) = u :: linear qs := by
  induction ps using linear_induction with
  | nil =>
    rw [linear_nil] at h
    cases h
  | table id rows ps ih =>
    rw [linear_table] at h
    cases h
    exact ⟨[.table id rows], ps, rfl, rfl, fun qs _ => linear_table id rows qs⟩
  | tag ps f rest k hf hk ih =>
    rw [linear_tag hf hk] at h
    cases h
    obtain ⟨hps, hopening, hinner, hclosing⟩ := readField_eq_ok hf
    refine ⟨.run f.opening :: (f.inner.map .run ++ [.run f.closing]), rest, by simp [hps], rfl, ?_⟩
    intro qs _
    simpa using linear_tag (readField_field hopening hinner hclosing qs) hk
  | text r ps htext ih =>
    rw [linear_text htext] at h
    cases h
    refine ⟨[.run r], ps, rfl, rfl, ?_⟩
    -- What stands behind the cut cannot have made the run plain.
    rintro qs ⟨more, rfl⟩
    exact linear_text (classify_of_append htext)

/-- **Tokens in front are the tokens of the positions in front.** -/
theorem linear_eq_append {ps : List Position} {us vs : List Token} (h : linear ps = us ++ vs) :
    ∃ qs rs, ps = qs ++ rs ∧ linear qs = us ∧ linear rs = vs := by
  induction us generalizing ps with
  | nil => exact ⟨[], ps, rfl, linear_nil, h⟩
  | cons u us ih =>
    obtain ⟨front, rest, rfl, hrest, hfront⟩ := linear_eq_cons h
    obtain ⟨qs, rs, rfl, hqs, hrs⟩ := ih hrest
    refine ⟨front ++ qs, rs, (List.append_assoc ..).symm, ?_, hrs⟩
    rw [hfront qs (List.prefix_append qs rs), hqs]

/-- The tokens of some positions take just these positions. -/
theorem width_linear (ps : List Position) :
    ((linear ps).map Token.width).foldr (· + ·) 0 = ps.length := by
  induction ps using linear_induction with
  | nil => rw [linear_nil]; rfl
  | table id rows ps ih => simp [linear_table, ih, Token.width, Nat.add_comm]
  | tag ps f rest k hf hk ih =>
    obtain ⟨hps, -⟩ := readField_eq_ok hf
    rw [linear_tag hf hk, hps]
    simp only [List.map_cons, List.foldr_cons, ih, Token.width, Field.width, List.length_cons,
      List.length_append, List.length_map]
    omega
  | text r ps htext ih => simp [linear_text htext, ih, Token.width, Nat.add_comm]

/-- The kind of some positions is that of their first token. -/
theorem classify_eq_head (ps : List Position) :
    classify ps = ((linear ps).head?.map Token.kind).getD .endOfBody := by
  induction ps using linear_induction with
  | nil => rw [linear_nil]; rfl
  | table id rows ps ih => rw [linear_table]; rfl
  | tag ps f rest k hf hk ih =>
    rw [linear_tag hf hk]
    exact classify_eq_tag_iff.mpr ⟨f, rest, hf, hk⟩
  | text r ps htext ih => rw [linear_text htext, htext]; rfl

/-! ## Tokens where nothing is open -/

namespace Token

/-- The tokens before which nothing is open, where the frames `fs` are open at first. -/
def outermost : List Frame → List Token → List Token
  | _, [] => []
  | fs, t :: ts =>
    (if fs = [] then [t] else []) ++ outermost ((advance t.kind fs).getD fs) ts

/-- The tag that a token is, if it is one that could only end or continue something. -/
def terminator? : Token → Option (Keyword × Field)
  | .tag k f => if k.isTerminator then some (k, f) else none
  | .text _ | .table .. => none

end Token

section Readings

variable {s : Setting} {p q : Progress}

theorem Progress.frames_eq_nil_iff : p.frames = [] ↔ p.levels = [] := List.map_eq_nil_iff

theorem Progress.swallowed_push (p : Progress) (c : Construct) :
    (p.push c).block.swallowed = p.block.swallowed := by
  unfold push
  cases p.levels <;> rfl

theorem Progress.swallowed_settle (p : Progress) :
    p.settle.block.swallowed = p.block.swallowed := by
  unfold settle
  split
  · rfl
  · exact p.swallowed_push _

/-- A tag that could end something goes to the block exactly if nothing is open. -/
theorem TagStep.swallowed {k : Keyword} {f : Field} (h : TagStep s p k f q) :
    q.block.swallowed =
      (if p.frames = [] then (Token.tag k f).terminator?.toList else []) ++ p.block.swallowed := by
  cases h with
  | single hc =>
    have hk : k.isTerminator = false := by cases k <;> simp_all [single?, Keyword.isTerminator]
    simp [p.swallowed_push, Token.terminator?, hk]
  | opens hl hlimit =>
    have hk : k.isTerminator = false := by cases k <;> simp_all [opened?, Keyword.isTerminator]
    simp [Token.terminator?, hk]
  | closes hlevels hends =>
    rw [Progress.closeLevel, Progress.swallowed_push]
    simp [Progress.frames, hlevels]
  | elseIf hlevels hpurpose hlimit => simp [Progress.frames, hlevels]
  | otherwise hlevels hpurpose => simp [Progress.frames, hlevels]
  | strays hterminator hnone =>
    unfold Progress.swallow
    cases hlevels : p.levels with
    | nil => simp [Progress.frames, hlevels, Token.terminator?, hterminator]
    | cons l ls => simp [Progress.frames, hlevels]

theorem Reads.swallowed {t : Token} (h : Reads s t p q) :
    q.block.swallowed =
      (if p.frames = [] then t.terminator?.toList else []) ++ p.block.swallowed := by
  cases h with
  | text r p => simp [Token.terminator?]
  | @tag k f p q hstep => rw [hstep.swallowed, p.frames_settle, p.swallowed_settle]
  | table hcells => simp [p.settle.swallowed_push, p.swallowed_settle, Token.terminator?]

/-- The strays of a block are the end tags that were met where nothing was open. -/
theorem Runs.swallowed {ts : List Token} (h : Runs s ts p q) :
    q.block.swallowed =
      ((Token.outermost p.frames ts).filterMap Token.terminator?).reverse ++ p.block.swallowed := by
  induction h with
  | nil p => rfl
  | @cons t ts p q r hstep hrest ih =>
    rw [ih, hstep.swallowed, Token.outermost, ← hstep.frames]
    split
    · cases ht : t.terminator? <;> simp [ht]
    · simp

/-! ## How a reading ends -/

/-- A reading with these kinds to stop before and these open levels ends before the tokens, and
reports the kind of the first one. -/
inductive EndsBefore (stops : List TokenKind) (levels : List Level) :
    List Token → TokenKind → Prop where
  | token {t : Token} (hlevels : levels = []) (hstop : t.kind ∈ stops) (rest : List Token) :
      EndsBefore stops levels (t :: rest) t.kind
  | endOfBody : EndsBefore stops levels [] .endOfBody

/-- None of the tokens is one that the reading has to stop before. -/
def Progress.Passes (p : Progress) (ts : List Token) : Prop :=
  ∀ t ∈ Token.outermost p.frames ts, t.kind ∉ p.block.stops

theorem Progress.passes_nil (p : Progress) : p.Passes [] := by
  intro t ht
  cases ht

theorem Progress.stopsAt_eq_true_iff {k : TokenKind} :
    p.stopsAt k = true ↔ p.levels = [] ∧ k ∈ p.block.stops := by
  simp [stopsAt]

theorem Reads.passes_cons_iff {t : Token} (h : Reads s t p q) (ts : List Token) :
    p.Passes (t :: ts) ↔ ¬ p.stopsAt t.kind = true ∧ q.Passes ts := by
  rw [Progress.Passes, Token.outermost, ← h.frames, List.forall_mem_append, Progress.Passes,
    h.stops, Progress.stopsAt_eq_true_iff, ← Progress.frames_eq_nil_iff]
  apply and_congr_left
  intro _
  by_cases hnil : p.frames = [] <;> simp [hnil]

/-- **A reading that does not fail** goes step by step over tokens none of which it has to stop
before, up to one that it has to stop before or up to the end. -/
theorem readTokens_eq_ok {ts : List Token} {k : TokenKind}
    (h : (readTokens s ts p).result = .ok k) :
    ∃ us vs q, ts = us ++ vs ∧ Runs s us p q ∧ p.Passes us ∧
      EndsBefore p.block.stops q.levels vs k := by
  induction ts generalizing p with
  | nil =>
    rw [readTokens] at h
    cases h
    exact ⟨[], [], p, rfl, .nil p, p.passes_nil, .endOfBody⟩
  | cons t ts ih =>
    rw [readTokens] at h
    split at h
    next hstop =>
      cases h
      obtain ⟨hlevels, hmem⟩ := Progress.stopsAt_eq_true_iff.mp hstop
      exact ⟨[], t :: ts, p, rfl, .nil p, p.passes_nil, .token hlevels hmem ts⟩
    next hgo =>
      cases hread : readToken s t p with
      | fail e taken q => rw [hread] at h; cases h
      | next q =>
        rw [hread] at h
        have hstep : Reads s t p q := readToken_eq_next_iff.mp hread
        obtain ⟨us, vs, r, rfl, hruns, hpassed, hend⟩ := ih h
        rw [hstep.stops] at hend
        exact ⟨t :: us, vs, r, rfl, .cons hstep hruns,
          (hstep.passes_cons_iff us).mpr ⟨hgo, hpassed⟩, hend⟩

/-- Tokens none of which the reading has to stop before are read one after the other. -/
theorem Runs.readTokens_append {us : List Token} (h : Runs s us p q) (hpassed : p.Passes us)
    (vs : List Token) : readTokens s (us ++ vs) p = readTokens s vs q := by
  induction h with
  | nil p => rfl
  | @cons t us p q r hstep hrest ih =>
    obtain ⟨hgo, hpassed⟩ := (hstep.passes_cons_iff us).mp hpassed
    rw [List.cons_append, readTokens, if_neg hgo, readToken_eq_next_iff.mpr hstep]
    exact ih hpassed

end Readings

/-! ## The kinds that a block stops before -/

/-- The block with other kinds to stop before. -/
def Block.withStops (b : Block) (stops : List TokenKind) : Block := { b with stops := stops }

/-- The state with other kinds to stop before. -/
def Progress.withStops (p : Progress) (stops : List TokenKind) : Progress :=
  { p with block := p.block.withStops stops }

section Stops

variable {s : Setting} {p q : Progress} (stops : List TokenKind)

theorem Progress.push_withStops (c : Construct) :
    (p.withStops stops).push c = (p.push c).withStops stops := by
  unfold push withStops
  cases p.levels <;> rfl

theorem Progress.settle_withStops : (p.withStops stops).settle = p.settle.withStops stops := by
  unfold settle
  rw [push_withStops]
  show (if p.stretch.isEmpty then _ else _) = _
  split <;> rfl

theorem Progress.swallow_withStops (k : Keyword) (f : Field) :
    (p.withStops stops).swallow k f = (p.swallow k f).withStops stops := by
  have hdepth : (p.withStops stops).depth = p.depth := rfl
  simp only [swallow, hdepth]
  cases hlevels : p.levels <;> simp [withStops, Block.withStops, hlevels]

theorem TagStep.withStops {k : Keyword} {f : Field} (h : TagStep s p k f q) :
    TagStep s (p.withStops stops) k f (q.withStops stops) := by
  cases h with
  | single hc =>
    rw [← Progress.push_withStops]
    exact .single hc
  | opens hl hlimit => exact .opens hl hlimit
  | @closes _ _ l ls hlevels hends =>
    rw [Progress.closeLevel, ← Progress.push_withStops]
    exact .closes hlevels hends
  | elseIf hlevels hpurpose hlimit => exact .elseIf hlevels hpurpose hlimit
  | otherwise hlevels hpurpose => exact .otherwise hlevels hpurpose
  | strays hterminator hnone =>
    rw [← Progress.swallow_withStops]
    exact .strays hterminator hnone

/-- No step looks at the kinds to stop before. -/
theorem Reads.withStops {t : Token} (h : Reads s t p q) :
    Reads s t (p.withStops stops) (q.withStops stops) := by
  cases h with
  | text r p => exact .text r _
  | tag hstep =>
    refine .tag ?_
    rw [Progress.settle_withStops]
    exact hstep.withStops stops
  | @table id rows p ts hcells =>
    have htable : Reads s (.table id rows) (p.withStops stops) _ := .table hcells
    rw [Progress.settle_withStops, Progress.push_withStops] at htable
    exact htable

theorem Runs.withStops {ts : List Token} (h : Runs s ts p q) :
    Runs s ts (p.withStops stops) (q.withStops stops) := by
  induction h with
  | nil p => exact .nil _
  | cons hstep hrest ih => exact .cons (hstep.withStops stops) ih

end Stops

/-! ## Reading into a block that holds something -/

/-- The state of a reading into a block, from that of a reading for its own sake. -/
def Progress.within (p : Progress) (b : Block) : Progress :=
  (p.above { block := b }).withStops b.stops

section Within

variable {s : Setting} {p q : Progress} {b : Block} {ts us vs : List Token} {depth : Nat}

theorem Runs.above (h : Runs s ts p q) (ground : Progress) :
    Runs s ts (p.above ground) (q.above ground) := by
  induction h with
  | nil p => exact .nil _
  | cons hstep hrest ih =>
    refine .cons (readToken_eq_next_iff.mp ?_) ih
    exact Progress.readToken_above ground (readToken_eq_next_iff.mpr hstep)

/-- What is read above something could be read without it. -/
theorem Runs.of_above {ground : Progress} (h : Runs s ts (p.above ground) q) :
    ∃ r, Runs s ts p r ∧ q = r.above ground := by
  induction ts generalizing p with
  | nil =>
    cases h
    exact ⟨p, .nil p, rfl⟩
  | cons t ts ih =>
    cases h with
    | cons hstep hrest =>
      have hnext := readToken_eq_next_iff.mpr hstep
      cases hread : readToken s t p with
      | next q' =>
        rw [Progress.readToken_above ground hread] at hnext
        cases hnext
        obtain ⟨r, hruns, rfl⟩ := ih hrest
        exact ⟨r, .cons (readToken_eq_next_iff.mp hread) hruns, rfl⟩
      | fail e taken q' =>
        obtain ⟨taken', q'', hfail⟩ := Progress.readToken_above_fail ground hread
        rw [hfail] at hnext
        cases hnext

theorem Runs.within (h : Runs s ts p q) (b : Block) : Runs s ts (p.within b) (q.within b) :=
  (h.above _).withStops _

theorem Runs.of_within (h : Runs s ts (p.within b) q) : ∃ r, Runs s ts p r ∧ q = r.within b := by
  -- Changing the kinds to stop before back and forth changes nothing.
  have hback : Runs s ts (p.above { block := b }) (q.withStops p.block.stops) :=
    h.withStops p.block.stops
  obtain ⟨r, hruns, hq⟩ := hback.of_above
  refine ⟨r, hruns, ?_⟩
  rw [Progress.within, ← hq]
  have hstops : b.stops = q.block.stops := h.stops.symm
  show q = { q with block := { q.block with stops := b.stops } }
  rw [hstops]

/-- The block as a reading leaves it that ends before a token of this kind: at the end of the body
it notes that it was not asked to go this far. -/
def Block.endedAt (b : Block) (k : TokenKind) : Block :=
  if k = .endOfBody ∧ .endOfBody ∉ b.stops then b.report (.unexpected .endOfBody) none else b

theorem Block.body_endedAt (b : Block) (k : TokenKind) : (b.endedAt k).body = b.body := by
  unfold endedAt
  split <;> rfl

theorem Progress.closeLevels_withStops (b : Block) (inner : Option Construct) (ls : List Level)
    (stops : List TokenKind) :
    closeLevels (b.withStops stops) inner ls = (closeLevels b inner ls).withStops stops := by
  induction ls generalizing inner with
  | nil => rfl
  | cons l ls ih => exact ih _

theorem Progress.block_finish_eq_endedAt (p : Progress) :
    p.finish.block = (closeLevels p.settle.block none p.settle.levels).endedAt .endOfBody := by
  simp only [finish, Block.endedAt, true_and, List.contains_iff_mem]
  exact (ite_not ..).symm

theorem Progress.block_finish_within (hstops : p.block.stops = [.endOfBody]) (b : Block) :
    (p.within b).finish.block =
      ((p.finish.block.above b).withStops b.stops).endedAt .endOfBody := by
  have habove : (p.above { block := b }).block.stops = [.endOfBody] := hstops
  rw [block_finish_eq_endedAt, within, settle_withStops, ← finish_above { block := b } hstops,
    block_finish habove]
  exact congrArg (Block.endedAt · .endOfBody) (closeLevels_withStops ..)

/-- Where nothing is open, a reading can end as well as go on. -/
theorem Progress.block_settle_within (hstops : p.block.stops = [.endOfBody])
    (hlevels : p.levels = []) (b : Block) :
    (p.within b).settle.block = (p.finish.block.above b).withStops b.stops := by
  have hfinish : p.finish.block = p.settle.block := by
    rw [block_finish hstops, levels_settle.mpr hlevels]
    rfl
  rw [within, settle_withStops, settle_above, hfinish]
  rfl

/-- **A block is read as on its own.** What stands in it already stays in front, and only the end of
the body is seen differently by blocks that stop before different kinds. -/
theorem readTokens_within {k : TokenKind} (hruns : Runs s us (Progress.fresh depth) q)
    (hpassed : ((Progress.fresh depth).within b).Passes us)
    (hend : EndsBefore b.stops q.levels vs k) :
    ∃ progress, readTokens s (us ++ vs) ((Progress.fresh depth).within b) =
        ⟨progress, vs, .ok k⟩ ∧
      progress.block = ((q.finish.block.above b).withStops b.stops).endedAt k := by
  rw [(hruns.within b).readTokens_append hpassed vs]
  cases hend with
  | @token t hlevels hmem rest =>
    have hstop : (q.within b).stopsAt t.kind = true := by
      rw [Progress.stopsAt_eq_true_iff]
      exact ⟨hlevels, (hruns.within b).stops ▸ hmem⟩
    refine ⟨(q.within b).settle, by rw [readTokens, if_pos hstop], ?_⟩
    rw [Progress.block_settle_within hruns.stops hlevels, Block.endedAt,
      if_neg (fun h => t.kind_ne_endOfBody h.1)]
  | endOfBody =>
    exact ⟨(q.within b).finish, by rw [readTokens], Progress.block_finish_within hruns.stops b⟩

end Within

/-! ## Blocks -/

/-- The tags that end nothing where they stand, outside everything that is opened among the tokens
and outside of cells. -/
def Token.outerStrays (ts : List Token) : List (Keyword × Field) :=
  (outermost [] ts).filterMap terminator?

theorem Runs.swallowed_finish {s : Setting} {depth : Nat} {ts : List Token} {q : Progress}
    (h : Runs s ts (Progress.fresh depth) q) :
    q.finish.block.swallowed = (Token.outerStrays ts).reverse := by
  rw [Progress.block_finish h.stops, Progress.closeLevels_eq]
  show q.settle.block.swallowed = _
  rw [q.swallowed_settle, h.swallowed]
  exact List.append_nil _

/-- The tag of a template holds its outer strays and nothing else. -/
theorem Runs.tag_finish {s : Setting} {depth : Nat} {ts : List Token} {q : Progress}
    (h : Runs s ts (Progress.fresh depth) q) :
    q.finish.block.tag = Tag.swallowAll {} (Token.outerStrays ts) := by
  have hheader : q.finish.block.header = {} := by
    show q.finish.block.emptied.header = {}
    rw [Progress.emptied_finish h.stops, h.emptied]
    rfl
  rw [Block.tag, hheader, h.swallowed_finish, List.reverse_reverse]

/-- A block before a reading: its tag, and what its body holds already. -/
def Block.begun (stops : List TokenKind) (depth : Nat) (tag : Tag) (body : List Construct) : Block :=
  { stops := stops, depth := depth, header := tag, body := body.reverse }

/-- The tag of a block that has met some strays and ends before a token of this kind. -/
def Tag.afterBlock (tag : Tag) (stops : List TokenKind) (k : TokenKind)
    (strays : List (Keyword × Field)) : Tag :=
  if k = .endOfBody ∧ .endOfBody ∉ stops then
    (tag.swallowAll strays).report (.unexpected .endOfBody) none
  else tag.swallowAll strays

section AfterBlock

variable (tag : Tag) (stops : List TokenKind) (k : TokenKind) (strays : List (Keyword × Field))

theorem Tag.runs_afterBlock :
    (tag.afterBlock stops k strays).runs = tag.runs ++ strays.flatMap (·.2.runs) := by
  unfold afterBlock
  split <;> rfl

theorem Tag.closingRuns_afterBlock :
    (tag.afterBlock stops k strays).closingRuns = tag.closingRuns := by
  unfold afterBlock
  split <;> rfl

/-- Each stray is reported, and last the end of the body where nobody asked for it. -/
theorem Tag.problems_afterBlock :
    (tag.afterBlock stops k strays).problems =
      tag.problems ++
        strays.map (fun stray => ⟨.unexpected (.tag stray.1), some stray.2.opening.id⟩) ++
        if k = .endOfBody ∧ .endOfBody ∉ stops then [⟨.unexpected .endOfBody, none⟩] else [] := by
  unfold afterBlock
  split
  · rfl
  · exact (List.append_nil _).symm

end AfterBlock

section Begun

variable {s : Setting} {depth : Nat} {stops : List TokenKind} {tag : Tag} {k : TokenKind}
  {ts us : List Token}

theorem Runs.tag_begun {q : Progress} (h : Runs s us (Progress.fresh depth) q)
    (body : List Construct) :
    (((q.finish.block.above (.begun stops (depth + 1) tag body)).withStops stops).endedAt k).tag =
      tag.afterBlock stops k (Token.outerStrays us) := by
  have htag : ((q.finish.block.above (.begun stops (depth + 1) tag body)).withStops stops).tag =
      tag.swallowAll (Token.outerStrays us) := by
    simp [Block.tag, Block.withStops, Block.above, Block.begun, h.swallowed_finish]
  unfold Block.endedAt Tag.afterBlock
  rw [← htag]
  -- Both ask whether the block was to stop at the end of the body.
  show (if k = .endOfBody ∧ .endOfBody ∉ stops then _ else _ : Block).tag = _
  split
  · exact Tag.swallowAll_nil _
  · rfl

/-- **What a block takes.** The tokens that are read have a template of their own, whose constructs
are added to the body; the tags that end nothing there are added to the tag. -/
theorem readTokens_begun (hlimit : depth < s.limit)
    (h : (readTokens s ts { block := .begun stops (depth + 1) tag [] }).result = .ok k) :
    ∃ us rest t, ts = us ++ rest ∧ k = (rest.head?.map Token.kind).getD .endOfBody ∧
      (k ∈ stops ∨ k = .endOfBody) ∧
      (∀ u ∈ Token.outermost [] us, u.kind ∉ stops) ∧
      Template.ofTokens s depth us = .ok t ∧ t.tag = Tag.swallowAll {} (Token.outerStrays us) ∧
      ∀ body, ∃ progress,
        readTokens s ts { block := .begun stops (depth + 1) tag body } = ⟨progress, rest, .ok k⟩ ∧
        progress.block.body.reverse = body ++ t.body ∧
        progress.block.tag = tag.afterBlock stops k (Token.outerStrays us) := by
  have hresult : (readTokens s ts
      ((Progress.fresh depth).within (.begun stops (depth + 1) tag []))).result = .ok k := h
  obtain ⟨us, rest, q', rfl, hruns', hpassed, hend⟩ := readTokens_eq_ok hresult
  -- The same reading for its own sake.
  obtain ⟨q, hruns, rfl⟩ := hruns'.of_within
  refine ⟨us, rest, q.finish.block.toSection, rfl, ?_, ?_, hpassed,
    Template.ofTokens_eq_ok_iff.mpr ⟨hlimit, q, hruns, rfl⟩, hruns.tag_finish, ?_⟩
  · cases hend <;> rfl
  · cases hend with
    | token hlevels hmem rest => exact .inl hmem
    | endOfBody => exact .inr rfl
  · intro body
    obtain ⟨progress, hread, hblock⟩ :=
      readTokens_within (b := .begun stops (depth + 1) tag body) hruns hpassed hend
    refine ⟨progress, ?_, ?_, ?_⟩
    · rw [← hread]
      simp [Progress.within, Progress.above, Progress.withStops, Progress.fresh, Progress.start,
        Block.above, Block.withStops, Block.begun]
    · rw [hblock, Block.body_endedAt]
      simp [Block.withStops, Block.above, Block.begun, Block.toSection]
    · rw [hblock]
      exact hruns.tag_begun body

end Begun

/-! ## Blocks of a session -/

/-- What a session has done that has read a block up to a token of kind `k`, with the positions that
it has taken and the constructs that they gave. -/
structure Session.TakesBlock (s : Session) (stops : List TokenKind) (k : TokenKind)
    (read : List Position) (added : List Construct) (s' : Session) : Prop where
  stop : k ∈ stops ∨ k = .endOfBody
  /-- The token that ends the block is still there. -/
  kind : s'.kind = k
  positions : s.cursor.rest = read ++ s'.cursor.rest
  cursor : s'.cursor = s.cursor.forward read.length
  /-- No token to stop before was passed where nothing is open. -/
  passed : ∀ t ∈ Token.outermost [] (linear read), t.kind ∉ stops
  /-- The constructs are those that the positions have on their own. -/
  constructs : ∃ tag, Template.ofTokens s.setting s.depth (linear read) = .ok ⟨tag, added⟩
  /-- Every run is recorded once, in a construct or as one of a stray tag. -/
  recorded : ((Token.outerStrays (linear read)).flatMap (·.2.runs) ++
    Construct.gatherBody .runs added).Perm (read.flatMap Position.runs)
  /-- Every table is one of the constructs, with the templates of its cells. -/
  tables : (Construct.tablesOfBody added).map (Grid.map .ok) =
    (read.filterMap Position.table?).map (Grid.map (Template.ofTokens s.setting 0))
  runs : s'.tag.runs =
    s.tag.runs ++ (Token.outerStrays (linear read)).flatMap (·.2.runs)
  closingRuns : s'.tag.closingRuns = s.tag.closingRuns
  problems : s'.tag.problems =
    s.tag.problems ++
      (Token.outerStrays (linear read)).map
        (fun stray => ⟨.unexpected (.tag stray.1), some stray.2.opening.id⟩) ++
      if k = .endOfBody ∧ .endOfBody ∉ stops then [⟨.unexpected .endOfBody, none⟩] else []
  /-- A body that holds something keeps it in front, and nothing else changes. -/
  anyBody : ∀ body : List Construct, ∃ progress,
    readTokens s.setting s.tokens { block := .begun stops (s.depth + 1) s.tag body } =
      ⟨progress, s'.tokens, .ok k⟩ ∧
      progress.block.body.reverse = body ++ added ∧ progress.block.tag = s'.tag

/-- A template with nothing but strays at its tag records their runs first. -/
theorem Template.runs_of_tag {t : Template} {strays : List (Keyword × Field)}
    (htag : t.tag = Tag.swallowAll {} strays) :
    t.runs = strays.flatMap (·.2.runs) ++ Construct.gatherBody .runs t.body := by
  obtain ⟨tag, body⟩ := t
  obtain rfl : tag = _ := htag
  simp [Template.runs, Template.gather, Construct.gatherSection, TagView.runs, Tag.swallowAll]

namespace Session

theorem cursor_after {s : Session} (hplace : s.cursor.InBody) {read rest : List Position}
    (hrest : s.cursor.rest = read ++ rest) (progress : Progress)
    (result : Except ParseError TokenKind) :
    (s.after ⟨progress, linear rest, result⟩).cursor = s.cursor.forward read.length := by
  show s.cursor.leaving (((linear rest).map Token.width).foldr (· + ·) 0) = _
  rw [width_linear, Cursor.leaving_length hplace hrest]

/-- A block is read only below the limit. -/
theorem readBlock_eq_readTokens {s : Session} {stops : List TokenKind} {k : TokenKind}
    (h : (s.readBlock stops).1 = .ok k) :
    s.depth < s.setting.limit ∧
      DocTemplate.readBlock s.setting s.depth stops s.tag s.tokens =
        readTokens s.setting s.tokens { block := .begun stops (s.depth + 1) s.tag [] } := by
  simp only [readBlock, DocTemplate.readBlock] at h ⊢
  split at h
  next => cases h
  next hlimit => exact ⟨Nat.lt_of_not_le hlimit, if_neg hlimit⟩

/-- **A block stops exactly at the token that it reports**, and everything in front of the token has
gone into the constructs or, as a stray tag, into the session's tag. -/
theorem readBlock_contract (s : Session) (stops : List TokenKind) (hplace : s.cursor.InBody)
    {k : TokenKind} (h : (s.readBlock stops).1 = .ok k) :
    ∃ read, s.TakesBlock stops k read (s.readBlock stops).2.1 (s.readBlock stops).2.2 := by
  obtain ⟨hlimit, hblock⟩ := readBlock_eq_readTokens h
  have hresult := h
  rw [readBlock, hblock] at hresult
  obtain ⟨us, vs, t, htokens, hk, hstop, hpassed, htemplate, htag, hany⟩ :=
    readTokens_begun hlimit hresult
  -- The tokens that were read are those of the positions that were taken.
  have hlinear : linear s.cursor.rest = us ++ vs := by
    rw [← scan_eq_linear]
    exact htokens
  obtain ⟨read, rest, hrest, rfl, rfl⟩ := linear_eq_append hlinear
  obtain ⟨progress, hread, hbody, hprogress⟩ := hany []
  have hdone : s.readBlock stops =
      (.ok k, t.body,
        { s.after ⟨progress, linear rest, .ok k⟩ with tag := progress.block.tag }) := by
    rw [readBlock, hblock, hread, hbody]
    rfl
  have hcursor := cursor_after hplace hrest progress (.ok k)
  have hahead : (s.after ⟨progress, linear rest, .ok k⟩).cursor.rest = rest := by
    rw [hcursor, Cursor.rest_forward hrest]
  rw [hdone, hprogress]
  exact ⟨read,
    { stop := hstop
      kind := by show classify _ = k; rw [hahead, classify_eq_head, hk]
      positions := by rw [hahead]; exact hrest
      cursor := hcursor
      passed := hpassed
      constructs := ⟨t.tag, htemplate⟩
      recorded := by
        rw [← Template.runs_of_tag htag, ← runsOf_linear]
        exact (Template.records htemplate).1
      tables := by
        rw [← tablesOf_linear]
        exact Template.tables_ofTokens htemplate
      runs := Tag.runs_afterBlock ..
      closingRuns := Tag.closingRuns_afterBlock ..
      problems := Tag.problems_afterBlock ..
      anyBody := by
        intro body
        obtain ⟨progress', hread', hbody', hprogress'⟩ := hany body
        refine ⟨progress', ?_, hbody', hprogress'⟩
        rw [hread', Session.tokens, hahead, scan_eq_linear] }⟩

/-- A session inside a repetition whose body holds a stray tag, another repetition with a stray tag
of its own, and a table. -/
def insideLoop : Session :=
  start { compile := .fixed [] }
    (Draft.build
      [.paragraph [.text "a", .field ["m:endif"], .field ["m:for x ", "| xs"], .field ["m:endif"],
          .field ["m:endfor"]],
        .table [[[.paragraph [.text "b"]]]],
        .paragraph [.field ["m:endfor"], .text "c"]])

theorem readBlock_contract_insideLoop :
    ∃ read, read.length = 15 ∧
      insideLoop.TakesBlock [.tag .endFor] (.tag .endFor) read
        (insideLoop.readBlock [.tag .endFor]).2.1 (insideLoop.readBlock [.tag .endFor]).2.2 := by
  have hok : (insideLoop.readBlock [.tag .endFor]).1.toOption.map id = some (.tag .endFor) := by
    decide +kernel
  have hindex : (insideLoop.readBlock [.tag .endFor]).2.2.cursor.index = 15 := by decide +kernel
  obtain ⟨k, hresult, rfl⟩ := exists_of_toOption_map hok
  obtain ⟨read, htakes⟩ := readBlock_contract insideLoop _ (Nat.zero_le _) hresult
  rw [htakes.cursor] at hindex
  exact ⟨read, (Nat.zero_add _).symm.trans hindex, htakes⟩

end Session

end DocTemplate
