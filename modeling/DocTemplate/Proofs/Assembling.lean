import DocTemplate.Proofs.Steps

/-!
# Reading complete constructs

Tokens that begin and end a construct leave the state as it was, but for that construct at the end
of the innermost body. What such tokens add does not depend on what stands around them, only on how
deep they stand. So the reading of a well-formed body can be put together from the readings of its
parts: the body of a level first, and then the tag that ends the level or goes on with the next
branch.

All statements are about what a reading ends in, whatever tokens follow.

## Main statements

- `Adds.cons`, `Adds.text`: constructs one after another
- `AddsOne.opens`, `Closes.body`, `Closes.elseIf`, `Closes.otherwise`, `closes_end`: a construct
  with bodies, from its opening tag to the tag that ends it
- `Adds.ofTokens`: the template of tokens that add constructs
-/

namespace DocTemplate

namespace Progress

/-- No plain runs are pending, and only the end of the body ends the reading. -/
structure Settled (p : Progress) : Prop where
  stretch : p.stretch = []
  stops : p.block.stops = [.endOfBody]

theorem Settled.push {p : Progress} (h : p.Settled) (c : Construct) : (p.push c).Settled where
  stretch := (p.stretch_push c).trans h.stretch
  stops := (Block.stops_of_emptied (p.emptied_push c)).trans h.stops

/-- What is open may be changed. -/
theorem Settled.levels {p : Progress} (h : p.Settled) (ls : List Level) :
    { p with levels := ls }.Settled where
  stretch := h.stretch
  stops := h.stops

/-- Add constructs to the innermost body, one after another. -/
def pushAll (p : Progress) (cs : List Construct) : Progress := cs.foldl push p

theorem pushAll_level (p : Progress) (l : Level) (ls : List Level) (cs : List Construct) :
    { p with levels := l :: ls }.pushAll cs =
      { p with levels := { l with body := cs.reverse ++ l.body } :: ls } := by
  induction cs generalizing l with
  | nil => rfl
  | cons c cs ih =>
    have hpush : { p with levels := l :: ls }.push c =
        { p with levels := { l with body := c :: l.body } :: ls } := rfl
    rw [pushAll, List.foldl_cons, hpush, ← pushAll, ih]
    simp

theorem pushAll_block {p : Progress} (h : p.levels = []) (cs : List Construct) :
    p.pushAll cs = { p with block := { p.block with body := cs.reverse ++ p.block.body } } := by
  induction cs generalizing p with
  | nil => rfl
  | cons c cs ih =>
    have hpush : p.push c = { p with block := { p.block with body := c :: p.block.body } } := by
      rw [push, h]
    have hlevels : (p.push c).levels = [] := by rw [hpush, h]
    rw [pushAll, List.foldl_cons, ← pushAll, ih hlevels, hpush]
    simp

/-- Nothing depends on the stray tags met so far. -/
theorem templateAfter_strays (s : Setting) (ts : List Token) (p : Progress) (strays : List Stray) :
    { p with strays := strays }.templateAfter s ts = p.templateAfter s ts := by
  have hnone : ∀ xs : List Stray, { p with strays := xs }.templateAfter s ts =
      { p with strays := [] }.templateAfter s ts := by
    intro xs
    have hnoting : { p with strays := xs } = { p with strays := [] }.noting xs := rfl
    rw [hnoting, templateAfter, templateAfter, readTokens_noting]
    rfl
  exact (hnone strays).trans (hnone p.strays).symm

end Progress

/-! ## Parts of a reading -/

/-- Reading the tokens in a body of this depth adds one construct to it. -/
def AddsOne (s : Setting) (depth : Nat) (ts : List Token) (c : Construct) : Prop :=
  ∀ (p : Progress) (us : List Token), p.Settled → p.depth = depth →
    p.templateAfter s (ts ++ us) = (p.push c).templateAfter s us

/-- Reading the tokens in a body of this depth adds constructs to it, unless plain runs follow:
these would go on with a text at the end. -/
def Adds (s : Setting) (depth : Nat) (ts : List Token) (cs : List Construct) : Prop :=
  ∀ (p : Progress) (us : List Token), p.Settled → p.depth = depth →
    us.head?.map Token.kind ≠ some .text →
    p.templateAfter s (ts ++ us) = (p.pushAll cs).templateAfter s us

/-- Reading the tokens where a level is the innermost one closes the level as a construct. -/
def Closes (s : Setting) (l : Level) (ts : List Token) (c : Construct) : Prop :=
  ∀ (p : Progress) (us : List Token), p.Settled →
    { p with levels := l :: p.levels }.templateAfter s (ts ++ us) = (p.push c).templateAfter s us

section

variable {s : Setting} {depth : Nat} {ts us : List Token} {c : Construct} {cs : List Construct}
  {l : Level} {k : Keyword} {f : Field}

theorem adds_nil (s : Setting) (depth : Nat) : Adds s depth [] [] := fun _ _ _ _ _ => rfl

theorem Adds.cons (h : AddsOne s depth ts c) (hrest : Adds s depth us cs) :
    Adds s depth (ts ++ us) (c :: cs) := by
  intro p vs hp hdepth hvs
  rw [List.append_assoc, h p (us ++ vs) hp hdepth]
  exact hrest (p.push c) vs (hp.push c) ((p.depth_push c).trans hdepth) hvs

/-- Plain runs are one text if no plain runs follow. -/
theorem Adds.text {xs : List RunId} (hxs : xs ≠ []) (hrest : Adds s depth us cs)
    (hplain : us.head?.map Token.kind ≠ some .text) :
    Adds s depth (xs.map .text ++ us) (.text { runs := xs } :: cs) := by
  intro p vs hp hdepth hvs
  have hnext : (us ++ vs).head?.map Token.kind ≠ some .text := by
    cases us with
    | nil => exact hvs
    | cons u us => exact hplain
  -- Whatever comes next ends the stretch, and only then is the text a construct.
  have hsettle : { p with stretch := xs.reverse ++ p.stretch }.settle =
      p.push (.text { runs := xs }) := by
    rw [Progress.settle_of_ne_nil (by simp [hxs]), hp.stretch]
    simp only [List.append_nil, List.reverse_reverse]
    rw [← hp.stretch]
  have hstops : { p with stretch := xs.reverse ++ p.stretch }.block.stops = [.endOfBody] := hp.stops
  rw [List.append_assoc, Progress.templateAfter_text hp.stops,
    ← Progress.templateAfter_settle hstops hnext, hsettle]
  exact hrest _ vs (hp.push _) ((p.depth_push _).trans hdepth) hvs

/-- The tokens of a well-formed body are read as a template that holds what they add. -/
theorem Adds.ofTokens (h : Adds s (depth + 1) ts cs) (hlimit : depth < s.limit) :
    Template.ofTokens s depth ts = .ok ⟨{}, cs⟩ := by
  have hfresh : (Progress.fresh depth).Settled := ⟨rfl, rfl⟩
  have hadds := h (Progress.fresh depth) [] hfresh rfl (by simp)
  rw [List.append_nil, Progress.templateAfter_nil, Progress.pushAll_block rfl] at hadds
  rw [Template.ofTokens_eq_fresh hlimit, hadds]
  simp [Progress.finish, Progress.settle, Progress.closeLevels, Progress.fresh, Progress.start,
    Block.toSection, Block.tag, Tag.swallowAll_nil]

/-! ## Tags -/

/-- A tag that takes its step leads on to the state after that. -/
theorem templateAfter_tag {p q : Progress} (hp : p.Settled) (hstep : TagStep s p k f q)
    (ts : List Token) : p.templateAfter s (.tag k f :: ts) = q.templateAfter s ts := by
  have hread : readToken s (.tag k f) p = .next q := by
    rw [readToken, Progress.settle_of_nil hp.stretch, readTag_eq_next_iff.mpr hstep]
  rw [Progress.templateAfter_cons hp.stops, hread]

theorem addsOne_single (depth : Nat) (hc : single? s f k = some c) :
    AddsOne s depth [.tag k f] c :=
  fun _ us hp _ => templateAfter_tag hp (.single hc) us

theorem addsOne_table {rows : List (List (List Token))} {templates : List (List Template)}
    (hcells : cellTemplates s depth rows = .ok templates) (id : TableId) :
    AddsOne s depth [.table id rows] (.table id templates) := by
  intro p us hp hdepth
  have hread := readToken_table_ok (p := p) (hdepth ▸ hcells) id
  rw [Progress.settle_of_nil hp.stretch] at hread
  rw [List.singleton_append, Progress.templateAfter_cons hp.stops, hread]
  exact Progress.templateAfter_strays s us _ _

/-- An opening tag, and what closes the level that it opens. -/
theorem AddsOne.opens (hl : opened? s f (depth + 1) k = some l) (hlimit : depth < s.limit)
    (h : Closes s l ts c) : AddsOne s depth (.tag k f :: ts) c := by
  intro p us hp hdepth
  subst hdepth
  rw [List.cons_append, templateAfter_tag hp (.opens hl hlimit)]
  exact h p us hp

/-- The body of the level comes first, and then a tag. -/
theorem Closes.body {us : List Token} (hbody : Adds s l.depth ts cs)
    (h : Closes s { l with body := cs.reverse ++ l.body } (.tag k f :: us) c) :
    Closes s l (ts ++ .tag k f :: us) c := by
  intro p vs hp
  rw [List.append_assoc, hbody _ _ (hp.levels _) rfl (by simp [Token.kind]),
    Progress.pushAll_level]
  exact h p vs hp

theorem closes_end (h : l.endsAt k) : Closes s l [.tag k f] (l.close f) := by
  intro p us hp
  exact templateAfter_tag (hp.levels _) (.closes rfl h) us

/-- A repetition: its opening tag, its body and its end. -/
theorem addsOne_loop {g : Field} (hlimit : depth < s.limit) (hbody : Adds s (depth + 1) ts cs) :
    AddsOne s depth (.tag .forEach f :: (ts ++ [.tag .endFor g]))
      (.loop ((readLoop s f).tag.absorb .closing g) (readLoop s f).iterator (readLoop s f).source
        cs) := by
  have hclose : { Level.ofLoop s (depth + 1) f with body := cs.reverse ++ [] }.close g =
      .loop ((readLoop s f).tag.absorb .closing g) (readLoop s f).iterator (readLoop s f).source
        cs := by
    simp [Level.close, Level.ofLoop, Level.tag, Tag.swallowAll_nil]
  apply AddsOne.opens (l := Level.ofLoop s (depth + 1) f) rfl hlimit
  apply Closes.body hbody
  rw [← hclose]
  exact closes_end rfl

section Branches

variable {earlier : List (Branch Construct)} {condition : Option Expression}

theorem Closes.elseIf (hpurpose : l.purpose = .branch earlier condition)
    (hlimit : l.depth < s.limit)
    (h : Closes s (Level.ofCondition s (l.depth + 1) (l.toBranch condition :: earlier) f) ts c) :
    Closes s l (.tag .elseIf f :: ts) c := by
  intro p us hp
  rw [List.cons_append, templateAfter_tag (hp.levels _) (.elseIf rfl hpurpose hlimit)]
  exact h p us hp

theorem Closes.otherwise (hpurpose : l.purpose = .branch earlier condition)
    (h : Closes s (Level.ofOtherwise l.depth earlier (l.toBranch condition) f) ts c) :
    Closes s l (.tag .otherwise f :: ts) c := by
  intro p us hp
  rw [List.cons_append, templateAfter_tag (hp.levels _) (.otherwise rfl hpurpose)]
  exact h p us hp

end Branches

end

end DocTemplate
