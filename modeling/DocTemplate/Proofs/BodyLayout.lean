import DocTemplate.Proofs.SessionCalls
import DocTemplate.Proofs.Tidying
import DocTemplate.Proofs.TreeInvariants

/-!
# How bodies are laid out

A body is read turn by turn, and each turn takes a piece of the tokens: all plain runs in front, a
tag or a table with everything that belongs to it, or a stray tag. The pieces follow one another
without gaps, so the constructs of a body and the strays that its tag has swallowed stand among the
tokens in one order. Since a turn takes all plain runs that it finds, there is something else behind
a piece of plain runs.

The same holds of every body inside, relative to the piece that it is a part of. The branches of a
conditional take the place of each other while they are read, and all of them are part of one piece.

## Main statements

- `Section.LaidOver`: what it means that a body consists of pieces
- `Reader.Ends.lays`: what every call makes of the tokens that it passes
- `Template.allLaidIn`: the bodies of a template are laid out in its tokens
-/

namespace DocTemplate

/-! ## Bodies inside of bodies -/

/-- A branch without its condition. -/
def Branch.toSection (b : Branch Construct) : Section Construct := ⟨b.tag, b.body⟩

/-- The bodies of a construct with the tags that they belong to; those of the cells of a table are
left out. -/
def Construct.innerSections : Construct → List (Section Construct)
  | .loop tag _ _ body => [⟨tag, body⟩]
  | .conditional first links otherwise =>
    (first :: links).map Branch.toSection ++ otherwise.toList
  | _ => []

theorem Construct.forall_mem_innerSections_ofBranches {P : Section Construct → Prop}
    {last : Branch Construct} {earlier : List (Branch Construct)}
    {otherwise : Option (Section Construct)} :
    (∀ sec ∈ (ofBranches last earlier otherwise).innerSections, P sec) ↔
      (∀ b ∈ earlier, P b.toSection) ∧ P last.toSection ∧ ∀ sec ∈ otherwise, P sec := by
  have hearlier : (∀ b ∈ earlier, P b.toSection) ↔ ∀ b ∈ earlier.reverse, P b.toSection := by
    simp only [List.mem_reverse]
  rw [hearlier]
  unfold ofBranches
  cases earlier.reverse with
  | nil => simp [innerSections]
  | cons first links => simp [innerSections, or_imp, forall_and, and_assoc]

/-- The second section is the first one, or that of a body inside of it that is in no cell. -/
inductive Section.Holds : Section Construct → Section Construct → Prop where
  | self (sec : Section Construct) : Holds sec sec
  | inside {sec next inner : Section Construct} {c : Construct} (hc : c ∈ sec.body)
      (hnext : next ∈ c.innerSections) (h : Holds next inner) : Holds sec inner

/-! ## Strays of a tag -/

/-- The strays that a tag has swallowed: their runs stand behind those of its own field, and nothing
else is reported as a stray. -/
structure Tag.HasSwallowed (t : Tag) (strays : List (Keyword × Field)) : Prop where
  runs : strays.flatMap (·.2.runs) <:+ t.runs
  reports : t.problems.filter Problem.isStrayReport = strays.map Problem.ofStray

namespace Tag

variable {t : Tag} {strays : List (Keyword × Field)}

/-- Nothing that is wrong inside a field is reported as a stray. -/
theorem Describes.hasSwallowed {f : Field} (h : t.Describes f) : t.HasSwallowed [] where
  runs := List.nil_suffix
  reports := by
    apply List.filter_eq_nil_iff.mpr
    intro p hp
    simp [p.isStrayReport_of_not_structural (h.problems p hp)]

theorem HasSwallowed.swallowAll (h : t.HasSwallowed []) (strays : List (Keyword × Field)) :
    (t.swallowAll strays).HasSwallowed strays where
  runs := List.suffix_append _ _
  reports := by
    have hall : (strays.map Problem.ofStray).filter Problem.isStrayReport =
        strays.map Problem.ofStray := by
      apply List.filter_eq_self.mpr
      intro p hp
      obtain ⟨s, -, rfl⟩ := List.mem_map.mp hp
      rfl
    show (t.problems ++ strays.map Problem.ofStray).filter _ = _
    rw [List.filter_append, h.reports, hall]
    rfl

/-- The field that closes a node leaves the strays as they are. -/
theorem HasSwallowed.closing (h : t.HasSwallowed strays) (f : Field) :
    (t.absorb .closing f).HasSwallowed strays where
  runs := h.runs
  reports := h.reports

/-- So does a report of something else. -/
theorem HasSwallowed.report (h : t.HasSwallowed strays) {cause : Cause} {run : Option RunId}
    (hcause : Problem.isStrayReport ⟨cause, run⟩ = false) :
    (t.report cause run).HasSwallowed strays where
  runs := h.runs
  reports := by
    have hnone : List.filter Problem.isStrayReport [⟨cause, run⟩] = [] :=
      List.filter_eq_nil_iff.mpr (by simp [hcause])
    show List.filter Problem.isStrayReport (t.problems ++ [⟨cause, run⟩]) = _
    rw [List.filter_append, hnone, List.append_nil, h.reports]

end Tag

/-! ## Pieces -/

/-- A piece of the tokens of a body, with what it becomes. -/
inductive Piece where
  /-- Plain runs, which become one text. -/
  | text (runs : List RunId)
  /-- All that belongs to some other construct. -/
  | construct (c : Construct) (taken : List Token)
  /-- A stray tag. -/
  | stray (k : Keyword) (f : Field)

namespace Piece

def tokens : Piece → List Token
  | text runs => runs.map .text
  | construct _ taken => taken
  | stray k f => [.tag k f]

/-- The construct that the body gets. -/
def construct? : Piece → Option Construct
  | text runs => some (.text { runs := runs })
  | construct c _ => some c
  | stray .. => none

/-- The stray that the tag of the body gets. -/
def stray? : Piece → Option (Keyword × Field)
  | stray k f => some (k, f)
  | _ => none

def isText : Piece → Bool
  | text _ => true
  | _ => false

/-- A text has a run, and no other construct is a text. -/
def Fits : Piece → Prop
  | text runs => runs ≠ []
  | construct c _ => c.isText = false
  | stray .. => True

/-- A text begins with a run. -/
theorem Fits.head?_kind {p : Piece} (h : p.Fits) (htext : p.isText = true) (ts : List Token) :
    (p.tokens ++ ts).head?.map Token.kind = some .text := by
  cases p with
  | text runs =>
    obtain ⟨x, xs, rfl⟩ := List.exists_cons_of_ne_nil h
    rfl
  | construct | stray => cases htext

/-- Pieces that can follow one another: no text stands right behind a text. -/
structure InRow (pieces : List Piece) : Prop where
  fits : ∀ p ∈ pieces, p.Fits
  apart : pieces.IsChain fun p q => p.isText = true → q.isText = false

theorem InRow.nil : InRow [] where
  fits _ hp := absurd hp List.not_mem_nil
  apart := .nil

theorem InRow.cons {p : Piece} {pieces : List Piece} (h : InRow pieces) (hfits : p.Fits)
    (hnext : p.isText = true → ∀ q ∈ pieces.head?, q.isText = false) : InRow (p :: pieces) where
  fits := List.forall_mem_cons.mpr ⟨hfits, h.fits⟩
  apart := by
    cases pieces with
    | nil => exact .singleton p
    | cons q others => exact .cons_cons (fun hp => hnext hp q rfl) h.apart

end Piece

/-- The body consists of what the pieces become, and the strays among them are those that its tag
has swallowed. -/
structure Section.LaidOver (sec : Section Construct) (pieces : List Piece) : Prop
    extends Piece.InRow pieces where
  body : sec.body = pieces.filterMap Piece.construct?
  swallowed : sec.tag.HasSwallowed (pieces.filterMap Piece.stray?)

/-- The pieces of the body stand among these tokens, without gaps. -/
def Section.LaidIn (sec : Section Construct) (ts : List Token) : Prop :=
  ∃ pieces, sec.LaidOver pieces ∧ pieces.flatMap Piece.tokens <:+: ts

/-- The body and all bodies inside of it are laid out among these tokens. -/
def Section.AllLaidIn (sec : Section Construct) (ts : List Token) : Prop :=
  ∀ inner, sec.Holds inner → inner.LaidIn ts

/-- The bodies in the construct of a piece are laid out among the tokens of that piece. -/
def Piece.InnerLaid (p : Piece) : Prop :=
  ∀ c ∈ p.construct?, ∀ sec ∈ c.innerSections, sec.AllLaidIn p.tokens

namespace Section

variable {sec : Section Construct} {ts us : List Token}

theorem AllLaidIn.mono (h : sec.AllLaidIn ts) (hsub : ts <:+: us) : sec.AllLaidIn us := by
  intro inner hinner
  obtain ⟨pieces, hover, hpieces⟩ := h inner hinner
  exact ⟨pieces, hover, hpieces.trans hsub⟩

/-- Only the strays of a tag matter for where its body is. -/
theorem AllLaidIn.withTag {tag tag' : Tag} {body : List Construct}
    (h : (⟨tag, body⟩ : Section Construct).AllLaidIn ts)
    (htag : ∀ strays, tag.HasSwallowed strays → tag'.HasSwallowed strays) :
    (⟨tag', body⟩ : Section Construct).AllLaidIn ts := by
  intro inner hinner
  cases hinner with
  | self =>
    obtain ⟨pieces, hover, hpieces⟩ := h _ (.self _)
    exact ⟨pieces, ⟨hover.toInRow, hover.body, htag _ hover.swallowed⟩, hpieces⟩
  | inside hc hnext hinner => exact h inner (.inside hc hnext hinner)

/-- A body over some pieces is laid out with everything in it if the pieces are. -/
theorem LaidOver.allLaidIn {pieces : List Piece} (h : sec.LaidOver pieces)
    (hpieces : ∀ p ∈ pieces, p.InnerLaid) : sec.AllLaidIn (pieces.flatMap Piece.tokens) := by
  intro inner hinner
  cases hinner with
  | self => exact ⟨pieces, h, List.infix_rfl⟩
  | inside hc hnext hinner =>
    -- The construct comes from one of the pieces, and the body inside is part of that piece.
    rw [h.body] at hc
    obtain ⟨p, hp, hpc⟩ := List.mem_filterMap.mp hc
    have hpart : p.tokens <:+: pieces.flatMap Piece.tokens :=
      List.infix_of_mem_flatten (List.mem_map_of_mem hp)
    exact (hpieces p hp _ hpc _ hnext).mono hpart inner hinner

end Section

/-! ## What has been read -/

namespace Collected

/-- The piece has been read as well. -/
def add (g : Collected) : Piece → Collected
  | .text runs => g.push (.text { runs := runs })
  | .construct c _ => g.push c
  | .stray k f => g.swallow k f

theorem body_add (g : Collected) (p : Piece) : (g.add p).body = p.construct?.toList ++ g.body := by
  cases p <;> rfl

theorem swallowed_add (g : Collected) (p : Piece) :
    (g.add p).swallowed = p.stray?.toList ++ g.swallowed := by
  cases p <;> rfl

theorem body_foldl_add (pieces : List Piece) (g : Collected) :
    (pieces.foldl add g).body.reverse = g.body.reverse ++ pieces.filterMap Piece.construct? := by
  induction pieces generalizing g with
  | nil => simp
  | cons p pieces ih =>
    rw [List.foldl_cons, ih, body_add]
    cases hp : p.construct? <;> simp [hp]

theorem swallowed_foldl_add (pieces : List Piece) (g : Collected) :
    (pieces.foldl add g).swallowed.reverse =
      g.swallowed.reverse ++ pieces.filterMap Piece.stray? := by
  induction pieces generalizing g with
  | nil => simp
  | cons p pieces ih =>
    rw [List.foldl_cons, ih, swallowed_add]
    cases hp : p.stray? <;> simp [hp]

/-- What has been read from the beginning on is a body over the pieces, under any tag that has
swallowed nothing before. -/
theorem laidOver {pieces : List Piece} (h : Piece.InRow pieces) {header : Tag}
    (hheader : header.HasSwallowed []) :
    (⟨header.swallowAll (pieces.foldl add {}).swallowed.reverse,
      (pieces.foldl add {}).body.reverse⟩ : Section Construct).LaidOver pieces where
  toInRow := h
  body := body_foldl_add pieces {}
  swallowed := by
    rw [swallowed_foldl_add]
    exact hheader.swallowAll _

end Collected

/-! ## Levels -/

namespace Level

variable {l : Level} {ts : List Token}

/-- A level as a tag with a body, before it is closed. -/
def toSection (l : Level) : Section Construct := ⟨l.tag, l.body.reverse⟩

/-- The bodies of a level, whose own one is the last, when its end tag closes it. -/
theorem allLaidIn_close (hown : l.toSection.AllLaidIn ts)
    (hbranches : ∀ b ∈ l.purpose.branches, b.toSection.AllLaidIn ts) (f : Field) :
    ∀ sec ∈ (l.close f).innerSections, sec.AllLaidIn ts := by
  -- Which tag takes the closing field depends on what the level is for.
  have hclosed := hown.withTag fun strays h => h.closing f
  unfold close
  cases hpurpose : l.purpose with
  | loop iterator source => exact List.forall_mem_singleton.mpr hclosed
  | branch earlier condition =>
    rw [hpurpose] at hbranches
    rw [Construct.forall_mem_innerSections_ofBranches]
    exact ⟨fun b hb => hbranches b (List.mem_reverse.mpr hb), hclosed, nofun⟩
  | otherwise earlier last =>
    rw [hpurpose] at hbranches
    simp only [Purpose.branches, List.forall_mem_append, List.mem_reverse,
      List.forall_mem_singleton] at hbranches
    rw [Construct.forall_mem_innerSections_ofBranches]
    -- The closing field is recorded at the last condition, whose body was read before.
    refine ⟨hbranches.1, hbranches.2.withTag fun strays h => h.closing f, ?_⟩
    rintro _ ⟨⟩
    exact hown

/-- The same when the end of the body cuts the level off. -/
theorem allLaidIn_closeAtEnd (hown : l.toSection.AllLaidIn ts)
    (hbranches : ∀ b ∈ l.purpose.branches, b.toSection.AllLaidIn ts) :
    ∀ sec ∈ l.closeAtEnd.innerSections, sec.AllLaidIn ts := by
  have hended : (⟨l.tag.report (.unexpected .endOfBody) none, l.body.reverse⟩ :
      Section Construct).AllLaidIn ts := hown.withTag fun strays h => h.report rfl
  unfold closeAtEnd
  cases hpurpose : l.purpose with
  | loop iterator source => exact List.forall_mem_singleton.mpr hended
  | branch earlier condition =>
    rw [hpurpose] at hbranches
    rw [Construct.forall_mem_innerSections_ofBranches]
    refine ⟨fun b hb => hbranches b (List.mem_reverse.mpr hb), ?_, nofun⟩
    exact hended.withTag fun strays h => h.report rfl
  | otherwise earlier last =>
    rw [hpurpose] at hbranches
    simp only [Purpose.branches, List.forall_mem_append, List.mem_reverse,
      List.forall_mem_singleton] at hbranches
    rw [Construct.forall_mem_innerSections_ofBranches]
    refine ⟨hbranches.1, hbranches.2, ?_⟩
    rintro _ ⟨⟩
    exact hended

/-- The level that takes the place of another one keeps the body of that one as a branch. -/
theorem allLaidIn_next? {s : Setting} {k : Keyword} {f : Field} {l' : Level}
    (h : l.next? s k f = some l') (hown : l.toSection.AllLaidIn ts)
    (hbranches : ∀ b ∈ l.purpose.branches, b.toSection.AllLaidIn ts) :
    ∀ b ∈ l'.purpose.branches, b.toSection.AllLaidIn ts := by
  unfold next? at h
  split at h
  next hpurpose =>
    cases h
    rw [hpurpose] at hbranches
    simp only [ofCondition, Purpose.branches, List.reverse_cons, List.forall_mem_append,
      List.forall_mem_singleton]
    exact ⟨hbranches, hown⟩
  next hpurpose =>
    cases h
    rw [hpurpose] at hbranches
    simp only [ofOtherwise, Purpose.branches, List.forall_mem_append, List.forall_mem_singleton]
    exact ⟨hbranches, hown⟩
  next => cases h

theorem hasSwallowed_next? {s : Setting} {k : Keyword} {f : Field} {l' : Level}
    (h : l.next? s k f = some l') : l'.header.HasSwallowed [] := by
  unfold next? at h
  split at h
  · cases h
    exact (readCondition_describes s f).hasSwallowed
  · cases h
    exact (Tag.Describes.ofField f).hasSwallowed
  · cases h

end Level

theorem opened?_hasSwallowed {s : Setting} {f : Field} {d : Nat} {k : Keyword} {l : Level}
    (h : opened? s f d k = some l) : l.header.HasSwallowed [] := by
  unfold opened? at h
  split at h
  · cases h
    exact (readLoop_describes s f).hasSwallowed
  · cases h
    exact (readCondition_describes s f).hasSwallowed
  · cases h

/-! ## What calls make of the tokens -/

theorem Token.map_leadingRuns_append (ts : List Token) :
    (leadingRuns ts).map .text ++ behindText ts = ts := by
  fun_induction behindText ts with
  | case1 x ts ih => exact congrArg _ ih
  | case2 ts hnot =>
    cases ts with
    | nil => rfl
    | cons t ts => cases t <;> first | rfl | exact absurd rfl (hnot _ _)

namespace Reader

/-- What a call has made of the tokens that it has passed. Where a level is read, the bodies of the
branches before it may be anywhere in front. -/
def Lays : Task → Reader → Answer → Reader → Prop
  | .turn _ g, r, .goesOn g', r' =>
    ∃ p : Piece, r.ahead = p.tokens ++ r'.ahead ∧ g' = g.add p ∧ p.Fits ∧ p.InnerLaid ∧
      (p.isText = true → r'.ahead.head?.map Token.kind ≠ some .text)
  | .turn _ g, r, .returns (.ok _) g', r' | .constructs _ g, r, .returns (.ok _) g', r'
  | .block _ g, r, .returns (.ok _) g', r' =>
    ∃ pieces, Piece.InRow pieces ∧ (∀ p ∈ pieces, p.InnerLaid) ∧
      r.ahead = pieces.flatMap Piece.tokens ++ r'.ahead ∧ g' = pieces.foldl Collected.add g
  | .level l, r, .built (.ok c), r' =>
    l.header.HasSwallowed [] → ∃ taken, r.ahead = taken ++ r'.ahead ∧ c.isText = false ∧
      ∀ before, (∀ b ∈ l.purpose.branches, b.toSection.AllLaidIn before) →
        ∀ sec ∈ c.innerSections, sec.AllLaidIn (before ++ taken)
  | .cells _, r, .cells _, r' | .rows _, r, .rows _, r' => r'.ahead = r.ahead
  | _, _, _, _ => True

section Layouts

variable {s : Setting}

/-- Nothing has been passed. -/
theorem lays_nothing (stops : List TokenKind) (g : Collected) (kind : TokenKind) (r : Reader) :
    Lays (.turn stops g) r (.returns (.ok kind) g) r :=
  ⟨[], .nil, fun _ hp => absurd hp List.not_mem_nil, rfl, rfl⟩

/-- One turn and the turns behind it. -/
theorem lays_nextTurn {stops : List TokenKind} {g g' g'' : Collected} {r r' r'' : Reader}
    {kind : TokenKind} (hturn : Lays (.turn stops g) r (.goesOn g') r')
    (hrest : Lays (.constructs stops g') r' (.returns (.ok kind) g'') r'') :
    Lays (.constructs stops g) r (.returns (.ok kind) g'') r'' := by
  obtain ⟨p, hahead, rfl, hfits, hinner, hbehind⟩ := hturn
  obtain ⟨pieces, hrow, hpieces, hahead', rfl⟩ := hrest
  have hrow' : Piece.InRow (p :: pieces) := by
    apply hrow.cons hfits
    intro hp q hq
    -- Behind plain runs there are no more of them, since the turn has taken all.
    apply Bool.eq_false_iff.mpr
    intro htext
    obtain ⟨others, rfl⟩ := List.head?_eq_some_iff.mp hq
    apply hbehind hp
    rw [hahead', List.flatMap_cons, List.append_assoc]
    exact (hrow.fits q List.mem_cons_self).head?_kind htext _
  refine ⟨p :: pieces, hrow', List.forall_mem_cons.mpr ⟨hinner, hpieces⟩, ?_, rfl⟩
  rw [List.flatMap_cons, List.append_assoc, ← hahead', hahead]

/-- A table is passed in one turn, whatever is in its cells. -/
theorem lays_table {stops : List TokenKind} {g : Collected} {id : TableId}
    {rows : List (List (List Token))} {ts : List Token} {d : Nat} {trace : Trace}
    {us : List (List Template)} {r' : Reader} (hahead : r'.ahead = ts) :
    Lays (.turn stops g) ⟨.table id rows :: ts, d, trace⟩ (.goesOn (g.push (.table id us))) r' := by
  refine ⟨.construct (.table id us) [.table id rows], ?_, rfl, rfl, ?_, nofun⟩
  · rw [hahead]
    rfl
  · rintro _ ⟨⟩ sec hsec
    exact absurd hsec List.not_mem_nil

/-- A tag is passed with everything that belongs to its level. -/
theorem lays_opens {stops : List TokenKind} {g : Collected} {k : Keyword} {f : Field}
    {ts : List Token} {d depth : Nat} {trace : Trace} {l : Level} {c : Construct} {r' : Reader}
    (hl : opened? s f depth k = some l)
    (hlevel : Lays (.level l) ⟨ts, d, trace⟩ (.built (.ok c)) r') :
    Lays (.turn stops g) ⟨.tag k f :: ts, d, trace⟩ (.goesOn (g.push c)) r' := by
  obtain ⟨taken, hahead, hc, hsections⟩ := hlevel (opened?_hasSwallowed hl)
  -- An opening tag stands for a level with no branches before it, so nothing is asked of them.
  have hnone : l.purpose.branches = [] := (header?_of_opened? hl).2.1
  refine ⟨.construct c (.tag k f :: taken), congrArg _ hahead, rfl, hc, ?_, nofun⟩
  rintro _ ⟨⟩
  apply hsections [.tag k f]
  intro b hb
  rw [hnone] at hb
  exact absurd hb List.not_mem_nil

/-- The body of a level is laid out among the tokens that its call has passed. -/
theorem lays_body {l : Level} {g : Collected} {r r' : Reader} {kind : TokenKind}
    (hheader : l.header.HasSwallowed [])
    (hbody : Lays (.block l.stops {}) r (.returns (.ok kind) g) r') :
    ∃ taken, r.ahead = taken ++ r'.ahead ∧ (l.filled g).toSection.AllLaidIn taken := by
  obtain ⟨pieces, hrow, hpieces, hahead, rfl⟩ := hbody
  have hover : (l.filled (pieces.foldl Collected.add {})).toSection.LaidOver pieces :=
    Collected.laidOver hrow hheader
  exact ⟨_, hahead, hover.allLaidIn hpieces⟩

/-- Where a level ends, the tokens of its body are followed by `ending`, its end tag if it has
one. -/
theorem lays_ends {l : Level} {g : Collected} {r r' r'' : Reader} {kind : TokenKind}
    {c : Construct} (ending : List Token)
    (hbody : Lays (.block l.stops {}) r (.returns (.ok kind) g) r')
    (hahead : r'.ahead = ending ++ r''.ahead) (hc : c.isText = false)
    (hsections : ∀ ts, (l.filled g).toSection.AllLaidIn ts →
      (∀ b ∈ (l.filled g).purpose.branches, b.toSection.AllLaidIn ts) →
      ∀ sec ∈ c.innerSections, sec.AllLaidIn ts) :
    Lays (.level l) r (.built (.ok c)) r'' := by
  intro hheader
  obtain ⟨taken, hpassed, hown⟩ := lays_body hheader hbody
  -- The end tag is part of the piece, but of no body.
  refine ⟨taken ++ ending, ?_, hc, ?_⟩
  · rw [hpassed, hahead, List.append_assoc]
  · intro before hbefore
    apply hsections
    · exact hown.mono (List.infix_append' before taken ending)
    · exact fun b hb => (hbefore b hb).mono (List.prefix_append before _).isInfix

/-- What takes the place of a level goes on with the body of that level among its branches. -/
theorem lays_next {l l' : Level} {g : Collected} {r r' r'' : Reader} {kind : TokenKind}
    {k : Keyword} {f : Field} {c : Construct}
    (hbody : Lays (.block l.stops {}) r (.returns (.ok kind) g) r')
    (hnext : (l.filled g).next? s k f = some l') {us : List Token} {d : Nat} {trace : Trace}
    (hahead : r'.ahead = .tag k f :: us)
    (hrest : Lays (.level l') ⟨us, d, trace⟩ (.built (.ok c)) r'') :
    Lays (.level l) r (.built (.ok c)) r'' := by
  intro hheader
  obtain ⟨taken, hpassed, hown⟩ := lays_body hheader hbody
  obtain ⟨others, hothers, hc, hsections⟩ := hrest (Level.hasSwallowed_next? hnext)
  refine ⟨taken ++ .tag k f :: others, ?_, hc, ?_⟩
  · rw [hpassed, hahead, List.append_assoc, List.cons_append, ← hothers]
  · intro before hbefore
    -- By now the body of this level is one of those in front.
    have hbranches : ∀ b ∈ l'.purpose.branches,
        b.toSection.AllLaidIn (before ++ taken ++ [.tag k f]) := by
      apply Level.allLaidIn_next? hnext
      · exact hown.mono (List.infix_append before taken [.tag k f])
      · intro b hb
        apply (hbefore b hb).mono
        rw [List.append_assoc]
        exact (List.prefix_append before _).isInfix
    have hall := hsections _ hbranches
    simpa only [List.append_assoc, List.singleton_append] using hall

end Layouts

/-- **What every call makes of the tokens that it passes.** -/
theorem Ends.lays {s : Setting} {limit? : Option Nat} {task : Task} {r r' : Reader}
    {answer : Answer} (h : Ends s limit? task r answer r') : Lays task r answer r' := by
  induction h with
  | atEnd => exact lays_nothing _ _ _ _
  | stops hstop => exact lays_nothing _ _ _ _
  | @text stops g x ts d trace hgo =>
    refine ⟨.text (x :: Token.leadingRuns ts), ?_, rfl, List.cons_ne_nil _ _, ?_, ?_⟩
    · exact congrArg _ (Token.map_leadingRuns_append ts).symm
    · rintro _ ⟨⟩ sec hsec
      exact absurd hsec List.not_mem_nil
    · exact fun _ => behindText_head ts
  | @single stops g k f ts d trace c hgo hc =>
    obtain ⟨tag, -, hcases⟩ := single?_cases hc
    refine ⟨.construct c [.tag k f], rfl, rfl, ?_, ?_, nofun⟩
    · rcases hcases with ⟨-, _, _, rfl⟩ | ⟨-, _, rfl⟩ | ⟨-, _, _, _, rfl⟩ <;> rfl
    · -- None of these constructs has a body.
      rintro _ ⟨⟩ sec hsec
      rcases hcases with ⟨-, _, _, rfl⟩ | ⟨-, _, rfl⟩ | ⟨-, _, _, _, rfl⟩ <;> cases hsec
  | opens hgo hl hlevel ih => exact lays_opens hl ih
  | @strays stops g k f ts d trace hgo hterminator =>
    exact ⟨.stray k f, rfl, rfl, trivial, nofun, nofun⟩
  | table hgo hrows ih => exact lays_table ih
  -- Of a call that fails nothing is asked.
  | opensFails | reserved | tableFails | barred | bodyFails | elseIfBarred => trivial
  | @lastTurn _ _ _ _ _ answer hturn ih => cases answer <;> exact ih
  | @nextTurn _ _ _ _ _ _ answer hturn hrest ih ihrest =>
    cases answer with
    | returns answer g'' =>
      cases answer with
      | error e => trivial
      | ok kind => exact lays_nextTurn ih ihrest
    | goesOn | built | cells | rows => trivial
  | @body _ _ _ _ answer hfree hbody ih =>
    cases answer with
    | returns answer g' => cases answer <;> exact ih
    | goesOn | built | cells | rows => trivial
  | @cutOff l g r r' kind hbody hnone ih =>
    apply lays_ends [] ih rfl (Level.isText_closeAtEnd _)
    intro ts hown hbranches
    exact Level.allLaidIn_closeAtEnd hown hbranches
  | @closes l g r kind k f ts d trace hbody hnext ih =>
    apply lays_ends [.tag k f] ih rfl (Level.isText_close _ _)
    intro ts hown hbranches
    exact Level.allLaidIn_close hown hbranches f
  -- The level that comes next answers for both.
  | @elseIf _ _ _ _ _ _ _ _ _ _ answer hbody hnext hfree hrest ih ihrest =>
    cases answer with
    | built answer =>
      cases answer with
      | error e => trivial
      | ok c => exact lays_next ih hnext rfl ihrest
    | goesOn | returns | cells | rows => trivial
  | @otherwise _ _ _ _ _ _ _ _ _ _ _ answer hbody hnext hk hrest ih ihrest =>
    cases answer with
    | built answer =>
      cases answer with
      | error e => trivial
      | ok c => exact lays_next ih hnext rfl ihrest
    | goesOn | returns | cells | rows => trivial
  | noCells | cellFails | noRows => rfl
  | cell hcell hrest ih ihrest => exact ihrest
  | row hrow hrest ih ihrest => exact ihrest.trans ih
  | rowFails hrow ih => exact ih

end Reader

/-! ## Templates -/

/-- **The bodies of a template are laid out in its tokens**, those in cells left out. -/
theorem Template.allLaidIn {s : Setting} {depth : Nat} {ts : List Token} {t : Template}
    (h : Template.ofTokens s depth ts = .ok t) : t.AllLaidIn ts := by
  have hends := (Reader.calls_end s (some s.limit)).2.1 [.endOfBody] {} ⟨ts, depth, {}⟩
  generalize Reader.block s (some s.limit) [.endOfBody] {} ⟨ts, depth, {}⟩ = back at hends
  obtain ⟨⟨answer, g⟩, r', forward⟩ := back
  have hout := Reader.readBlock_endsAs {} rfl hends
  rw [Template.ofTokens, readTemplate] at h
  simp only [hout.result] at h
  cases answer with
  | error e => cases h
  | ok kind =>
    cases h
    obtain ⟨pieces, hrow, hpieces, hahead, rfl⟩ := hends.lays
    -- A template has no opening field, so its tag has swallowed nothing before.
    have hquiet : ({} : Tag).HasSwallowed [] := ⟨List.nil_suffix, rfl⟩
    have hover := Collected.laidOver hrow hquiet
    rw [Block.toSection, hout.tag, hout.body, Session.tagAfter_template]
    exact (hover.allLaidIn hpieces).mono (hahead ▸ List.prefix_append _ _).isInfix

end DocTemplate
