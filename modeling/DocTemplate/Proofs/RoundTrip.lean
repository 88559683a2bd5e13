import DocTemplate.Proofs.Assembling
import DocTemplate.Proofs.DraftTokens
import DocTemplate.Proofs.Nesting
import DocTemplate.Proofs.Recutting
import DocTemplate.Proofs.RunConservation
import DocTemplate.Proofs.WrittenTags

/-!
# Parsing what was written

A source tree that is written down as a draft is parsed back to itself. What is compared is the bare
template, in which the tags keep nothing but their problems.

The two halves of the argument meet at the tokens: writing and tokenizing gives tokens that are
known up to numbers, and reading such tokens adds the construct that was written.

## Main statements

- `Source.Item.readsBack`: the tokens of a list of items are read back
- `Source.Item.parse_render`: parsing undoes rendering
-/

namespace DocTemplate

namespace Source.Item

open Construct (nesting nestingOfBody nestingOfBranch nestingOfLinks nestingOfElse nestingOfRows
  nestingOfCells)

/-! ## From items to tokens -/

theorem lexable_condition (k : Keyword) (hk : k = .ifThen ∨ k = .elseIf) (condition : String) :
    Draft.Lexable (field (k.spelling ++ " " ++ condition)) :=
  .tag (match?_condition k hk condition)

mutual

/-- What is written down is cut into tokens as it was written. -/
theorem lexable_render {s : Setting} :
    ∀ {i : Item}, Sound s i → ∀ d ∈ render i, Draft.Lexable d
  | .text first more, _ => by
    intro d hd
    obtain ⟨text, -, rfl⟩ := List.mem_map.mp hd
    exact .text text
  | .query source display, h => by
    intro d hd
    rw [List.mem_singleton.mp hd]
    exact .tag (match?_query display h.2)
  | .loop iterator source body, ⟨_, _, _, _, _, hbody⟩ => by
    simp only [render, List.forall_mem_cons, List.forall_mem_append]
    refine ⟨.tag (match?_loop iterator source), lexable_renderAll hbody, ?_, by simp⟩
    exact .tag (k := .endFor) (by decide)
  | .conditional ⟨condition, body⟩ links otherwise, ⟨⟨_, hbody⟩, hlinks, helse⟩ => by
    simp only [render, List.forall_mem_cons, List.forall_mem_append]
    refine ⟨lexable_condition .ifThen (.inl rfl) condition, lexable_renderAll hbody,
      lexable_renderLinks hlinks, lexable_renderElse helse, ?_, by simp⟩
    exact .tag (k := .endIf) (by decide)
  | .table rows, h => by
    intro d hd
    rw [List.mem_singleton.mp hd]
    exact .table (lexable_renderRows h)

theorem lexable_renderAll {s : Setting} :
    ∀ {is : List Item}, SoundAll s is → ∀ d ∈ renderAll is, Draft.Lexable d
  | [], _ => by simp [renderAll]
  | i :: is, ⟨hi, _, his⟩ => by
    rw [renderAll, List.forall_mem_append]
    exact ⟨lexable_render hi, lexable_renderAll his⟩

theorem lexable_renderLinks {s : Setting} :
    ∀ {cs : List (Clause Item)}, SoundLinks s cs → ∀ d ∈ renderLinks cs, Draft.Lexable d
  | [], _ => by simp [renderLinks]
  | ⟨condition, body⟩ :: cs, ⟨⟨_, hbody⟩, hcs⟩ => by
    simp only [renderLinks, List.forall_mem_cons, List.forall_mem_append]
    exact ⟨lexable_condition .elseIf (.inr rfl) condition, lexable_renderAll hbody,
      lexable_renderLinks hcs⟩

theorem lexable_renderElse {s : Setting} :
    ∀ {o : Option (List Item)}, SoundElse s o → ∀ d ∈ renderElse o, Draft.Lexable d
  | none, _ => by simp [renderElse]
  | some body, h => by
    simp only [renderElse, List.forall_mem_cons]
    exact ⟨.tag (k := .otherwise) (by decide), lexable_renderAll h⟩

theorem lexable_renderRows {s : Setting} :
    ∀ {rows : List (List (List Item))}, SoundRows s rows →
      ∀ row ∈ renderRows rows, ∀ cell ∈ row, ∀ d ∈ cell, Draft.Lexable d
  | [], _ => by simp [renderRows]
  | r :: rs, h => by
    simp only [renderRows, List.forall_mem_cons]
    exact ⟨lexable_renderCells h.1, lexable_renderRows h.2⟩

theorem lexable_renderCells {s : Setting} :
    ∀ {cells : List (List Item)}, SoundCells s cells →
      ∀ cell ∈ renderCells cells, ∀ d ∈ cell, Draft.Lexable d
  | [], _ => by simp [renderCells]
  | c :: cs, h => by
    simp only [renderCells, List.forall_mem_cons]
    exact ⟨lexable_renderAll h.1, lexable_renderCells h.2⟩

end

/-! ## The tokens of an item -/

section Tokens

variable {ts : List Token}

theorem exists_append_of_forall₂ {α β : Type} {R : α → β → Prop} {xs ys : List α} {zs : List β}
    (h : List.Forall₂ R (xs ++ ys) zs) :
    ∃ us vs, zs = us ++ vs ∧ List.Forall₂ R xs us ∧ List.Forall₂ R ys vs := by
  induction xs generalizing zs with
  | nil => exact ⟨[], zs, rfl, .nil, h⟩
  | cons x xs ih =>
    cases h with
    | cons hx hrest =>
      obtain ⟨us, vs, rfl, hus, hvs⟩ := ih hrest
      exact ⟨_ :: us, vs, rfl, .cons hx hus, hvs⟩

/-- A field becomes the tag that its instruction begins with. -/
theorem exists_of_lexes_field {instruction : String} {k : Keyword} {ds : List Draft}
    (h : List.Forall₂ Draft.Lexes (field instruction :: ds) ts)
    (hk : Keyword.match? (Text.trim instruction.toList) = some k) :
    ∃ (f : Field) (us : List Token), ts = .tag k f :: us ∧
      f.instruction = Text.trim instruction.toList ∧ List.Forall₂ Draft.Lexes ds us := by
  obtain ⟨t, us, hfield, hrest, rfl⟩ := List.forall₂_cons_left_iff.mp h
  cases hfield with
  | tag hk' hf =>
    rw [hk] at hk'
    cases hk'
    exact ⟨_, us, rfl, hf, hrest⟩

/-- The same for a field at the end. -/
theorem exists_of_lexes_last {instruction : String} {k : Keyword}
    (h : List.Forall₂ Draft.Lexes [field instruction] ts)
    (hk : Keyword.match? (Text.trim instruction.toList) = some k) :
    ∃ f : Field, ts = [.tag k f] ∧ f.instruction = Text.trim instruction.toList := by
  obtain ⟨f, us, rfl, hf, hnil⟩ := exists_of_lexes_field h hk
  cases hnil
  exact ⟨f, rfl, hf⟩

/-- Plain runs become plain tokens. -/
theorem exists_of_lexes_texts {texts : List String}
    (h : List.Forall₂ Draft.Lexes (texts.map fun s => .paragraph [.text s]) ts) :
    ∃ xs : List RunId, ts = xs.map .text ∧ xs.length = texts.length := by
  induction texts generalizing ts with
  | nil =>
    cases h
    exact ⟨[], rfl, rfl⟩
  | cons text texts ih =>
    obtain ⟨t, rest, hfirst, hrest, rfl⟩ := List.forall₂_cons_left_iff.mp h
    obtain ⟨xs, rfl, hlength⟩ := ih hrest
    cases hfirst with
    | text _ r => exact ⟨r :: xs, rfl, by simp [hlength]⟩

/-- Only a text begins with plain tokens. -/
theorem kind_head_of_lexes {is : List Item} (htext : ∀ j ∈ is.head?, j.isText = false)
    (h : List.Forall₂ Draft.Lexes (renderAll is) ts) :
    ts.head?.map Token.kind ≠ some .text := by
  cases is with
  | nil =>
    cases h
    simp
  | cons i is =>
    have hnot : i.isText = false := htext i rfl
    cases i with
    | text => cases hnot
    | query | loop | conditional | table =>
      -- Every other item begins with a field or is a table.
      obtain ⟨t, rest, hfirst, -, rfl⟩ := List.forall₂_cons_left_iff.mp h
      cases hfirst
      simp [Token.kind]

end Tokens

/-! ## From tokens to constructs -/

/-- The tokens of the items are read back, as deep as the limit allows. -/
def ReadsBack (s : Setting) (is : List Item) : Prop :=
  SoundAll s is → ∀ depth ts, List.Forall₂ Draft.Lexes (renderAll is) ts →
    depth + nestingOfBody (constructs s is) ≤ s.limit →
    ∃ cs, Adds s depth ts cs ∧ Construct.reduceEach .bare cs = constructs s is

/-- The same for one item, which is not a text. -/
def ReadsBackOne (s : Setting) (i : Item) : Prop :=
  Sound s i → ∀ depth ts, List.Forall₂ Draft.Lexes (render i) ts →
    depth + nesting (construct s i) ≤ s.limit →
    ∃ c, AddsOne s depth ts c ∧ c.reduce .bare = construct s i

variable {s : Setting}

theorem readsBack_nil : ReadsBack s [] := by
  intro _ depth ts hts _
  cases hts
  exact ⟨[], adds_nil s depth, rfl⟩

theorem ReadsBackOne.cons {i : Item} {is : List Item} (hi : ReadsBackOne s i)
    (his : ReadsBack s is) : ReadsBack s (i :: is) := by
  intro hsound depth ts hts hlimit
  obtain ⟨us, vs, rfl, hus, hvs⟩ := exists_append_of_forall₂ hts
  rw [constructs, nestingOfBody] at hlimit
  obtain ⟨c, hc, hreduce⟩ := hi hsound.1 depth us hus (by omega)
  obtain ⟨cs, hcs, hreduces⟩ := his hsound.2.2 depth vs hvs (by omega)
  refine ⟨c :: cs, Adds.cons hc hcs, ?_⟩
  rw [Construct.reduceEach, hreduce, hreduces, constructs]

theorem ReadsBack.text {is : List Item} (his : ReadsBack s is) (first : String)
    (more : List String) : ReadsBack s (.text first more :: is) := by
  intro hsound depth ts hts hlimit
  obtain ⟨us, vs, rfl, hus, hvs⟩ := exists_append_of_forall₂ hts
  obtain ⟨xs, rfl, hlength⟩ := exists_of_lexes_texts hus
  rw [constructs, nestingOfBody] at hlimit
  obtain ⟨cs, hcs, hreduces⟩ := his hsound.2.2 depth vs hvs (by omega)
  -- No text follows, so the plain runs end with those of this one.
  have hplain := kind_head_of_lexes (hsound.2.1 rfl) hvs
  have hnonempty : xs ≠ [] := by
    rintro rfl
    cases hlength
  refine ⟨.text { runs := xs } :: cs, Adds.text hnonempty hcs hplain, ?_⟩
  rw [Construct.reduceEach, hreduces, constructs, construct, Construct.reduce]
  simp [Reduction.bare, List.map_const', hlength]

theorem readsBackOne_query (source : String) (display : Display) :
    ReadsBackOne s (.query source display) := by
  intro hsound depth ts hts _
  obtain ⟨f, rfl, hf⟩ := exists_of_lexes_last hts (match?_query display hsound.2)
  refine ⟨readQuery s f, addsOne_single depth rfl, ?_⟩
  rw [readQuery_written hsound.1 hf]
  rfl

theorem readsBackOne_loop {iterator source : String} {body : List Item} (hbody : ReadsBack s body) :
    ReadsBackOne s (.loop iterator source body) := by
  intro hsound depth ts hts hlimit
  obtain ⟨htrim, hname, hbar, hsource, hnonempty, hsoundBody⟩ := hsound
  obtain ⟨f, rest, rfl, hf, hrest⟩ := exists_of_lexes_field hts (match?_loop iterator source)
  obtain ⟨us, vs, rfl, hus, hvs⟩ := exists_append_of_forall₂ hrest
  obtain ⟨g, rfl, -⟩ := exists_of_lexes_last (k := .endFor) hvs (by decide)
  rw [construct, nesting] at hlimit
  obtain ⟨cs, hcs, hreduces⟩ := hbody hsoundBody (depth + 1) us hus (by omega)
  refine ⟨_, addsOne_loop (by omega) hcs, ?_⟩
  rw [readLoop_written htrim hname hbar hsource hnonempty hf, Construct.reduce, hreduces, construct]
  rfl

/-! ## Conditionals -/

section Branches

variable {l : Level} {earlier : List (Branch Construct)} {condition : Option Expression}
  {first last : Branch Construct} {links : List (Branch Construct)} {g : Field}

theorem reduce_ofBranches_bare
    (h : (earlier.reverse ++ [last]).map (Construct.reduceBranch .bare) = first :: links)
    (otherwise : Option (Section Construct)) :
    (Construct.ofBranches last earlier otherwise).reduce .bare =
      .conditional first links (Construct.reduceElse .bare otherwise) := by
  rw [Construct.reduce_ofBranches]
  apply Construct.ofBranches_eq_conditional
  rw [← h]
  simp

/-- A conditional that ends with its last condition. -/
theorem closes_endIf (hpurpose : l.purpose = .branch earlier condition)
    (h : (earlier.reverse ++ [l.toBranch condition]).map (Construct.reduceBranch .bare) =
      first :: links) :
    ∃ c, Closes s l [.tag .endIf g] c ∧ c.reduce .bare = .conditional first links none := by
  refine ⟨l.close g, closes_end (by rw [Level.endsAt, Level.frame, hpurpose]), ?_⟩
  rw [Level.close, hpurpose]
  apply reduce_ofBranches_bare
  -- The tag that ends the conditional belongs to the last branch, where it is not to be seen.
  rw [← h]
  simp [Construct.reduceBranch_absorb, Level.toBranch]

/-- A conditional that ends with what follows `m:else`. -/
theorem closes_else (hpurpose : l.purpose = .branch earlier condition)
    (h : (earlier.reverse ++ [l.toBranch condition]).map (Construct.reduceBranch .bare) =
      first :: links) {f : Field} {ts : List Token} {cs : List Construct}
    (hbody : Adds s l.depth ts cs) :
    ∃ c, Closes s l (.tag .otherwise f :: (ts ++ [.tag .endIf g])) c ∧
      c.reduce .bare = .conditional first links (some ⟨{}, Construct.reduceEach .bare cs⟩) := by
  have hclose : { Level.ofOtherwise l.depth earlier (l.toBranch condition) f with
      body := cs.reverse ++ [] }.close g =
      .ofBranches ⟨l.tag.absorb .closing g, condition, l.body.reverse⟩ earlier
        (some ⟨Tag.ofField f, cs⟩) := by
    simp [Level.close, Level.ofOtherwise, Level.toBranch, Level.tag, Tag.swallowAll_nil]
  have hcloses := Closes.body (l := Level.ofOtherwise l.depth earlier (l.toBranch condition) f)
    hbody (closes_end (k := .endIf) (f := g) rfl)
  refine ⟨_, Closes.otherwise hpurpose hcloses, ?_⟩
  apply (congrArg (Construct.reduce .bare) hclose).trans
  apply reduce_ofBranches_bare
  rw [← h]
  simp [Construct.reduceBranch_absorb, Level.toBranch]

end Branches

/-- The level of a condition whose tag was written down. -/
def written (s : Setting) (earlier : List (Branch Construct)) (condition : String) (depth : Nat)
    (f : Field) : Level :=
  { purpose := .branch earlier (some (s.compile condition).expression)
    depth := depth
    header := Tag.ofField f }

theorem ofCondition_eq_written {k : Keyword} (hk : k = .ifThen ∨ k = .elseIf) {condition : String}
    (hcondition : Compiles s condition) {f : Field}
    (hf : f.instruction = Text.trim (k.spelling ++ " " ++ condition).toList) (depth : Nat)
    (earlier : List (Branch Construct)) :
    Level.ofCondition s depth earlier f = written s earlier condition depth f := by
  simp only [Level.ofCondition, readCondition_written hk hcondition hf, written]

/-- Reading the body of a condition leads to a level that amounts to the branch. -/
theorem exists_level_of_readsBack {body : List Item} (hbody : ReadsBack s body)
    (hsound : SoundAll s body) (depth : Nat) {ts : List Token}
    (hts : List.Forall₂ Draft.Lexes (renderAll body) ts)
    (hlimit : depth + nestingOfBody (constructs s body) ≤ s.limit)
    (earlier : List (Branch Construct)) (condition : String) (f : Field) :
    ∃ (l : Level) (expression : Option Expression), l.depth = depth ∧
      l.purpose = .branch earlier expression ∧
      Construct.reduceBranch .bare (l.toBranch expression) = branch s ⟨condition, body⟩ ∧
      ∀ k g us c, Closes s l (.tag k g :: us) c →
        Closes s (written s earlier condition depth f) (ts ++ .tag k g :: us) c := by
  obtain ⟨cs, hcs, hreduces⟩ := hbody hsound depth ts hts hlimit
  refine ⟨{ written s earlier condition depth f with body := cs.reverse ++ [] }, _, rfl, rfl, ?_,
    fun k g us c hc => Closes.body hcs hc⟩
  have hbranch : { written s earlier condition depth f with body := cs.reverse ++ [] }.toBranch
      (some (s.compile condition).expression) =
      ⟨Tag.ofField f, some (s.compile condition).expression, cs⟩ := by
    simp [written, Level.toBranch, Level.tag, Tag.swallowAll_nil]
  rw [hbranch, Construct.reduceBranch, hreduces, branch]
  rfl

/-- The branches from a condition on: its body, further conditions, the alternative, and the end. -/
theorem closes_branches {links : List (Clause Item)} {otherwise : Option (List Item)}
    (hlinks : ∀ c ∈ links, ReadsBack s c.body) (helse : ∀ body ∈ otherwise, ReadsBack s body)
    (hsoundLinks : SoundLinks s links) (hsoundElse : SoundElse s otherwise) {condition : String}
    {body : List Item} (hbody : ReadsBack s body) (hsound : SoundAll s body)
    {earlier : List (Branch Construct)} {depth : Nat} {f : Field} {ts : List Token}
    (hts : List.Forall₂ Draft.Lexes
      (renderAll body ++ (renderLinks links ++ (renderElse otherwise ++ [field "m:endif"]))) ts)
    (hlimit : depth + nestingOfBranch (branch s ⟨condition, body⟩)
      (nestingOfLinks (branches s links) (nestingOfElse (alternative s otherwise))) ≤ s.limit)
    {first : Branch Construct} {rest : List (Branch Construct)}
    (h : earlier.reverse.map (Construct.reduceBranch .bare) ++
      branch s ⟨condition, body⟩ :: branches s links = first :: rest) :
    ∃ c, Closes s (written s earlier condition (depth + 1) f) ts c ∧
      c.reduce .bare = .conditional first rest (alternative s otherwise) := by
  -- The branches that are finished pile up in `earlier`, so that the whole conditional is known at
  -- every condition: what is finished, this condition, and the links that are left.
  induction links generalizing condition body earlier depth f ts with
  | nil =>
    obtain ⟨us, vs, rfl, hus, hvs⟩ := exists_append_of_forall₂ hts
    rw [branches, nestingOfLinks, branch, nestingOfBranch] at hlimit
    obtain ⟨l, expression, hdepth, hpurpose, hbranch, hcloses⟩ :=
      exists_level_of_readsBack hbody hsound (depth + 1) hus (by omega) earlier condition f
    have hchain : (earlier.reverse ++ [l.toBranch expression]).map
        (Construct.reduceBranch .bare) = first :: rest := by
      rw [← h, List.map_append, List.map_singleton, hbranch, branches]
    cases otherwise with
    | none =>
      obtain ⟨g, rfl, -⟩ := exists_of_lexes_last (k := .endIf) hvs (by decide)
      obtain ⟨c, hc, hreduce⟩ := closes_endIf (s := s) (g := g) hpurpose hchain
      exact ⟨c, hcloses _ _ _ c hc, hreduce⟩
    | some body' =>
      obtain ⟨g, vs, rfl, -, hvs⟩ := exists_of_lexes_field (k := .otherwise) hvs (by decide)
      obtain ⟨us', vs', rfl, hus', hvs'⟩ := exists_append_of_forall₂ hvs
      obtain ⟨g', rfl, -⟩ := exists_of_lexes_last (k := .endIf) hvs' (by decide)
      rw [alternative, nestingOfElse] at hlimit
      obtain ⟨ds, hds, hreduces⟩ := helse body' rfl hsoundElse (depth + 1) us' hus' (by omega)
      rw [← hdepth] at hds
      obtain ⟨c, hc, hreduce⟩ := closes_else (f := g) (g := g') hpurpose hchain hds
      exact ⟨c, hcloses _ _ _ c hc, by rw [hreduce, hreduces, alternative]⟩
  | cons link links ih =>
    obtain ⟨condition', body'⟩ := link
    obtain ⟨us, vs, rfl, hus, hvs⟩ := exists_append_of_forall₂ hts
    obtain ⟨hlink, hlinks⟩ := List.forall_mem_cons.mp hlinks
    obtain ⟨⟨hcompiles, hsoundLink⟩, hsoundLinks⟩ := hsoundLinks
    simp only [renderLinks, List.cons_append, List.append_assoc] at hvs
    obtain ⟨g, vs, rfl, hg, hvs⟩ :=
      exists_of_lexes_field hvs (match?_condition .elseIf (.inr rfl) condition')
    rw [branches, nestingOfLinks, branch, nestingOfBranch] at hlimit
    obtain ⟨l, expression, hdepth, hpurpose, hbranch, hcloses⟩ :=
      exists_level_of_readsBack hbody hsound (depth + 1) hus (by omega) earlier condition f
    have hnext : (l.toBranch expression :: earlier).reverse.map (Construct.reduceBranch .bare) ++
        branch s ⟨condition', body'⟩ :: branches s links = first :: rest := by
      rw [← h, List.reverse_cons, List.map_append, List.map_singleton, hbranch, branches]
      simp
    -- The next condition lies one deeper and takes the place of this one.
    have hdeeper : (depth + 1) + nestingOfBranch (branch s ⟨condition', body'⟩)
        (nestingOfLinks (branches s links) (nestingOfElse (alternative s otherwise))) ≤
        s.limit := by
      omega
    obtain ⟨c, hc, hreduce⟩ := ih hlinks hsoundLinks hlink hsoundLink (f := g) hvs hdeeper hnext
    have hpos := Construct.nestingOfBranch_pos (branch s ⟨condition', body'⟩)
      (nestingOfLinks (branches s links) (nestingOfElse (alternative s otherwise)))
    refine ⟨c, hcloses _ _ _ c (Closes.elseIf hpurpose (by omega) ?_), hreduce⟩
    rw [ofCondition_eq_written (.inr rfl) hcompiles hg, hdepth]
    exact hc

theorem readsBackOne_conditional {first : Clause Item} {links : List (Clause Item)}
    {otherwise : Option (List Item)} (hfirst : ReadsBack s first.body)
    (hlinks : ∀ c ∈ links, ReadsBack s c.body) (helse : ∀ body ∈ otherwise, ReadsBack s body) :
    ReadsBackOne s (.conditional first links otherwise) := by
  obtain ⟨condition, body⟩ := first
  intro hsound depth ts hts hlimit
  obtain ⟨⟨hcompiles, hsoundBody⟩, hsoundLinks, hsoundElse⟩ := hsound
  obtain ⟨f, us, rfl, hf, hus⟩ :=
    exists_of_lexes_field hts (match?_condition .ifThen (.inl rfl) condition)
  rw [construct, nesting] at hlimit
  have hpos := Construct.nestingOfBranch_pos (branch s ⟨condition, body⟩)
    (nestingOfLinks (branches s links) (nestingOfElse (alternative s otherwise)))
  -- No branch is finished yet when the first condition opens its level.
  have hchain : ([] : List (Branch Construct)).reverse.map (Construct.reduceBranch .bare) ++
      branch s ⟨condition, body⟩ :: branches s links =
      branch s ⟨condition, body⟩ :: branches s links := rfl
  obtain ⟨c, hc, hreduce⟩ := closes_branches (f := f) hlinks helse hsoundLinks hsoundElse hfirst
    hsoundBody hus hlimit hchain
  refine ⟨c, AddsOne.opens (k := .ifThen) rfl (by omega) ?_, hreduce⟩
  rw [ofCondition_eq_written (.inl rfl) hcompiles hf]
  exact hc

/-! ## Tables -/

theorem exists_templates_of_cells {cells : List (List Item)} (h : ∀ c ∈ cells, ReadsBack s c)
    (hsound : SoundCells s cells) {depth : Nat} {tss : List (List Token)}
    (hts : List.Forall₂ (List.Forall₂ Draft.Lexes) (renderCells cells) tss)
    (hlimit : depth + nestingOfCells (cellTemplates s cells) ≤ s.limit) :
    ∃ templates, List.Forall₂ (fun ts t => Template.ofTokens s depth ts = .ok t) tss templates ∧
      Construct.reduceCells .bare templates = cellTemplates s cells := by
  induction cells generalizing tss with
  | nil =>
    cases hts
    exact ⟨[], .nil, rfl⟩
  | cons cell cells ih =>
    obtain ⟨ts, tss, hcell, hcells, rfl⟩ := List.forall₂_cons_left_iff.mp hts
    obtain ⟨hfirst, hrest⟩ := List.forall_mem_cons.mp h
    rw [cellTemplates, nestingOfCells] at hlimit
    -- A cell lies one deeper than the body that its table stands in.
    obtain ⟨cs, hcs, hreduces⟩ := hfirst hsound.1 (depth + 1) ts hcell (by omega)
    obtain ⟨templates, htemplates, hrests⟩ := ih hrest hsound.2 hcells (by omega)
    refine ⟨⟨{}, cs⟩ :: templates, .cons (hcs.ofTokens (by omega)) htemplates, ?_⟩
    rw [Construct.reduceCells, Construct.reduceSection, hreduces, hrests, cellTemplates]
    rfl

theorem exists_templates_of_rows {rows : List (List (List Item))}
    (h : ∀ r ∈ rows, ∀ c ∈ r, ReadsBack s c) (hsound : SoundRows s rows) {depth : Nat}
    {tsss : List (List (List Token))}
    (hts : List.Forall₂ (List.Forall₂ (List.Forall₂ Draft.Lexes)) (renderRows rows) tsss)
    (hlimit : depth + nestingOfRows (rowTemplates s rows) ≤ s.limit) :
    ∃ templates, DocTemplate.cellTemplates s depth tsss = .ok templates ∧
      Construct.reduceRows .bare templates = rowTemplates s rows := by
  simp only [cellTemplates_eq_ok_iff]
  induction rows generalizing tsss with
  | nil =>
    cases hts
    exact ⟨[], .nil, rfl⟩
  | cons row rows ih =>
    obtain ⟨tss, tsss, hrow, hrows, rfl⟩ := List.forall₂_cons_left_iff.mp hts
    obtain ⟨hfirst, hrest⟩ := List.forall_mem_cons.mp h
    rw [rowTemplates, nestingOfRows] at hlimit
    have hcellLimit : depth + nestingOfCells (cellTemplates s row) ≤ s.limit := by omega
    obtain ⟨cells, hcells, hreduces⟩ :=
      exists_templates_of_cells hfirst hsound.1 hrow hcellLimit
    obtain ⟨templates, htemplates, hrests⟩ := ih hrest hsound.2 hrows (by omega)
    refine ⟨cells :: templates, .cons hcells htemplates, ?_⟩
    rw [Construct.reduceRows, hreduces, hrests, rowTemplates]

theorem readsBackOne_table {rows : List (List (List Item))}
    (h : ∀ r ∈ rows, ∀ c ∈ r, ReadsBack s c) : ReadsBackOne s (.table rows) := by
  intro hsound depth ts hts hlimit
  obtain ⟨t, rest, htable, hnil, rfl⟩ := List.forall₂_cons_left_iff.mp hts
  cases hnil
  cases htable with
  | table id hcells =>
    rw [construct, nesting] at hlimit
    obtain ⟨templates, htemplates, hreduces⟩ := exists_templates_of_rows h hsound hcells hlimit
    refine ⟨.table id templates, addsOne_table htemplates id, ?_⟩
    rw [Construct.reduce, hreduces, construct]
    rfl

/-! ## Parsing -/

/-- **The tokens of rendered items are read back.** -/
theorem readsBack (s : Setting) (is : List Item) : ReadsBack s is := by
  induction is using treeInduction with
  | nil => exact readsBack_nil
  | text first more is hrest => exact hrest.text first more
  | query source display is hrest => exact (readsBackOne_query source display).cons hrest
  | loop iterator source body is hbody hrest => exact (readsBackOne_loop hbody).cons hrest
  | conditional first links otherwise is hfirst hlinks helse hrest =>
    exact (readsBackOne_conditional hfirst hlinks helse).cons hrest
  | table rows is hcells hrest => exact (readsBackOne_table hcells).cons hrest

/-- **Parsing undoes rendering.** Take a tree that can be read back and that the limit has room for,
and write it down, with paragraphs that end anywhere. The parse gives a template without problems:
the tree itself, with every run of the body in its place. -/
theorem parse_render (s : Setting) (is : List Item) (hsound : SoundAll s is)
    (hlimit : (template s is).need ≤ s.limit) (b : Body)
    (hb : Body.Corresponds Eq (Draft.build (renderAll is)) b) :
    ∃ t, (b.parse s).result = .ok t ∧ t.problems = [] ∧ t.reduce .bare = template s is ∧
      t.runs = b.runs.map Run.id := by
  -- The tokens do not tell where paragraphs end.
  have hlexes := Draft.build_lexes (lexable_renderAll hsound)
  rw [Body.linearTokens, hb.linearPositions_eq, ← Body.linearTokens] at hlexes
  rw [Template.need, template] at hlimit
  obtain ⟨cs, hcs, hreduces⟩ := readsBack s is hsound 1 _ hlexes hlimit
  have hread : Template.ofTokens s 0 b.linearTokens = .ok ⟨{}, cs⟩ := hcs.ofTokens (by omega)
  have hbare : Template.reduce .bare ⟨{}, cs⟩ = template s is := by
    rw [Template.reduce, Construct.reduceSection, hreduces]
    rfl
  have hproblems : Template.problems ⟨{}, cs⟩ = [] := by
    rw [← Template.problems_bare, hbare, problems_template]
  refine ⟨⟨{}, cs⟩, by rw [b.result_parse, hread], hproblems, hbare, ?_⟩
  rw [Template.runs_of_problems_eq_nil hread hproblems, b.runsOf_linearTokens]

/-- A repetition around a conditional with all kinds of branches, and a table. One expression holds
a bar, and another one ends like a display. -/
def report : List Item :=
  [.text "a" ["b"],
    .loop "x" "xs | ys"
      [.conditional ⟨"x", [.query "x label" .label]⟩ [⟨"y", []⟩] (some [.text "c" []])],
    .table [[[.query "x" .icon], [.loop "y" "ys" [.text "d" []]]], []]]

/-- The tree written down with few paragraphs. -/
def reportBody : Body :=
  Draft.build
    [.paragraph [.text "a", .text "b", .field ["m:for x | xs | ys"], .field ["m:if x"]],
      .paragraph [.field ["m:x label label"], .field ["m:elseif y"], .field ["m:else"], .text "c",
        .field ["m:endif"], .field ["m:endfor"]],
      .table [[[.paragraph [.field ["m:x icon"]]],
        [.paragraph [.field ["m:for y | ys"], .text "d", .field ["m:endfor"]]]], []]]

/-- The limit has just room for the tree. -/
theorem parse_render_report :
    (template { compile := .fixed [] } report).need = 4 ∧
      ∃ t, (reportBody.parse { compile := .fixed [], limit := 4 }).result = .ok t ∧
        t.problems = [] ∧ t.reduce .bare = template { compile := .fixed [] } report ∧
        t.runs = List.range 34 := by
  have hsound : SoundAll { compile := .fixed [], limit := 4 } report := by decide +kernel
  have hbody : Body.Corresponds Eq (Draft.build (renderAll report)) reportBody :=
    @Body.Corresponds.paragraphs _ [_, _, _, _, _, _, _, _, _, _] [_, _] _ _ rfl
      (.table (.cons (.cons (@Body.Corresponds.paragraphs _ [_] [_] _ _ rfl .nil)
        (.cons (@Body.Corresponds.paragraphs _ [_, _, _] [_] _ _ rfl .nil) .nil))
        (.cons .nil .nil)) .nil)
  have hneed : (template { compile := .fixed [] } report).need = 4 := by decide
  refine ⟨hneed, ?_⟩
  obtain ⟨t, hparse, hproblems, hbare, hruns⟩ :=
    parse_render _ report hsound hneed.le reportBody hbody
  exact ⟨t, hparse, hproblems, hbare, hruns.trans (by decide +kernel)⟩

end Source.Item

end DocTemplate
