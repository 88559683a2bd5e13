import DocTemplate.Document.Draft
import DocTemplate.Proofs.FieldErasure
import DocTemplate.Proofs.HeaderAnchors
import DocTemplate.Proofs.TableMirroring

/-!
# Where problems are anchored

A node of a template keeps the runs of its opening field and, behind them, those of the stray fields
that were met in its body, in document order. Every problem of a node shows at one of these runs;
only the end of the body has none. Which run it is gets decided at different moments, before and
after runs of strays have been added, and a closing field may still add a style run, but not to a
node whose opening field has one.

The fields of a node are complete stretches of the body that the node is read from, from an opening
mark to the first closing mark behind it. For nodes in a cell this is the body of the cell.

## Main statements

- `Node.Traced`: the fields that the runs and the stray reports of a node come from
- `TreeProperty.anchors_kept`: reading keeps to it that every node has such fields
- `Body.parse_anchors`: the nodes of a template are anchored in its body, cells included
-/

namespace DocTemplate

/-! ## Nodes -/

/-- What a tag of a template belongs to. -/
inductive NodeKind where
  | template
  | text
  | query
  | image
  | diagram
  | loop
  /-- A condition of a conditional: the first one, or a further one. -/
  | condition
  /-- What `m:else` opens. -/
  | otherwise
  deriving DecidableEq, Repr

namespace NodeKind

/-- The keywords that open such a node. -/
def keywords : NodeKind → List Keyword
  | template | text => []
  | query => [.query]
  | image => [.image]
  | diagram => [.diagram]
  | loop => [.forEach]
  | condition => [.ifThen, .elseIf]
  | otherwise => [.otherwise]

/-- The node takes over the formatting of a run of its opening field. -/
def isStyled : NodeKind → Bool
  | image | diagram | loop | condition | otherwise => true
  | template | text | query => false

/-- What is open with a frame, or without one. -/
def ofFrame : Option Frame → NodeKind
  | none => template
  | some .loop => loop
  | some .branch => condition
  | some .otherwise => otherwise

end NodeKind

/-- A tag of a template, with what it belongs to. -/
structure Node where
  kind : NodeKind
  tag : Tag

namespace Construct

mutual

/-- The nodes of a construct outside the cells of tables. -/
def nodes : Construct → List Node
  | .text tag => [⟨.text, tag⟩]
  | .query tag _ _ => [⟨.query, tag⟩]
  | .image tag _ => [⟨.image, tag⟩]
  | .diagram tag _ _ _ => [⟨.diagram, tag⟩]
  | .loop tag _ _ body => ⟨.loop, tag⟩ :: nodesOfBody body
  | .conditional first links otherwise =>
    nodesOfBranch first ++ nodesOfBranches links ++ nodesOfElse otherwise
  | .table .. => []

def nodesOfBody : List Construct → List Node
  | [] => []
  | c :: cs => nodes c ++ nodesOfBody cs

def nodesOfBranch : Branch Construct → List Node
  | ⟨tag, _, body⟩ => ⟨.condition, tag⟩ :: nodesOfBody body

def nodesOfBranches : List (Branch Construct) → List Node
  | [] => []
  | b :: bs => nodesOfBranch b ++ nodesOfBranches bs

def nodesOfElse : Option (Section Construct) → List Node
  | none => []
  | some ⟨tag, body⟩ => ⟨.otherwise, tag⟩ :: nodesOfBody body

end

theorem forall_mem_nodesOfBody {P : Node → Prop} {cs : List Construct} :
    (∀ n ∈ nodesOfBody cs, P n) ↔ ∀ c ∈ cs, ∀ n ∈ c.nodes, P n := by
  induction cs with
  | nil => simp [nodesOfBody]
  | cons c cs ih => rw [nodesOfBody, List.forall_mem_append, ih, List.forall_mem_cons]

theorem forall_mem_nodesOfBranch {P : Node → Prop} {b : Branch Construct} :
    (∀ n ∈ nodesOfBranch b, P n) ↔ P ⟨.condition, b.tag⟩ ∧ ∀ c ∈ b.body, ∀ n ∈ c.nodes, P n := by
  obtain ⟨tag, condition, body⟩ := b
  rw [nodesOfBranch, List.forall_mem_cons, forall_mem_nodesOfBody]

theorem forall_mem_nodesOfElse {P : Node → Prop} {otherwise : Option (Section Construct)} :
    (∀ n ∈ nodesOfElse otherwise, P n) ↔
      ∀ sec ∈ otherwise, P ⟨.otherwise, sec.tag⟩ ∧ ∀ c ∈ sec.body, ∀ n ∈ c.nodes, P n := by
  cases otherwise with
  | none => simp [nodesOfElse]
  | some sec =>
    obtain ⟨tag, body⟩ := sec
    rw [nodesOfElse, List.forall_mem_cons, forall_mem_nodesOfBody]
    simp

/-- The nodes of a conditional are those of its branches and of what `m:else` opens. -/
theorem forall_mem_nodes_ofBranches {P : Node → Prop} {last : Branch Construct}
    {earlier : List (Branch Construct)} {otherwise : Option (Section Construct)} :
    (∀ n ∈ (ofBranches last earlier otherwise).nodes, P n) ↔
      (∀ b ∈ earlier, ∀ n ∈ nodesOfBranch b, P n) ∧ (∀ n ∈ nodesOfBranch last, P n) ∧
        ∀ n ∈ nodesOfElse otherwise, P n := by
  have hlinks : ∀ bs : List (Branch Construct),
      (∀ n ∈ nodesOfBranches bs, P n) ↔ ∀ b ∈ bs, ∀ n ∈ nodesOfBranch b, P n := by
    intro bs
    induction bs with
    | nil => simp [nodesOfBranches]
    | cons b bs ih => rw [nodesOfBranches, List.forall_mem_append, ih, List.forall_mem_cons]
  have hearlier : (∀ b ∈ earlier, ∀ n ∈ nodesOfBranch b, P n) ↔
      ∀ b ∈ earlier.reverse, ∀ n ∈ nodesOfBranch b, P n := by
    simp only [List.mem_reverse]
  rw [hearlier]
  unfold ofBranches
  cases earlier.reverse with
  | nil =>
    simp only [nodes, List.forall_mem_append, hlinks, List.not_mem_nil, IsEmpty.forall_iff,
      implies_true, true_and, and_true]
  | cons first links =>
    simp only [nodes, List.forall_mem_append, hlinks, List.forall_mem_cons, List.not_mem_nil,
      IsEmpty.forall_iff, implies_true, and_true, and_assoc]

end Construct

/-- The nodes of a template outside the cells of tables, from front to back. -/
def Template.nodes (t : Template) : List Node := ⟨.template, t.tag⟩ :: Construct.nodesOfBody t.body

/-! ## Fields among positions -/

/-- The fields stand among the positions as complete stretches, one behind the other: each from an
opening mark to the first closing mark behind it. -/
inductive FieldsIn : List Field → List Position → Prop where
  | nil (ps : List Position) : FieldsIn [] ps
  | skip {fs : List Field} {ps : List Position} (p : Position) (h : FieldsIn fs ps) :
      FieldsIn fs (p :: ps)
  | field {f : Field} {fs : List Field} {ps : List Position} (hopening : f.opening.isOpening = true)
      (hinner : ∀ r ∈ f.inner, r.isClosing = false) (hclosing : f.closing.isClosing = true)
      (h : FieldsIn fs ps) :
      FieldsIn (f :: fs) (.run f.opening :: (f.inner.map Position.run ++ .run f.closing :: ps))

/-- The tags among tokens, in order; those in cells are left out. -/
def Token.tagsOf (ts : List Token) : List (Keyword × Field) :=
  ts.filterMap fun
    | .tag k f => some (k, f)
    | .text _ | .table .. => none

theorem FieldsIn.skipAll {fs : List Field} {ps : List Position} (qs : List Position)
    (h : FieldsIn fs ps) : FieldsIn fs (qs ++ ps) := by
  induction qs with
  | nil => exact h
  | cons q qs ih => exact .skip q ih

/-- Some of the tags among the tokens of positions, in order, are fields among the positions. -/
theorem fieldsIn_of_sublist {ps : List Position} {gs : List (Keyword × Field)}
    (h : gs.Sublist (Token.tagsOf (linear ps))) : FieldsIn (gs.map Prod.snd) ps := by
  induction ps using linear_induction generalizing gs with
  | nil =>
    rw [linear_nil] at h
    rw [List.sublist_nil.mp h]
    exact .nil []
  | table id rows ps ih =>
    rw [linear_table] at h
    exact .skip _ (ih h)
  | tag ps f rest k hf hk ih =>
    obtain ⟨rfl, hopening, hinner, hclosing⟩ := readField_eq_ok hf
    rw [linear_tag hf hk] at h
    rcases List.sublist_cons_iff.mp h with hrest | ⟨gs, rfl, hrest⟩
    · -- The field is none of those looked for.
      exact .skip _ (((ih hrest).skip (.run f.closing)).skipAll _)
    · exact .field hopening hinner hclosing (ih hrest)
  | text r ps htext ih =>
    rw [linear_text htext] at h
    exact .skip _ (ih h)

/-! ## Anchored nodes -/

/-- Every problem shows at a run of the tag, apart from the end of the body, which has no run. -/
def Tag.Anchored (t : Tag) : Prop :=
  ∀ p ∈ t.problems, (p.run = none ↔ p.cause = .unexpected .endOfBody) ∧ ∀ r ∈ p.run, r ∈ t.runs

/-- A node whose runs and stray reports come from fields of the body: its opening field, which a
template does not have, and the strays that it has swallowed, each reported at its opening run. -/
structure Node.AnchoredIn (n : Node) (ps : List Position) : Prop where
  problems : n.tag.Anchored
  fields : n.kind ≠ .text → ∃ (opening : Option Field) (strays : List Field),
    (opening = none ↔ n.kind = .template) ∧
    FieldsIn (opening.toList ++ strays) ps ∧
    n.tag.runs = (opening.toList ++ strays).flatMap Field.runs ∧
    n.tag.problems.filterMap Problem.strayRun? = strays.map (fun f => f.opening.id) ∧
    (n.kind.isStyled = true → ∃ r, n.tag.styleRun = some r ∧ ∃ f ∈ opening, r ∈ f.runs)

/-- The fields that a node has come from, among the tokens read so far. -/
structure Node.Traced (n : Node) (ts : List Token) (opening : Option (Keyword × Field))
    (strays : List (Keyword × Field)) : Prop where
  none_iff : opening = none ↔ n.kind = .template
  keyword : ∀ o ∈ opening, o.1 ∈ n.kind.keywords
  fields : (opening.toList ++ strays).Sublist (Token.tagsOf ts)
  runs : n.tag.runs = (opening.toList ++ strays).flatMap (fun g => g.2.runs)
  reports : n.tag.problems.filterMap Problem.strayRun? = strays.map (fun g => g.2.opening.id)
  style : ∀ o ∈ opening, ∀ r, styleRun? o.2.inner = some r → n.tag.styleRun = some r

/-- A node as the reading has made it so far. -/
structure Node.Sound (ts : List Token) (n : Node) : Prop where
  problems : n.tag.Anchored
  traced : n.kind ≠ .text → ∃ opening strays, n.Traced ts opening strays

theorem Token.tagsOf_tag (ts : List Token) (k : Keyword) (f : Field) :
    tagsOf (ts ++ [.tag k f]) = tagsOf ts ++ [(k, f)] := by
  simp [tagsOf, List.filterMap_append]

theorem Token.mem_of_mem_tagsOf {ts : List Token} {k : Keyword} {f : Field}
    (h : (k, f) ∈ tagsOf ts) : Token.tag k f ∈ ts := by
  obtain ⟨t, ht, heq⟩ := List.mem_filterMap.mp h
  cases t with
  | tag k' f' =>
    cases heq
    exact ht
  | text r => cases heq
  | table id rows => cases heq

namespace Node

variable {ts : List Token} {kind : NodeKind} {t : Tag} {k : Keyword} {f : Field}

theorem Sound.mono {n : Node} (h : n.Sound ts) (u : Token) : n.Sound (ts ++ [u]) where
  problems := h.problems
  traced hkind := by
    obtain ⟨opening, strays, htraced⟩ := h.traced hkind
    refine ⟨opening, strays, { htraced with fields := ?_ }⟩
    rw [Token.tagsOf, List.filterMap_append]
    exact htraced.fields.trans (List.sublist_append_left _ _)

/-- A node that has just been opened. -/
theorem Sound.ofHeader (ts : List Token) (htag : t.Describes f) (hshows : t.ShowsIn f)
    (hk : k ∈ kind.keywords) : Sound (ts ++ [.tag k f]) ⟨kind, t⟩ where
  problems := by
    intro p hp
    obtain ⟨r, hr, hrun⟩ := hshows.problems p hp
    -- It has a run, and it is not about the end of the body, since that is not found in a field.
    refine ⟨⟨fun hnone => ?_, fun hcause => ?_⟩, ?_⟩
    · rw [hrun] at hnone
      cases hnone
    · have hlocal := htag.problems p hp
      rw [Problem.isStructural, hcause] at hlocal
      cases hlocal
    · intro r' hr'
      rw [hrun] at hr'
      cases hr'
      rw [hshows.runs]
      exact hr
  traced _ := by
    refine ⟨some (k, f), [], ?_⟩
    constructor
    · constructor
      · intro hnone
        cases hnone
      · rintro rfl
        cases hk
    · rintro _ ⟨⟩
      exact hk
    · rw [Token.tagsOf_tag]
      exact List.sublist_append_right _ _
    · simpa using hshows.runs
    · exact List.filterMap_eq_nil_iff.mpr fun p hp =>
        p.strayRun?_of_not_structural (htag.problems p hp)
    · rintro _ ⟨⟩ r hr
      rw [htag.styleRun, hr]

/-- A stray is the last field of the node that swallows it. -/
theorem Sound.swallow (h : Sound ts ⟨kind, t⟩) (k : Keyword) (f : Field) :
    Sound (ts ++ [.tag k f]) ⟨kind, t.swallow k f⟩ where
  problems := by
    intro p hp
    rcases List.mem_append.mp hp with hp | hp
    · obtain ⟨hnone, hruns⟩ := h.problems p hp
      exact ⟨hnone, fun r hr => List.mem_append_left _ (hruns r hr)⟩
    · rw [List.mem_singleton.mp hp]
      refine ⟨by simp, ?_⟩
      rintro _ ⟨⟩
      exact List.mem_append_right _ f.opening_mem_runs
  traced hkind := by
    obtain ⟨opening, strays, htraced⟩ := h.traced hkind
    refine ⟨opening, strays ++ [(k, f)], ?_⟩
    constructor
    · exact htraced.none_iff
    · exact htraced.keyword
    · rw [← List.append_assoc, Token.tagsOf_tag]
      exact htraced.fields.append (List.Sublist.refl _)
    · have hruns : t.runs = _ := htraced.runs
      simp [Tag.swallow, Tag.absorb, Tag.report, hruns]
    · have hreports : t.problems.filterMap Problem.strayRun? = _ := htraced.reports
      simp [Tag.swallow, Tag.absorb, Tag.report, hreports, Problem.strayRun?]
    · -- A stray offers its own style run, which counts only where there is none yet.
      intro o ho r hr
      have hstyle : t.styleRun = some r := htraced.style o ho r hr
      simp [Tag.swallow, Tag.absorb, Tag.report, hstyle]

/-- Where a tag has the same runs and stray reports, and the same style run if it had one, its node
comes from the same fields. -/
theorem Traced.congr {t' : Tag} {opening : Option (Keyword × Field)}
    {strays : List (Keyword × Field)} (h : Traced ⟨kind, t⟩ ts opening strays)
    (hruns : t'.runs = t.runs)
    (hreports : t'.problems.filterMap Problem.strayRun? = t.problems.filterMap Problem.strayRun?)
    (hstyle : ∀ r, t.styleRun = some r → t'.styleRun = some r) :
    Traced ⟨kind, t'⟩ ts opening strays where
  none_iff := h.none_iff
  keyword := h.keyword
  fields := h.fields
  runs := hruns.trans h.runs
  reports := hreports.trans h.reports
  style o ho r hr := hstyle r (h.style o ho r hr)

/-- A closing field leaves alone what the node has from its opening field and its strays. -/
theorem Sound.closing (h : Sound ts ⟨kind, t⟩) (f : Field) :
    Sound ts ⟨kind, t.absorb .closing f⟩ where
  problems := h.problems
  traced hkind := by
    obtain ⟨opening, strays, htraced⟩ := h.traced hkind
    refine ⟨opening, strays, htraced.congr rfl rfl ?_⟩
    -- A closing field does not replace a style run.
    intro r hr
    simp [Tag.absorb, hr]

theorem Sound.endOfBody (h : Sound ts ⟨kind, t⟩) :
    Sound ts ⟨kind, t.report (.unexpected .endOfBody) none⟩ where
  problems := by
    intro p hp
    rcases List.mem_append.mp hp with hp | hp
    · exact h.problems p hp
    · rw [List.mem_singleton.mp hp]
      simp
  traced hkind := by
    obtain ⟨opening, strays, htraced⟩ := h.traced hkind
    refine ⟨opening, strays, htraced.congr rfl ?_ (fun r hr => hr)⟩
    simp [Tag.report, Problem.strayRun?]

/-- That a conditional is left open shows at the anchor of the condition, which has runs. -/
theorem Sound.leftOpen (h : Sound ts ⟨.condition, t⟩) :
    Sound ts ⟨.condition, t.report .conditionalLeftOpen t.anchor?⟩ where
  problems := by
    obtain ⟨opening, strays, htraced⟩ := h.traced NodeKind.noConfusion
    have hruns : t.runs ≠ [] := by
      have hsome : opening ≠ none := fun hnone => NodeKind.noConfusion (htraced.none_iff.mp hnone)
      obtain ⟨o, rfl⟩ := Option.ne_none_iff_exists'.mp hsome
      have hruns : t.runs = _ := htraced.runs
      simp [hruns, Field.runs]
    obtain ⟨r, hr, hanchor⟩ := Tag.exists_anchor hruns
    intro p hp
    rcases List.mem_append.mp hp with hp | hp
    · exact h.problems p hp
    · rw [List.mem_singleton.mp hp, hanchor]
      refine ⟨by simp, ?_⟩
      rintro _ ⟨⟩
      exact hr
  traced hkind := by
    obtain ⟨opening, strays, htraced⟩ := h.traced hkind
    refine ⟨opening, strays, htraced.congr rfl ?_ (fun r hr => hr)⟩
    simp [Tag.report, Problem.strayRun?]

/-- Among the tokens of a list of positions, the fields of a node are stretches of positions, and a
tag with a name has a style run. -/
theorem Sound.anchoredIn {n : Node} {ps : List Position} (h : n.Sound (linear ps)) :
    n.AnchoredIn ps where
  problems := h.problems
  fields hkind := by
    obtain ⟨opening, strays, htraced⟩ := h.traced hkind
    have hmap : (opening.map Prod.snd).toList ++ strays.map Prod.snd =
        (opening.toList ++ strays).map Prod.snd := by
      cases opening <;> simp
    refine ⟨opening.map Prod.snd, strays.map Prod.snd, ?_, ?_, ?_, ?_, ?_⟩
    · rw [Option.map_eq_none_iff, htraced.none_iff]
    · rw [hmap]
      exact fieldsIn_of_sublist htraced.fields
    · rw [hmap, List.flatMap_map, htraced.runs]
    · rw [htraced.reports, List.map_map]
      rfl
    · intro hstyled
      have hsome : opening ≠ none := by
        intro hnone
        rw [htraced.none_iff.mp hnone] at hstyled
        cases hstyled
      obtain ⟨⟨k, f⟩, rfl⟩ := Option.ne_none_iff_exists'.mp hsome
      -- A query may lack a style run; every other field holds the name that it is known by.
      have hk : k ∈ n.kind.keywords := htraced.keyword _ rfl
      have hnamed : k ≠ .query := by
        rintro rfl
        cases hkind : n.kind <;> simp [hkind, NodeKind.keywords, NodeKind.isStyled] at hk hstyled
      have hmem : Token.tag k f ∈ linear ps :=
        Token.mem_of_mem_tagsOf (htraced.fields.subset List.mem_cons_self)
      obtain ⟨r, hr⟩ := Option.isSome_iff_exists.mp
        (styleRun?_isSome (match?_of_mem_linear hmem) hnamed)
      exact ⟨r, htraced.style _ rfl r hr, f, rfl, Field.styleRun_mem_runs hr⟩

end Node

/-! ## Reading -/

/-- What is asked of the nodes of a tree. -/
def TreeProperty.anchors : TreeProperty where
  openTag ts frame tag := Node.Sound ts ⟨.ofFrame frame, tag⟩
  construct ts c := ∀ n ∈ c.nodes, n.Sound ts
  cutOff ts c := ∀ n ∈ c.nodes, n.Sound ts

section Steps

variable {ts : List Token} {l : Level}

theorem single?_sound {s : Setting} {f : Field} {k : Keyword} {c : Construct} (ts : List Token)
    (h : single? s f k = some c) : ∀ n ∈ c.nodes, n.Sound (ts ++ [.tag k f]) := by
  obtain ⟨tag, htag, hshows, hc⟩ := single?_showsIn h
  rcases hc with ⟨rfl, _, _, rfl⟩ | ⟨rfl, _, rfl⟩ | ⟨rfl, _, _, _, rfl⟩
  all_goals
    rw [Construct.nodes, List.forall_mem_singleton]
    exact .ofHeader ts htag hshows (by decide)

theorem header?_sound {s : Setting} {f : Field} {k : Keyword} {frame : Frame} {tag : Tag}
    (ts : List Token) (h : header? s f k = some (frame, tag)) :
    Node.Sound (ts ++ [.tag k f]) ⟨.ofFrame (some frame), tag⟩ := by
  refine .ofHeader ts (header?_describes h) (header?_showsIn h) ?_
  unfold header? at h
  split at h <;> cases h <;> decide

theorem TreeProperty.OfLevel.sound_branches (h : TreeProperty.anchors.OfLevel ts l) :
    ∀ b ∈ l.purpose.branches, ∀ n ∈ Construct.nodesOfBranch b, n.Sound ts := by
  intro b hb
  rw [Construct.forall_mem_nodesOfBranch]
  exact h.branches b hb

/-- The nodes of a level that its end tag closes. -/
theorem Level.sound_close (h : TreeProperty.anchors.OfLevel ts l)
    (hbody : ∀ c ∈ l.body, ∀ n ∈ c.nodes, n.Sound ts) (f : Field) :
    ∀ n ∈ (l.close f).nodes, n.Sound ts := by
  have htag := h.tag
  have hbranches := h.sound_branches
  have hbody : ∀ c ∈ l.body.reverse, ∀ n ∈ c.nodes, n.Sound ts :=
    fun c hc => hbody c (List.mem_reverse.mp hc)
  unfold Level.frame at htag
  unfold close
  cases hpurpose : l.purpose with
  | loop iterator source =>
    rw [hpurpose] at htag
    simp only [Construct.nodes, List.forall_mem_cons, Construct.forall_mem_nodesOfBody]
    exact ⟨Node.Sound.closing htag f, hbody⟩
  | branch earlier condition =>
    rw [hpurpose] at htag hbranches
    simp only [Purpose.branches, List.mem_reverse] at hbranches
    rw [Construct.forall_mem_nodes_ofBranches, Construct.forall_mem_nodesOfBranch]
    exact ⟨hbranches, ⟨Node.Sound.closing htag f, hbody⟩, by simp [Construct.nodesOfElse]⟩
  | otherwise earlier last =>
    -- The closing field is recorded at the last condition.
    rw [hpurpose] at htag hbranches
    simp only [Purpose.branches, List.forall_mem_append, List.mem_reverse,
      List.forall_mem_singleton, Construct.forall_mem_nodesOfBranch] at hbranches
    obtain ⟨hearlier, hlast, hlastBody⟩ := hbranches
    simp only [Construct.forall_mem_nodes_ofBranches, Construct.forall_mem_nodesOfBranch,
      Construct.forall_mem_nodesOfElse]
    refine ⟨hearlier, ⟨hlast.closing f, hlastBody⟩, ?_⟩
    rintro _ ⟨⟩
    exact ⟨htag, hbody⟩

/-- The nodes of a level that the end of the body cuts off. -/
theorem Level.sound_closeAtEnd (h : TreeProperty.anchors.OfLevel ts l)
    (hbody : ∀ c ∈ l.body.reverse, ∀ n ∈ c.nodes, n.Sound ts) :
    ∀ n ∈ l.closeAtEnd.nodes, n.Sound ts := by
  have htag := Node.Sound.endOfBody h.tag
  have hbranches := h.sound_branches
  unfold Level.frame at htag
  unfold closeAtEnd
  cases hpurpose : l.purpose with
  | loop iterator source =>
    rw [hpurpose] at htag
    simp only [Construct.nodes, List.forall_mem_cons, Construct.forall_mem_nodesOfBody]
    exact ⟨htag, hbody⟩
  | branch earlier condition =>
    rw [hpurpose] at htag hbranches
    simp only [Purpose.branches, List.mem_reverse] at hbranches
    rw [Construct.forall_mem_nodes_ofBranches, Construct.forall_mem_nodesOfBranch]
    exact ⟨hbranches, ⟨Node.Sound.leftOpen htag, hbody⟩, by simp [Construct.nodesOfElse]⟩
  | otherwise earlier last =>
    rw [hpurpose] at htag hbranches
    simp only [Purpose.branches, List.forall_mem_append, List.mem_reverse,
      List.forall_mem_singleton] at hbranches
    rw [Construct.forall_mem_nodes_ofBranches, Construct.forall_mem_nodesOfElse]
    refine ⟨hbranches.1, hbranches.2, ?_⟩
    rintro _ ⟨⟩
    exact ⟨htag, hbody⟩

theorem TreeProperty.OfBody.sound {cs : List Construct} (h : TreeProperty.anchors.OfBody ts cs) :
    ∀ c ∈ cs, ∀ n ∈ c.nodes, n.Sound ts := by
  obtain ⟨before, last, rfl, hbefore, hlast⟩ := h
  intro c hc
  rcases List.mem_append.mp hc with hc | hc
  · exact hbefore c hc
  · exact hlast c (Option.mem_toList.mp hc)

/-- The tag of a template has no opening field, and nothing is wrong with it at first. -/
theorem Node.sound_fresh : Node.Sound [] ⟨.template, {}⟩ where
  problems := by simp [Tag.Anchored]
  traced _ := ⟨none, [], by simp, by simp, List.nil_sublist _, rfl, rfl, by simp⟩

/-- **Reading keeps to it that every node comes from fields of the body.** -/
theorem TreeProperty.anchors_kept (s : Setting) : TreeProperty.anchors.Kept s where
  openTag_mono u h := Node.Sound.mono h u
  construct_mono u h n hn := (h n hn).mono u
  fresh := Node.sound_fresh
  text ts runs := by
    show ∀ n ∈ (Construct.text { runs := runs }).nodes, n.Sound ts
    rw [Construct.nodes, List.forall_mem_singleton]
    exact ⟨by simp [Tag.Anchored], fun hkind => absurd rfl hkind⟩
  single ts h := single?_sound ts h
  table ts id h := by simp [anchors, Construct.nodes]
  header ts h := header?_sound ts h
  swallow k f h := Node.Sound.swallow h k f
  close k f h hbody n hn := (Level.sound_close h hbody f n hn).mono _
  closeAtEnd h hbody := Level.sound_closeAtEnd h hbody.sound

end Steps

/-! ## Bodies -/

/-- The nodes of a template are anchored in its body, and those of each cell in the body of that
cell. -/
inductive Body.Anchors : Body → Template → Prop where
  | intro {b : Body} {t : Template} (hnodes : ∀ n ∈ t.nodes, n.AnchoredIn b.positions)
      (hcells : List.Forall₂ (Grid.Mirrors Body.Anchors) b.tables t.tables) : Body.Anchors b t

theorem Template.anchoredIn {s : Setting} {b : Body} {t : Template}
    (h : (b.parse s).result = .ok t) : ∀ n ∈ t.nodes, n.AnchoredIn b.positions := by
  rw [b.result_parse s] at h
  obtain ⟨htag, hbody⟩ := (TreeProperty.anchors_kept s).ofTokens h
  have hsound : ∀ n ∈ t.nodes, n.Sound b.linearTokens := by
    rw [Template.nodes, List.forall_mem_cons, Construct.forall_mem_nodesOfBody]
    exact ⟨htag, hbody.sound⟩
  intro n hn
  rw [b.positions_eq_linearPositions]
  exact (hsound n hn).anchoredIn

namespace Body

/-- **Every problem is anchored in the node that holds it.** At each tag of a template, only the end
of the body is reported without a run, and every other problem at a run of the tag. The runs are
those of the opening field of the node, which the template itself does not have, and of the strays
that the node has swallowed; these are fields of the body, in document order, and each of them is
reported at its opening run. Everything but plain text and queries takes its style from a run of its
opening field. -/
theorem parse_anchors (s : Setting) (b : Body) {t : Template} (h : (b.parse s).result = .ok t) :
    b.Anchors t := by
  induction b using cellInduction generalizing t with
  | h b cells =>
    -- A cell is parsed like a body, and its nodes come from fields of that body.
    refine .intro (Template.anchoredIn h) (mirrors_of_cells h ?_)
    intro id rows hmem row hrow cell hcell u hu
    exact cells id rows hmem row hrow cell hcell hu

/-- A stray before a repetition, one in its body, and one in a cell of the table there. -/
def straysAround : Body :=
  Draft.build
    [.paragraph [.field ["m:endif"], .field ["m:for x"], .field ["m:else"]],
      .table [[[.paragraph [.field ["m:endfor"], .field ["m:image"]]]]],
      .paragraph [.field ["m:endfor"]]]

/-- The template and the repetition have swallowed one stray each, and the third one is left to the
cell. -/
theorem parse_anchors_straysAround :
    ∃ t, (straysAround.parse { compile := .fixed [] }).result = .ok t ∧
      t.nodes.map (fun n => n.tag.runs) = [[0, 1, 2], [3, 4, 5, 6, 7, 8]] ∧
      t.nodes.map (fun n => n.tag.problems.map Problem.run) = [[some 0], [some 4, some 6]] ∧
      straysAround.Anchors t := by
  have hok : (straysAround.parse { compile := .fixed [] }).result.toOption.map
      (fun t => (t.nodes.map (fun n => n.tag.runs),
        t.nodes.map (fun n => n.tag.problems.map Problem.run))) =
      some ([[0, 1, 2], [3, 4, 5, 6, 7, 8]], [[some 0], [some 4, some 6]]) := by decide +kernel
  obtain ⟨t, ht, hnodes⟩ := exists_of_toOption_map hok
  obtain ⟨hruns, hproblems⟩ := Prod.mk.inj hnodes
  exact ⟨t, ht, hruns, hproblems, parse_anchors { compile := .fixed [] } straysAround ht⟩

end Body

end DocTemplate
