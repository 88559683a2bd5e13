import DocTemplate.Proofs.Strays
import DocTemplate.Proofs.SurveyOrder

/-!
# Parts that report in order

Problems are collected in pre-order, so what is reported at a part comes before all that is reported
in what it holds. The places where problems show follow that order as far as they can: the problems
of a part's own field show before everything else in it, and what is reported in one of the things
that it holds shows before what is reported in a later one. Only stray tags show anywhere inside the
part that has swallowed them.

## Main statements

- `Contents.InOrder`: what is asked of a single part
- `Part.AllInOrder.pairwise_problems`: how the collected problems follow one another
- `Contents.AllInOrder.withOwn`, `concatPart`, `concatStray`: the ways in which contents grow
- `Contents.Row.gathered`: contents that stand in a row can be put together to one part
-/

namespace DocTemplate

/-- The problem is a report of a stray tag, or it does not show behind the other one. -/
def Problem.NotBehind (p q : Problem) : Prop :=
  p.isStrayReport = true ∨ ∀ r ∈ p.run, ∀ r' ∈ q.run, r ≤ r'

/-- The runs at which the problems of a part show, those of what it holds included. -/
def Part.anchors (x : Part) : List RunId := x.problems.filterMap Problem.run

/-- What is reported at a part itself, and what the part directly holds. -/
structure Contents where
  own : List Problem
  parts : List Part

/-- The contents of a part. -/
def Part.contents (x : Part) : Contents := ⟨x.ownProblems, x.parts⟩

namespace Contents

/-- The runs at which problems show, those of all that is held included. -/
def anchors (c : Contents) : List RunId :=
  c.own.filterMap Problem.run ++ c.parts.flatMap Part.anchors

/-- All that is reported in one shows before all that is reported in the other. -/
def Precedes (c d : Contents) : Prop := ∀ r ∈ c.anchors, ∀ r' ∈ d.anchors, r < r'

/-- What is reported stands in order. -/
structure InOrder (c : Contents) : Prop where
  /-- Of two stray tags the first one is reported first. -/
  strays : (c.own.filterMap Problem.strayRun?).Pairwise (· < ·)
  /-- Nothing shows before the problems of the part's own field. -/
  own : ∀ p ∈ c.own, p.isStrayReport = false → ∀ r ∈ p.run, ∀ r' ∈ c.anchors, r ≤ r'
  /-- What is held stands in order. -/
  parts : c.parts.Pairwise fun x y => x.contents.Precedes y.contents

end Contents

/-- A part and everything in it stands in order. -/
def Part.AllInOrder (x : Part) : Prop := ∀ y ∈ Part.hierarchy.all x, y.contents.InOrder

/-- The contents stand in order, and so does everything that is held. -/
structure Contents.AllInOrder (c : Contents) : Prop where
  inOrder : c.InOrder
  parts : ∀ x ∈ c.parts, x.AllInOrder

/-! ## Collected problems -/

theorem Part.anchors_contents (x : Part) : x.contents.anchors = x.anchors := by
  rw [anchors, problems_eq, List.filterMap_append, List.filterMap_flatMap]
  rfl

theorem Part.allInOrder_iff {x : Part} : x.AllInOrder ↔ x.contents.AllInOrder := by
  have hall : Part.hierarchy.all x = x :: x.parts.flatMap Part.hierarchy.all :=
    Part.hierarchy.all_eq x
  rw [AllInOrder, hall, List.forall_mem_cons, List.forall_mem_flatMap]
  constructor
  · rintro ⟨hown, hparts⟩
    exact ⟨hown, hparts⟩
  · rintro ⟨hown, hparts⟩
    exact ⟨hown, hparts⟩

/-- **Collected problems do not go back,** except behind the report of a stray tag. -/
theorem Part.AllInOrder.pairwise_problems {x : Part} (h : x.AllInOrder) :
    x.problems.Pairwise Problem.NotBehind := by
  induction x using Part.hierarchy.wf.induction with
  | _ x ih =>
    obtain ⟨hown, hparts⟩ := Part.allInOrder_iff.mp h
    have hbefore : ∀ p ∈ x.ownProblems, ∀ q ∈ x.problems, p.NotBehind q := by
      intro p hp q hq
      cases hstray : p.isStrayReport with
      | true => exact .inl hstray
      | false =>
        refine .inr fun r hr r' hr' => hown.own p hp hstray r hr r' ?_
        rw [x.anchors_contents]
        exact List.mem_filterMap.mpr ⟨q, hq, hr'⟩
    rw [x.problems_eq] at hbefore ⊢
    rw [List.pairwise_append, List.pairwise_flatMap]
    refine ⟨?_, ⟨fun y hy => ih y hy (hparts y hy), ?_⟩, ?_⟩
    · apply List.pairwise_of_forall_mem_list
      intro p hp q hq
      exact hbefore p hp q (List.mem_append_left _ hq)
    · apply hown.parts.imp
      intro y z hprecedes p hp q hq
      refine .inr fun r hr r' hr' => Nat.le_of_lt (hprecedes r ?_ r' ?_)
      · rw [y.anchors_contents]
        exact List.mem_filterMap.mpr ⟨p, hp, hr⟩
      · rw [z.anchors_contents]
        exact List.mem_filterMap.mpr ⟨q, hq, hr'⟩
    · intro p hp q hq
      exact hbefore p hp q (List.mem_append_right _ hq)

/-- Without the reports of stray tags, the runs never go back. -/
theorem Problem.sorted_runs {ps : List Problem} (h : ps.Pairwise Problem.NotBehind) :
    ((ps.filter (fun p => !p.isStrayReport)).filterMap Problem.run).Pairwise (· ≤ ·) := by
  rw [List.pairwise_filterMap, List.pairwise_filter]
  apply h.imp
  rintro p q (hstray | hle) hp -
  · simp [hstray] at hp
  · intro r hr r' hr'
    exact hle r hr r' hr'

/-! ## Growing contents -/

namespace Contents

variable {c : Contents} {own : List Problem} {parts : List Part}

theorem mem_anchors {r : RunId} :
    r ∈ c.anchors ↔ (∃ p ∈ c.own, p.run = some r) ∨ ∃ x ∈ c.parts, r ∈ x.anchors := by
  rw [anchors, List.mem_append, List.mem_filterMap, List.mem_flatMap]

/-- Nothing is out of order where nothing is held and everything shows at one run. -/
theorem allInOrder_leaf {r : RunId} (hlocal : ∀ p ∈ own, p.strayRun? = none)
    (hrun : ∀ p ∈ own, p.run = some r) : AllInOrder ⟨own, []⟩ where
  inOrder := by
    constructor
    · rw [List.filterMap_eq_nil_iff.mpr hlocal]
      exact .nil
    · intro p hp _ r₁ hr₁ r₂ hr₂
      rcases mem_anchors.mp hr₂ with ⟨q, hq, hr₂⟩ | ⟨x, hx, -⟩
      · rw [hrun p hp] at hr₁
        rw [hrun q hq] at hr₂
        cases hr₁
        cases hr₂
        exact Nat.le_refl _
      · cases hx
    · exact .nil
  parts := by simp

theorem allInOrder_nil : AllInOrder ⟨[], []⟩ :=
  allInOrder_leaf (r := 0) (by simp) (by simp)

/-- Other problems may be reported instead, if strays keep their order and no run is new. -/
theorem AllInOrder.withOwn (h : AllInOrder ⟨own, parts⟩) {own' : List Problem}
    (hstrays : (own'.filterMap Problem.strayRun?).Sublist (own.filterMap Problem.strayRun?))
    (hruns : ∀ p ∈ own', p.run ≠ none → p ∈ own) :
    AllInOrder ⟨own', parts⟩ ∧ ∀ r ∈ anchors ⟨own', parts⟩, r ∈ anchors ⟨own, parts⟩ := by
  have hmem : ∀ p ∈ own', ∀ r ∈ p.run, p ∈ own := by
    intro p hp r hr
    exact hruns p hp (Option.ne_none_iff_exists'.mpr ⟨r, hr⟩)
  have hanchors : ∀ r ∈ anchors ⟨own', parts⟩, r ∈ anchors ⟨own, parts⟩ := by
    intro r hr
    rcases mem_anchors.mp hr with ⟨p, hp, hr⟩ | hheld
    · exact mem_anchors.mpr (.inl ⟨p, hmem p hp r hr, hr⟩)
    · exact mem_anchors.mpr (.inr hheld)
  refine ⟨⟨⟨?_, ?_, h.inOrder.parts⟩, h.parts⟩, hanchors⟩
  · exact h.inOrder.strays.sublist hstrays
  · intro p hp hlocal r hr r' hr'
    exact h.inOrder.own p (hmem p hp r hr) hlocal r hr r' (hanchors r' hr')

/-- A further part may come behind all that is there. -/
theorem AllInOrder.concatPart (h : AllInOrder ⟨own, parts⟩) {x : Part} (hx : x.AllInOrder)
    (hbehind : ∀ r ∈ anchors ⟨own, parts⟩, ∀ r' ∈ x.anchors, r < r') :
    AllInOrder ⟨own, parts ++ [x]⟩ where
  inOrder := by
    constructor
    · exact h.inOrder.strays
    · intro p hp hlocal r hr r' hr'
      rcases mem_anchors.mp hr' with hown | ⟨y, hy, hr'⟩
      · exact h.inOrder.own p hp hlocal r hr r' (mem_anchors.mpr (.inl hown))
      · rcases List.mem_append.mp hy with hy | hy
        · exact h.inOrder.own p hp hlocal r hr r' (mem_anchors.mpr (.inr ⟨y, hy, hr'⟩))
        · rw [List.mem_singleton.mp hy] at hr'
          exact Nat.le_of_lt (hbehind r (mem_anchors.mpr (.inl ⟨p, hp, hr⟩)) r' hr')
    · apply List.pairwise_append.mpr
      refine ⟨h.inOrder.parts, List.pairwise_singleton _ _, ?_⟩
      intro y hy z hz r hr r' hr'
      rw [List.mem_singleton.mp hz, x.anchors_contents] at hr'
      rw [y.anchors_contents] at hr
      exact hbehind r (mem_anchors.mpr (.inr ⟨y, hy, hr⟩)) r' hr'
  parts := by
    rw [List.forall_mem_append, List.forall_mem_singleton]
    exact ⟨h.parts, hx⟩

/-- A stray tag may be met behind all that is there. -/
theorem AllInOrder.concatStray (h : AllInOrder ⟨own, parts⟩) {s : Keyword × Field}
    (hbehind : ∀ r ∈ anchors ⟨own, parts⟩, r < s.2.opening.id) :
    AllInOrder ⟨own ++ [Problem.ofStray s], parts⟩ where
  inOrder := by
    constructor
    · rw [List.filterMap_append, List.pairwise_append]
      refine ⟨h.inOrder.strays, List.pairwise_singleton _ _, ?_⟩
      intro r hr r' hr'
      obtain ⟨p, hp, hr⟩ := List.mem_filterMap.mp hr
      obtain rfl := List.mem_singleton.mp hr'
      have hrun : p.run = some r := by
        unfold Problem.strayRun? at hr
        split at hr
        · exact hr
        · cases hr
      exact hbehind r (mem_anchors.mpr (.inl ⟨p, hp, hrun⟩))
    · intro p hp hlocal r hr r' hr'
      rcases List.mem_append.mp hp with hp | hp
      · rcases mem_anchors.mp hr' with ⟨q, hq, hr'⟩ | hheld
        · rcases List.mem_append.mp hq with hq | hq
          · exact h.inOrder.own p hp hlocal r hr r' (mem_anchors.mpr (.inl ⟨q, hq, hr'⟩))
          · rw [List.mem_singleton.mp hq] at hr'
            cases hr'
            exact Nat.le_of_lt (hbehind r (mem_anchors.mpr (.inl ⟨p, hp, hr⟩)))
        · exact h.inOrder.own p hp hlocal r hr r' (mem_anchors.mpr (.inr hheld))
      · rw [List.mem_singleton.mp hp] at hlocal
        cases hlocal
    · exact h.inOrder.parts
  parts := h.parts

/-- Contents that stand in a row, one behind the other, and of which the runs are known. -/
structure Row (seen : List RunId) (cs : List Contents) : Prop where
  each : ∀ c ∈ cs, c.AllInOrder
  apart : cs.Pairwise Precedes
  within : ∀ c ∈ cs, ∀ r ∈ c.anchors, r ∈ seen

section Rows

variable {seen new : List RunId} {cs outer ds : List Contents}

theorem Row.left (h : Row seen (cs ++ ds)) : Row seen cs where
  each := (List.forall_mem_append.mp h.each).1
  apart := (List.pairwise_append.mp h.apart).1
  within := (List.forall_mem_append.mp h.within).1

theorem Row.right (h : Row seen (cs ++ ds)) : Row seen ds where
  each := (List.forall_mem_append.mp h.each).2
  apart := (List.pairwise_append.mp h.apart).2.1
  within := (List.forall_mem_append.mp h.within).2

theorem Row.singleton (hc : c.AllInOrder) (hwithin : ∀ r ∈ c.anchors, r ∈ seen) : Row seen [c] where
  each := List.forall_mem_singleton.mpr hc
  apart := List.pairwise_singleton _ _
  within := List.forall_mem_singleton.mpr hwithin

/-- Problems that all show at one run, with nothing held. -/
theorem Row.leaf {r : RunId} (hlocal : ∀ p ∈ own, p.strayRun? = none)
    (hrun : ∀ p ∈ own, p.run = some r) (hr : r ∈ seen) : Row seen [⟨own, []⟩] := by
  apply Row.singleton (allInOrder_leaf hlocal hrun)
  intro r' hr'
  rcases mem_anchors.mp hr' with ⟨p, hp, hr'⟩ | ⟨x, hx, -⟩
  · rw [hrun p hp] at hr'
    cases hr'
    exact hr
  · cases hx

theorem Row.nothing : Row seen [⟨[], []⟩] := .singleton allInOrder_nil (by simp [anchors])

theorem Row.mono (h : Row seen cs) (hseen : ∀ r ∈ seen, r ∈ new) : Row new cs where
  each := h.each
  apart := h.apart
  within c hc r hr := hseen r (h.within c hc r hr)

/-- A row with later runs may follow. -/
theorem Row.append (h : Row seen cs) (h' : Row new ds) (hlater : ∀ r ∈ seen, ∀ r' ∈ new, r < r') :
    Row (seen ++ new) (cs ++ ds) where
  each := List.forall_mem_append.mpr ⟨h.each, h'.each⟩
  apart := by
    apply List.pairwise_append.mpr
    refine ⟨h.apart, h'.apart, ?_⟩
    intro c hc d hd r hr r' hr'
    exact hlater r (h.within c hc r hr) r' (h'.within d hd r' hr')
  within := by
    rw [List.forall_mem_append]
    constructor
    · intro c hc r hr
      exact List.mem_append_left _ (h.within c hc r hr)
    · intro d hd r hr
      exact List.mem_append_right _ (h'.within d hd r hr)

/-- Other contents may take the place of the last ones, if they show at no other runs. -/
theorem Row.folded (h : Row seen (outer ++ ds)) (hc : c.AllInOrder)
    (hanchors : ∀ r ∈ c.anchors, ∃ d ∈ ds, r ∈ d.anchors) : Row seen (outer ++ [c]) where
  each := List.forall_mem_append.mpr ⟨h.left.each, List.forall_mem_singleton.mpr hc⟩
  apart := by
    apply List.pairwise_append.mpr
    refine ⟨h.left.apart, List.pairwise_singleton _ _, ?_⟩
    intro o ho c' hc' r hr r' hr'
    rw [List.mem_singleton.mp hc'] at hr'
    obtain ⟨d, hd, hr'⟩ := hanchors r' hr'
    exact (List.pairwise_append.mp h.apart).2.2 o ho d hd r hr r' hr'
  within := by
    rw [List.forall_mem_append, List.forall_mem_singleton]
    refine ⟨h.left.within, ?_⟩
    intro r hr
    obtain ⟨d, hd, hr⟩ := hanchors r hr
    exact h.right.within d hd r hr

/-- The last contents may take in a stray tag with a later run. -/
theorem Row.concatStray (h : Row seen (outer ++ [⟨own, parts⟩])) {s : Keyword × Field}
    (hlater : ∀ r ∈ seen, ∀ r' ∈ s.2.runs, r < r') :
    Row (seen ++ s.2.runs) (outer ++ [⟨own ++ [Problem.ofStray s], parts⟩]) := by
  have hlast := List.forall_mem_singleton.mp h.right.each
  have hwithin := List.forall_mem_singleton.mp h.right.within
  have hmem : s.2.opening.id ∈ s.2.runs := List.mem_cons_self
  -- The stray is put behind the row first, by itself.
  have hstray : Row s.2.runs [⟨[Problem.ofStray s], []⟩] := by
    apply Row.singleton
    · exact allInOrder_nil.concatStray (by simp [anchors])
    · simpa [anchors, Problem.ofStray] using hmem
  have hrow := h.append hstray hlater
  rw [List.append_assoc] at hrow
  apply hrow.folded
  · apply hlast.concatStray
    intro r hr
    exact hlater r (hwithin r hr) _ hmem
  · intro r hr
    simp only [List.cons_append, List.nil_append, List.exists_mem_cons_iff]
    rcases mem_anchors.mp hr with ⟨p, hp, hr⟩ | hheld
    · rcases List.mem_append.mp hp with hp | hp
      · exact .inl (mem_anchors.mpr (.inl ⟨p, hp, hr⟩))
      · exact .inr (.inl (mem_anchors.mpr (.inl ⟨p, hp, hr⟩)))
    · exact .inl (mem_anchors.mpr (.inr hheld))

/-- A part that shows where the last contents show may be put into those before them. -/
theorem Row.attach (h : Row seen (outer ++ ⟨own, parts⟩ :: ds)) {x : Part} (hx : x.AllInOrder)
    (hanchors : ∀ r ∈ x.anchors, ∃ d ∈ ds, r ∈ d.anchors) :
    Row seen (outer ++ [⟨own, parts ++ [x]⟩]) := by
  obtain ⟨hfirst, -⟩ := List.forall_mem_cons.mp h.right.each
  obtain ⟨hahead, -⟩ := List.pairwise_cons.mp h.right.apart
  apply h.folded
  · apply hfirst.concatPart hx
    intro r hr r' hr'
    obtain ⟨d, hd, hr'⟩ := hanchors r' hr'
    exact hahead d hd r hr r' hr'
  · intro r hr
    rw [List.exists_mem_cons_iff]
    rcases mem_anchors.mp hr with hown | ⟨y, hy, hr⟩
    · exact .inl (mem_anchors.mpr (.inl hown))
    · rcases List.mem_append.mp hy with hy | hy
      · exact .inl (mem_anchors.mpr (.inr ⟨y, hy, hr⟩))
      · rw [List.mem_singleton.mp hy] at hr
        exact .inr (hanchors r hr)

end Rows

/-- The part stands for all of the contents: for the first of them itself, and for the others in
that it holds them behind what the first one holds. -/
def Gathers (x : Part) (cs : List Contents) : Prop :=
  ∃ first more, cs = first :: more.map Part.contents ∧
    x.contents = ⟨first.own, first.parts ++ more⟩

/-- **Contents in a row can be put together to one part.** -/
theorem Row.gathered {seen : List RunId} {cs : List Contents} (h : Row seen cs) {x : Part}
    (hx : Gathers x cs) : x.AllInOrder ∧ ∀ r, r ∈ x.anchors ↔ ∃ c ∈ cs, r ∈ c.anchors := by
  obtain ⟨first, more, rfl, hcontents⟩ := hx
  obtain ⟨hfirst, hmore⟩ := List.forall_mem_cons.mp h.each
  obtain ⟨hahead, hapart⟩ := List.pairwise_cons.mp h.apart
  have hanchors : ∀ r, r ∈ anchors ⟨first.own, first.parts ++ more⟩ ↔
      r ∈ first.anchors ∨ ∃ y ∈ more, r ∈ y.anchors := by
    intro r
    rw [mem_anchors, mem_anchors, or_assoc]
    simp [or_and_right, exists_or]
  rw [Part.allInOrder_iff, ← x.anchors_contents, hcontents]
  refine ⟨⟨⟨hfirst.inOrder.strays, ?_, ?_⟩, ?_⟩, fun r => ?_⟩
  · -- What the first one reports shows before the others, too.
    intro p hp hlocal r hr r' hr'
    rcases (hanchors r').mp hr' with hinside | ⟨y, hy, hbehind⟩
    · exact hfirst.inOrder.own p hp hlocal r hr r' hinside
    · have hlt := hahead y.contents (List.mem_map_of_mem hy) r (mem_anchors.mpr (.inl ⟨p, hp, hr⟩))
      rw [y.anchors_contents] at hlt
      exact Nat.le_of_lt (hlt r' hbehind)
  · apply List.pairwise_append.mpr
    refine ⟨hfirst.inOrder.parts, List.pairwise_map.mp hapart, ?_⟩
    intro y hy z hz r hr r' hr'
    rw [y.anchors_contents] at hr
    exact hahead z.contents (List.mem_map_of_mem hz) r (mem_anchors.mpr (.inr ⟨y, hy, hr⟩)) r' hr'
  · intro y hy
    rcases List.mem_append.mp hy with hy | hy
    · exact hfirst.parts y hy
    · exact Part.allInOrder_iff.mpr (hmore y.contents (List.mem_map_of_mem hy))
  · rw [hanchors, List.exists_mem_cons_iff]
    simp [Part.anchors_contents]

end Contents

end DocTemplate
