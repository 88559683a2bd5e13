import Mathlib.Algebra.GroupWithZero.Nat
import Mathlib.Data.List.Lex
import Mathlib.Data.List.Perm.Basic

/-!
# Pre-order

What nests is described by the nodes that a node directly holds. From that alone follows where
nodes stand and in which order they are met: a node is reached from the topmost one by the numbers
of the parts to go down to, and it comes before everything in it, and that before everything in the
next part. A function that goes down by itself is compared with this order once, by looking at one
node and its parts.

## Main statements

- `Hierarchy.inPreorder_all`: `all` lists what stands at each place, once, in the order of places
- `Hierarchy.flatMap_all`: a function that adds up what nodes have of their own goes through `all`
- `Hierarchy.all_perm`: apart from the topmost node, each node is held by exactly one
-/

namespace DocTemplate

/-! ## Places -/

/-- Where something may stand: which part to go down to, and where in that part to look. -/
abbrev Place := List Nat

section Listing

variable {α : Type} {find find' : Place → Option α} {nodes nodes' : List α}

/-- The nodes are those that `find` has: one for each place at which there is one, in the order of
the places, which is the order of words in a dictionary. -/
def Lists (find : Place → Option α) (nodes : List α) : Prop :=
  ∃ places : List Place, places.Pairwise (· < ·) ∧
    (∀ place, place ∈ places ↔ (find place).isSome) ∧ places.map find = nodes.map some

theorem Lists.none : Lists (fun _ => Option.none) ([] : List α) :=
  ⟨[], List.Pairwise.nil, by simp, rfl⟩

/-- What stands at the places of `find`, followed by what stands at later places. -/
theorem Lists.append (h : Lists find nodes) (h' : Lists find' nodes')
    (hlt : ∀ place place', (find place).isSome → (find' place').isSome → place < place') :
    Lists (fun place => (find place).or (find' place)) (nodes ++ nodes') := by
  obtain ⟨places, hsorted, hplaces, hnodes⟩ := h
  obtain ⟨places', hsorted', hplaces', hnodes'⟩ := h'
  refine ⟨places ++ places', ?_, ?_, ?_⟩
  · apply List.pairwise_append.mpr
    refine ⟨hsorted, hsorted', ?_⟩
    intro place hplace place' hplace'
    exact hlt place place' ((hplaces place).mp hplace) ((hplaces' place').mp hplace')
  · intro place
    simp [hplaces, hplaces']
  · have hfront : places.map (fun place => (find place).or (find' place)) = places.map find := by
      apply List.map_congr_left
      intro place hplace
      exact Option.or_of_isSome ((hplaces place).mp hplace)
    have hback : places'.map (fun place => (find place).or (find' place)) = places'.map find' := by
      apply List.map_congr_left
      intro place hplace
      -- The two have no place in common, since it would come before itself.
      have hnone : find place = Option.none := by
        rw [← Option.not_isSome_iff_eq_none]
        intro hsome
        exact lt_irrefl place (hlt place place hsome ((hplaces' place).mp hplace))
      rw [hnone, Option.none_or]
    rw [List.map_append, List.map_append, hfront, hback, hnodes, hnodes']

/-- What is found in one part, looked for from the node that holds it. -/
def inPart (i : Nat) (find : Place → Option α) : Place → Option α
  | [] => Option.none
  | j :: place => if j = i then find place else Option.none

theorem Lists.inPart (h : Lists find nodes) (i : Nat) : Lists (inPart i find) nodes := by
  obtain ⟨places, hsorted, hplaces, hnodes⟩ := h
  refine ⟨places.map (i :: ·), ?_, ?_, ?_⟩
  · apply List.pairwise_map.mpr
    apply hsorted.imp
    intro place place' hlt
    simpa using hlt
  · intro place
    cases place with
    | nil => simp [DocTemplate.inPart]
    | cons j place =>
      by_cases hj : j = i
      · simp [DocTemplate.inPart, hplaces, hj]
      · simp [DocTemplate.inPart, hj, Ne.symm hj]
  · rw [List.map_map, ← hnodes]
    apply List.map_congr_left
    intro place hplace
    simp [DocTemplate.inPart]

end Listing

/-! ## Nodes and their parts -/

/-- What the nodes of a tree directly hold, from first to last. -/
structure Hierarchy (α : Type) where
  parts : α → List α
  /-- There are finitely many nodes below any node. -/
  wf : WellFounded fun p a => p ∈ parts a

namespace Hierarchy

variable {α β : Type} (H : Hierarchy α)

/-- A node and everything in it, in pre-order. -/
def all (a : α) : List α := a :: (H.parts a).attach.flatMap fun p => all p.1
termination_by H.wf.wrap a
decreasing_by exact p.2

theorem all_eq (a : α) : H.all a = a :: (H.parts a).flatMap H.all := by
  rw [all]
  simp

/-- The node at a place. -/
def at? (a : α) : Place → Option α
  | [] => some a
  | i :: place => (H.parts a)[i]?.bind (at? · place)

/-- The node at a place in one of several nodes, of which the first one has the number `i`. -/
def among? : List α → Nat → Place → Option α
  | [], _, _ => none
  | p :: ps, i, place => (inPart i (H.at? p) place).or (among? ps (i + 1) place)

theorem among?_nil (ps : List α) (i : Nat) : H.among? ps i [] = none := by
  induction ps generalizing i with
  | nil => rfl
  | cons p ps ih => simp [among?, inPart, ih]

theorem among?_cons (ps : List α) (i j : Nat) (place : Place) :
    H.among? ps i (j :: place) =
      if i ≤ j then ps[j - i]?.bind (H.at? · place) else none := by
  induction ps generalizing i with
  | nil => simp [among?]
  | cons p ps ih =>
    rw [among?, ih, inPart]
    rcases lt_trichotomy j i with hj | rfl | hj
    · simp [hj.ne, Nat.not_le.mpr hj, show ¬ i + 1 ≤ j by omega]
    · simp [show ¬ j + 1 ≤ j by omega]
    · have hsub : j - i = (j - (i + 1)) + 1 := by omega
      simp [hj.ne', hsub, show i ≤ j by omega, show i + 1 ≤ j by omega]

/-- A place is that of the node itself or lies in one of its parts. -/
theorem at?_eq (a : α) (place : Place) :
    H.at? a place = (if place = [] then some a else none).or (H.among? (H.parts a) 0 place) := by
  cases place with
  | nil => rfl
  | cons i place => simp [at?, among?_cons]

/-- The nodes are everything at or below `a`: a node before its parts, and these one by one from
first to last. -/
def InPreorder (a : α) (nodes : List α) : Prop := Lists (H.at? a) nodes

theorem lists_among? {ps : List α} (h : ∀ p ∈ ps, H.InPreorder p (H.all p)) (i : Nat) :
    Lists (H.among? ps i) (ps.flatMap H.all) := by
  induction ps generalizing i with
  | nil => exact .none
  | cons p ps ih =>
    have hfirst := (h p List.mem_cons_self).inPart i
    have hrest := ih (fun q hq => h q (List.mem_cons_of_mem p hq)) (i + 1)
    refine hfirst.append hrest ?_
    intro place place' hplace hplace'
    cases place with
    | nil => simp [inPart] at hplace
    | cons j place =>
      cases place' with
      | nil => simp [among?_nil] at hplace'
      | cons j' place' =>
        -- The first part has the smaller number.
        have hj : j = i := by
          by_contra hne
          simp [inPart, hne] at hplace
        have hj' : i + 1 ≤ j' := by
          by_contra hlt
          simp [among?_cons, hlt] at hplace'
        exact List.cons_lt_cons_iff.mpr (.inl (by omega))

/-- **`all` lists what stands at each place,** once and in the order of the places. -/
theorem inPreorder_all (a : α) : H.InPreorder a (H.all a) := by
  induction a using H.wf.induction with
  | h a ih =>
    have hself : Lists (fun place : Place => if place = [] then some a else none) [a] :=
      ⟨[[]], by simp, by simp, by simp⟩
    have hparts := H.lists_among? ih 0
    rw [InPreorder, funext (H.at?_eq a), H.all_eq]
    refine hself.append hparts ?_
    intro place place' hplace hplace'
    cases place' with
    | nil => simp [among?_nil] at hplace'
    | cons j place' =>
      have hnil : place = [] := by
        by_contra hne
        simp [hne] at hplace
      rw [hnil]
      exact List.nil_lt_cons j place'

/-! ## Going through all nodes -/

/-- **A function that adds up what nodes have of their own goes through all of them in pre-order,**
where it does so at each node: first what the node has itself, then what its parts have. -/
theorem flatMap_all {f own : α → List β} (h : ∀ a, f a = own a ++ (H.parts a).flatMap f) (a : α) :
    (H.all a).flatMap own = f a := by
  induction a using H.wf.induction with
  | h a ih =>
    rw [H.all_eq, List.flatMap_cons, List.flatMap_assoc, h a]
    exact congrArg (own a ++ ·) (List.flatMap_congr ih)

/-- Apart from the topmost node, each node is a part of exactly one. -/
theorem all_perm (a : α) : (H.all a).Perm (a :: (H.all a).flatMap H.parts) := by
  induction a using H.wf.induction with
  | h a ih =>
    have hparts : ((H.parts a).flatMap H.all).Perm
        (H.parts a ++ (H.parts a).flatMap fun p => (H.all p).flatMap H.parts) := by
      refine (List.Perm.flatMap_left _ ih).trans ?_
      simpa using (List.map_append_flatMap_perm (H.parts a) id _).symm
    rw [H.all_eq, List.flatMap_cons, List.flatMap_assoc]
    exact hparts.cons a

/-- Those of a kind are the topmost node, if it is of that kind, and the parts of that kind that
nodes have. -/
theorem countP_all (q : α → Bool) (a : α) :
    (H.all a).countP q = [a].countP q + ((H.all a).map fun p => (H.parts p).countP q).sum := by
  rw [(H.all_perm a).countP_eq, ← List.singleton_append, List.countP_append, List.countP_flatMap]
  rfl

end Hierarchy

end DocTemplate
