import DocTemplate.Proofs.Strays
import Mathlib.Data.List.Perm.Basic

/-!
# Tokens without the stray tags

Deleting a stray tag changes nothing for the tags around it: whether they have a place depends on the
open frames, and a stray leaves these as they are. So all strays can be deleted at once, in the cells
of tables as well, and what is left are the runs that the strays do not take.

## Main statements

- `Token.leavesOf_perm`: each leaf is a stray tag or is kept
- `Separates.of_nodup`: distinct runs tell the strays from what is kept
-/

namespace DocTemplate

namespace Token

mutual

/-- The tokens that are left when the stray tags are deleted from tokens that are read where the
frames `fs` are open. -/
def prune (fs : List Frame) : List Token → List Token
  | [] => []
  | t :: ts => pruneAt fs t ++ prune ((advance t.kind fs).getD fs) ts

/-- What is left of one token. -/
def pruneAt (fs : List Frame) : Token → List Token
  | .text r => [.text r]
  | .tag k f => if advance (.tag k) fs = none then [] else [.tag k f]
  | .table id rows => [.table id (pruneRows rows)]

/-- What is left of the rows of a table. -/
def pruneRows : List (List (List Token)) → List (List (List Token))
  | [] => []
  | r :: rs => pruneCells r :: pruneRows rs

/-- What is left of the cells of a row. -/
def pruneCells : List (List Token) → List (List Token)
  | [] => []
  | c :: cs => prune [] c :: pruneCells cs

end

theorem pruneCells_eq_map (cells : List (List Token)) : pruneCells cells = cells.map (prune []) := by
  induction cells with
  | nil => rfl
  | cons c cs ih => rw [pruneCells, ih, List.map_cons]

theorem pruneRows_eq_map (rows : List (List (List Token))) :
    pruneRows rows = rows.map (fun r => r.map (prune [])) := by
  induction rows with
  | nil => rfl
  | cons r rs ih => rw [pruneRows, ih, List.map_cons, pruneCells_eq_map]

theorem runsOf_append (ts us : List Token) : runsOf (ts ++ us) = runsOf ts ++ runsOf us := by
  simp [runsOf, leavesOf_append]

/-- A stray field as a token. -/
def ofStray (s : Keyword × Field) : Token := .tag s.1 s.2

theorem leavesOf_cons (t : Token) (ts : List Token) : leavesOf (t :: ts) = leaves t ++ leavesOf ts :=
  rfl

/-- What holds cell by cell holds of a table. -/
theorem leaves_table_perm {id : TableId} {rows : List (List (List Token))}
    (h : ∀ row ∈ rows, ∀ c ∈ row,
      (leavesOf c).Perm ((straysOf [] c).map ofStray ++ leavesOf (prune [] c))) :
    (leaves (.table id rows)).Perm
      ((straysOfRows rows).map ofStray ++ leaves (.table id (pruneRows rows))) := by
  rw [leaves, leaves, leavesOfRows_eq_flatMap, leavesOfRows_eq_flatMap, straysOfRows_eq_flatMap,
    pruneRows_eq_map]
  simp only [List.map_flatMap, List.flatMap_map]
  have hrow : ∀ row ∈ rows, (row.flatMap leavesOf).Perm
      (row.flatMap (fun c => (straysOf [] c).map ofStray) ++
        row.flatMap (fun c => leavesOf (prune [] c))) := by
    intro row hmem
    exact (List.Perm.flatMap_left row (h row hmem)).trans (List.flatMap_append_perm row _ _).symm
  exact (List.Perm.flatMap_left rows hrow).trans (List.flatMap_append_perm rows _ _).symm

/-- **Each leaf is a stray tag or is kept.** -/
theorem leavesOf_perm (fs : List Frame) (ts : List Token) :
    (leavesOf ts).Perm ((straysOf fs ts).map ofStray ++ leavesOf (prune fs ts)) := by
  induction ts using cellInduction generalizing fs with
  | h ts cells =>
    induction ts generalizing fs with
    | nil => exact .refl _
    | cons t ts ih =>
      have hrest := ih (fun id rows hmem => cells id rows (List.mem_cons_of_mem _ hmem))
        ((advance t.kind fs).getD fs)
      have hfirst : (leaves t).Perm ((straysAt fs t).map ofStray ++ leavesOf (pruneAt fs t)) := by
        cases t with
        | text r => exact .refl _
        | tag k f =>
          rw [straysAt, pruneAt]
          split <;> exact .refl _
        | table id rows =>
          rw [straysAt, pruneAt, leavesOf_cons, leavesOf, List.append_nil]
          exact leaves_table_perm fun row hrow c hc =>
            cells id rows List.mem_cons_self row hrow c hc []
      rw [leavesOf_cons, straysOf, prune, leavesOf_append, List.map_append]
      refine (hfirst.append hrest).trans ?_
      -- The strays of the rest move in front of what is kept of the first token.
      simp only [List.append_assoc]
      apply List.Perm.append_left
      rw [← List.append_assoc, ← List.append_assoc]
      exact List.perm_append_comm.append_right _

/-- The field of a tag. -/
def field? : Token → Option Field
  | .tag _ f => some f
  | _ => none

/-- The fields of the tags among tokens and in their cells, in document order. -/
def fieldsOf (ts : List Token) : List Field := (leavesOf ts).filterMap field?

/-- The runs of the stray fields among tokens. -/
def strayRunsOf (fs : List Frame) (ts : List Token) : List RunId :=
  (straysOf fs ts).flatMap (fun s => s.2.runs)

theorem runsOf_perm (fs : List Frame) (ts : List Token) :
    (runsOf ts).Perm (strayRunsOf fs ts ++ runsOf (prune fs ts)) := by
  have h := (leavesOf_perm fs ts).flatMap_right ownRuns
  rw [List.flatMap_append, List.flatMap_map] at h
  exact h

theorem fieldsOf_perm (fs : List Frame) (ts : List Token) :
    (fieldsOf ts).Perm ((straysOf fs ts).map Prod.snd ++ fieldsOf (prune fs ts)) := by
  have h := (leavesOf_perm fs ts).filterMap field?
  rw [List.filterMap_append, List.filterMap_map] at h
  have hfields : (straysOf fs ts).filterMap (field? ∘ ofStray) = (straysOf fs ts).map Prod.snd := by
    rw [← List.filterMap_eq_map]
    rfl
  rw [hfields] at h
  exact h

theorem runs_subset_runsOf {ts : List Token} {f : Field} (h : f ∈ fieldsOf ts) :
    ∀ r ∈ f.runs, r ∈ runsOf ts := by
  intro r hr
  obtain ⟨t, ht, hf⟩ := List.mem_filterMap.mp h
  cases t with
  | text r => cases hf
  | table id rows => cases hf
  | tag k g =>
    cases hf
    exact List.mem_flatMap.mpr ⟨_, ht, hr⟩

end Token

/-! ## Telling the strays from the rest -/

/-- The runs of the stray fields are gone and all others are kept. -/
structure Separates (gone : RunId → Bool) (fs : List Frame) (ts : List Token) : Prop where
  strays : ∀ r ∈ Token.strayRunsOf fs ts, gone r = true
  kept : ∀ r ∈ Token.runsOf (Token.prune fs ts), gone r = false

namespace Separates

variable {gone : RunId → Bool} {fs : List Frame}

theorem head {t : Token} {ts : List Token} (h : Separates gone fs (t :: ts)) :
    (∀ s ∈ Token.straysAt fs t, ∀ r ∈ s.2.runs, gone r = true) ∧
      ∀ r ∈ Token.runsOf (Token.pruneAt fs t), gone r = false := by
  constructor
  · intro s hs r hr
    refine h.strays r (List.mem_flatMap.mpr ⟨s, ?_, hr⟩)
    rw [Token.straysOf]
    exact List.mem_append_left _ hs
  · intro r hr
    apply h.kept
    rw [Token.prune, Token.runsOf_append]
    exact List.mem_append_left _ hr

theorem tail {t : Token} {ts : List Token} (h : Separates gone fs (t :: ts)) :
    Separates gone ((advance t.kind fs).getD fs) ts := by
  constructor
  · intro r hr
    apply h.strays
    rw [Token.strayRunsOf, Token.straysOf, List.flatMap_append]
    exact List.mem_append_right _ hr
  · intro r hr
    apply h.kept
    rw [Token.prune, Token.runsOf_append]
    exact List.mem_append_right _ hr

/-- The strays are told apart in the cells of a table as well. -/
theorem cell {id : TableId} {rows : List (List (List Token))} {ts : List Token}
    (h : Separates gone fs ts) (htable : Token.table id rows ∈ ts) :
    ∀ row ∈ rows, ∀ c ∈ row, Separates gone [] c := by
  -- What is open where the table stands plays no part in its cells.
  induction ts generalizing fs with
  | nil => cases htable
  | cons t ts ih =>
    rcases List.mem_cons.mp htable with rfl | htable
    · intro row hrow c hc
      obtain ⟨hstrays, hkept⟩ := h.head
      constructor
      · intro r hr
        obtain ⟨s, hs, hr⟩ := List.mem_flatMap.mp hr
        refine hstrays s ?_ r hr
        rw [Token.straysAt, Token.straysOfRows_eq_flatMap]
        exact List.mem_flatMap.mpr ⟨row, hrow, List.mem_flatMap.mpr ⟨c, hc, hs⟩⟩
      · intro r hr
        apply hkept
        rw [Token.pruneAt, Token.runsOf_table, Token.pruneRows_eq_map, Token.runsOf_nil,
          List.append_nil]
        refine List.mem_flatMap.mpr ⟨_, List.mem_map_of_mem hrow, ?_⟩
        exact List.mem_flatMap.mpr ⟨_, List.mem_map_of_mem hc, hr⟩
    · exact ih h.tail htable

/-- **Distinct runs tell the strays from the rest**: what is gone are the runs of the fields whose
opening runs are those of stray fields. -/
theorem of_nodup {ts : List Token} {openings : List RunId} (hnodup : (Token.runsOf ts).Nodup)
    (hopenings : ((Token.straysOf fs ts).map (·.2.opening.id)).Perm openings) :
    Separates (fun r => r ∈ ((Token.fieldsOf ts).filter (fun f => f.opening.id ∈ openings)).flatMap
      Field.runs) fs ts := by
  -- Each run belongs to a stray or is kept, and not both, since no run occurs twice.
  have hdisjoint : ∀ r ∈ Token.strayRunsOf fs ts, r ∉ Token.runsOf (Token.prune fs ts) := by
    have h := (Token.runsOf_perm fs ts).nodup_iff.mp hnodup
    exact fun r hr hkept => (List.nodup_append.mp h).2.2 r hr r hkept rfl
  have hstray : ∀ f ∈ Token.fieldsOf ts, f.opening.id ∈ openings →
      ∀ r ∈ f.runs, r ∈ Token.strayRunsOf fs ts := by
    intro f hf hopening r hr
    obtain ⟨s, hs, hsame⟩ := List.mem_map.mp (hopenings.mem_iff.mpr hopening)
    have hown : s.2.opening.id ∈ Token.strayRunsOf fs ts :=
      List.mem_flatMap.mpr ⟨s, hs, by simp [Field.runs]⟩
    rcases List.mem_append.mp ((Token.fieldsOf_perm fs ts).mem_iff.mp hf) with hmem | hmem
    · obtain ⟨s', hs', rfl⟩ := List.mem_map.mp hmem
      exact List.mem_flatMap.mpr ⟨s', hs', hr⟩
    · -- A field that is kept does not share its opening run with a stray one.
      rw [hsame] at hown
      exact absurd (Token.runs_subset_runsOf hmem _ (by simp [Field.runs])) (hdisjoint _ hown)
  constructor
  · intro r hr
    obtain ⟨s, hs, hr⟩ := List.mem_flatMap.mp hr
    have hfield : s.2 ∈ Token.fieldsOf ts :=
      (Token.fieldsOf_perm fs ts).mem_iff.mpr (List.mem_append_left _ (List.mem_map_of_mem hs))
    have hopening : s.2.opening.id ∈ openings :=
      hopenings.mem_iff.mp (List.mem_map.mpr ⟨s, hs, rfl⟩)
    simp only [decide_eq_true_eq, List.mem_flatMap, List.mem_filter]
    exact ⟨s.2, ⟨hfield, hopening⟩, hr⟩
  · intro r hr
    simp only [decide_eq_false_iff_not, List.mem_flatMap, List.mem_filter, decide_eq_true_eq]
    rintro ⟨f, ⟨hf, hopening⟩, hmem⟩
    exact hdisjoint r (hstray f hf hopening r hmem) hr

end Separates

end DocTemplate
