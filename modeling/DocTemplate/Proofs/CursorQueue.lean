import DocTemplate.Proofs.FieldReading

/-!
# A cursor as a queue

A cursor can be asked for the next position and for one further ahead. As long as the distance that
is asked for does not reach over the last 64-bit word, it answers like a queue that loses its first
position with each step: nothing behind it is ever seen again.

The place of a position ahead is computed by adding before one is taken off, so a distance near the
end of the words, asked for when something lies behind, comes back to the start: the answer is a
position that was stepped over.

## Main statements

- `Cursor.lookahead_of_fits`, `Cursor.lookahead_eq_of_wraps`: the two sides of the last word
- `Cursor.askAll_answers`: the answers are those of a queue
- `Body.cursor_asked`: what the questions to a cursor over a body do
-/

namespace DocTemplate

/-! ## Questions -/

/-- What a cursor can be asked. -/
inductive CursorCall where
  | next
  | lookahead (n : UInt64)
  deriving DecidableEq

namespace CursorCall

/-- The call steps over a position. -/
def isNext : CursorCall → Bool
  | next => true
  | lookahead _ => false

/-- The distance that is asked for, from a place in `length` positions, is counted within a word. -/
def Fits (length : Nat) : CursorCall → Prop
  | next => True
  | lookahead n => length + n.toNat < UInt64.size

/-- The answer of a queue of positions, and the queue after it. -/
def ofQueue (ps : List Position) : CursorCall → Option Position × List Position
  | next => (ps.head?, ps.tail)
  | lookahead n => (if n = 0 then none else ps[n.toNat - 1]?, ps)

/-- The answers of a queue to one call after the other. -/
def allOfQueue (ps : List Position) : List CursorCall → List (Option Position)
  | [] => []
  | call :: calls => (call.ofQueue ps).1 :: allOfQueue (call.ofQueue ps).2 calls

end CursorCall

namespace Cursor

/-- A cursor before the first position of a body. -/
def ofBody (b : Body) : Cursor := { positions := b.positions }

/-- The answer to a call, and the cursor after it. -/
def ask (c : Cursor) : CursorCall → Option Position × Cursor
  | .next => c.next
  | .lookahead n => (c.lookahead n, c)

/-- The answers to one call after the other, and the cursor after the last. -/
def askAll (c : Cursor) : List CursorCall → List (Option Position) × Cursor
  | [] => ([], c)
  | call :: calls =>
    ((c.ask call).1 :: ((c.ask call).2.askAll calls).1, ((c.ask call).2.askAll calls).2)

variable {c : Cursor}

/-! ## One step -/

theorem next_of_lt (h : c.index < c.positions.length) :
    c.next = (some c.positions[c.index], c.forward 1) := by
  rw [next, List.getElem?_eq_getElem h]
  rfl

theorem next_of_length_le (h : c.positions.length ≤ c.index) : c.next = (none, c) := by
  rw [next, List.getElem?_eq_none h]

/-- What any call leaves: the same positions, and a place that only a step moves, never past the
end. -/
theorem ask_place (hc : c.InBody) (call : CursorCall) :
    (c.ask call).2.positions = c.positions ∧
      (c.ask call).2.index = min (c.index + call.isNext.toNat) c.positions.length := by
  have hplace : c.index ≤ c.positions.length := hc
  cases call with
  | next =>
    by_cases hlt : c.index < c.positions.length
    · rw [ask, next_of_lt hlt]
      exact ⟨rfl, (Nat.min_eq_left hlt).symm⟩
    · rw [ask, next_of_length_le (Nat.le_of_not_lt hlt)]
      refine ⟨rfl, ?_⟩
      simp only [CursorCall.isNext, Bool.toNat_true]
      omega
  | lookahead n => exact ⟨rfl, (Nat.min_eq_left hplace).symm⟩

theorem ask_inBody (hc : c.InBody) (call : CursorCall) : (c.ask call).2.InBody := by
  obtain ⟨hpositions, hindex⟩ := ask_place hc call
  rw [InBody, hpositions, hindex]
  exact Nat.min_le_right ..

/-- A whole series of calls counts its steps. -/
theorem askAll_place (hc : c.InBody) (calls : List CursorCall) :
    (c.askAll calls).2.positions = c.positions ∧
      (c.askAll calls).2.index =
        min (c.index + calls.countP CursorCall.isNext) c.positions.length := by
  induction calls generalizing c with
  | nil => exact ⟨rfl, (Nat.min_eq_left hc).symm⟩
  | cons call calls ih =>
    obtain ⟨hpositions, hindex⟩ := ask_place hc call
    obtain ⟨hpositions', hindex'⟩ := ih (ask_inBody hc call)
    refine ⟨hpositions'.trans hpositions, hindex'.trans ?_⟩
    rw [hindex, hpositions, List.countP_cons]
    cases call.isNext <;> simp <;> omega

/-! ## Distances -/

/-- Where the sum of place and distance is no word any more, both sum and difference are exact. -/
theorem toNat_place {n : UInt64} (hfits : c.index + n.toNat < UInt64.size) :
    (UInt64.ofNat c.index + n).toNat = c.index + n.toNat := by
  rw [UInt64.toNat_add, UInt64.toNat_ofNat']
  have hsize : UInt64.size = 2 ^ 64 := rfl
  omega

theorem lookahead_zero : c.lookahead 0 = none := rfl

/-- Within the words, a position ahead is counted from the place that is reached. -/
theorem lookahead_eq_of_lt {n : UInt64} (hfits : c.index + n.toNat < UInt64.size) (hn : n ≠ 0) :
    c.lookahead n = c.positions[c.index + n.toNat - 1]? := by
  have hpos : 0 < n.toNat := by
    apply Nat.pos_of_ne_zero
    intro hzero
    exact hn (UInt64.toNat_inj.mp hzero)
  rw [lookahead, if_neg hn, UInt64.toNat_sub_of_le, toNat_place hfits]
  · rfl
  · rw [UInt64.le_iff_toNat_le, toNat_place hfits]
    show 1 ≤ c.index + n.toNat
    omega

/-- Within the words there is a position ahead for every distance up to what remains, and none for
any other. -/
theorem lookahead_of_fits (hc : c.InBody) {n : UInt64} (hfits : c.index + n.toNat < UInt64.size) :
    c.lookahead n = if 1 ≤ n.toNat ∧ n.toNat ≤ c.remaining
      then c.positions[c.index + n.toNat - 1]? else none := by
  have hplace : c.index ≤ c.positions.length := hc
  by_cases hn : n = 0
  · rw [hn, lookahead_zero, if_neg (fun h => absurd h.1 (by decide))]
  · have hpos : 0 < n.toNat := Nat.pos_of_ne_zero fun hzero => hn (UInt64.toNat_inj.mp hzero)
    rw [lookahead_eq_of_lt hfits hn]
    split
    next => rfl
    next hfar =>
      apply List.getElem?_eq_none
      rw [remaining] at hfar
      omega

/-- Past the last word, a position ahead is counted from the start. -/
theorem lookahead_eq_of_wraps {n : UInt64} (hindex : c.index < UInt64.size)
    (hwraps : UInt64.size < c.index + n.toNat) :
    c.lookahead n = c.positions[c.index + n.toNat - 1 - UInt64.size]? := by
  have hsize : UInt64.size = 2 ^ 64 := rfl
  have hword := n.toNat_lt
  have hn : n ≠ 0 := by
    rintro rfl
    simp at hwraps
    omega
  have hsum : (UInt64.ofNat c.index + n).toNat = c.index + n.toNat - UInt64.size := by
    rw [UInt64.toNat_add, UInt64.toNat_ofNat']
    omega
  rw [lookahead, if_neg hn, UInt64.toNat_sub_of_le, hsum]
  · show c.positions[c.index + n.toNat - UInt64.size - 1]? = _
    rw [Nat.sub_right_comm]
  · rw [UInt64.le_iff_toNat_le, hsum]
    show 1 ≤ c.index + n.toNat - UInt64.size
    omega

/-- Just at the last word the difference falls below zero, and no body is that long. -/
theorem lookahead_eq_none_of_eq {n : UInt64} (hindex : c.index < UInt64.size)
    (hlength : c.positions.length < UInt64.size) (hedge : c.index + n.toNat = UInt64.size) :
    c.lookahead n = none := by
  have hsize : UInt64.size = 2 ^ 64 := rfl
  have hn : n ≠ 0 := by
    rintro rfl
    simp at hedge
    omega
  have hsum : UInt64.ofNat c.index + n = 0 := by
    apply UInt64.toNat_inj.mp
    rw [UInt64.toNat_add, UInt64.toNat_ofNat']
    show _ = 0
    omega
  rw [lookahead, if_neg hn, hsum]
  apply List.getElem?_eq_none
  show c.positions.length ≤ 2 ^ 64 - 1
  omega

/-! ## Answers of a queue -/

theorem head?_rest : c.rest.head? = c.positions[c.index]? := List.head?_drop

/-- A call whose distance fits is answered like by the queue of the positions ahead, and leaves the
queue that this one leaves. -/
theorem ask_eq_ofQueue (hc : c.InBody) {call : CursorCall}
    (hfits : call.Fits c.positions.length) :
    (c.ask call).1 = (call.ofQueue c.rest).1 ∧ (c.ask call).2.rest = (call.ofQueue c.rest).2 := by
  cases call with
  | next =>
    by_cases hlt : c.index < c.positions.length
    · rw [ask, next_of_lt hlt]
      constructor
      · rw [CursorCall.ofQueue, head?_rest, List.getElem?_eq_getElem hlt]
      · exact List.tail_drop.symm
    · have hnil : c.rest = [] := List.drop_eq_nil_of_le (Nat.le_of_not_lt hlt)
      rw [ask, next_of_length_le (Nat.le_of_not_lt hlt), CursorCall.ofQueue, hnil]
      exact ⟨rfl, rfl⟩
  | lookahead n =>
    refine ⟨?_, rfl⟩
    by_cases hn : n = 0
    · rw [ask, CursorCall.ofQueue, if_pos hn, hn, lookahead_zero]
    · have hlt : c.index + n.toNat < UInt64.size :=
        Nat.lt_of_le_of_lt (Nat.add_le_add_right hc _) hfits
      have hpos : 0 < n.toNat := Nat.pos_of_ne_zero fun hzero => hn (UInt64.toNat_inj.mp hzero)
      rw [ask, CursorCall.ofQueue, if_neg hn, lookahead_eq_of_lt hlt hn, rest, List.getElem?_drop,
        Nat.add_sub_assoc hpos]

/-- **The answers to any series of calls are those of a queue**, while the distances fit. -/
theorem askAll_answers (hc : c.InBody) {calls : List CursorCall}
    (hfits : ∀ call ∈ calls, call.Fits c.positions.length) :
    (c.askAll calls).1 = CursorCall.allOfQueue c.rest calls := by
  induction calls generalizing c with
  | nil => rfl
  | cons call calls ih =>
    obtain ⟨hanswer, hrest⟩ := ask_eq_ofQueue hc (hfits call List.mem_cons_self)
    have hothers : ∀ call' ∈ calls, call'.Fits (c.ask call).2.positions.length := by
      intro call' hcall'
      rw [(ask_place hc call).1]
      exact hfits call' (List.mem_cons_of_mem _ hcall')
    rw [askAll, CursorCall.allOfQueue, ih (ask_inBody hc call) hothers, hanswer, hrest]

end Cursor

/-! ## Cursors over a body -/

namespace Body

theorem linearPositions_eq_flatMap (b : Body) : linearPositions b = b.flatMap elementPositions := by
  induction b with
  | nil => rfl
  | cons e es ih => rw [linearPositions, ih, List.flatMap_cons]

/-- **What the questions to a cursor over a body do.** The positions are those of the elements in
order, one for every run of a paragraph and one for every table. After any calls as many of them lie
behind as there were steps, all of them at most, and a further step takes the next one or, at the
end, changes nothing. A position ahead is the one at that distance, and there is none for the
distance zero or beyond the end: that is so while place and distance add up to a word, and also
where they exceed the last word by just one. Where they exceed it by more, the answer is a position
that lies behind. So the answers to all calls are those of a queue of the positions, as long as no
distance is that great. -/
theorem cursor_asked (b : Body) (hlength : b.positions.length < UInt64.size)
    (calls : List CursorCall) :
    b.positions = b.flatMap elementPositions ∧
    ((∀ call ∈ calls, call.Fits b.positions.length) →
      ((Cursor.ofBody b).askAll calls).1 = CursorCall.allOfQueue b.positions calls) ∧
    ∃ c, ((Cursor.ofBody b).askAll calls).2 = c ∧ c.positions = b.positions ∧
      c.index = min (calls.countP CursorCall.isNext) b.positions.length ∧
      c.index + c.remaining = b.positions.length ∧
      (∀ p, b.positions[c.index]? = some p →
        c.next = (some p, { c with index := c.index + 1 })) ∧
      (b.positions[c.index]? = none → c.next = (none, c)) ∧
      ∀ n : UInt64,
        (c.index + n.toNat < UInt64.size →
          (UInt64.ofNat c.index + n).toNat = c.index + n.toNat ∧
          c.lookahead n = if 1 ≤ n.toNat ∧ n.toNat ≤ c.remaining
            then b.positions[c.index + n.toNat - 1]? else none) ∧
        (c.index + n.toNat = UInt64.size → c.lookahead n = none) ∧
        (UInt64.size < c.index + n.toNat →
          c.index + n.toNat - 1 - UInt64.size < c.index ∧
          c.lookahead n = b.positions[c.index + n.toNat - 1 - UInt64.size]?) := by
  have hstart : (Cursor.ofBody b).InBody := Nat.zero_le _
  refine ⟨?_, Cursor.askAll_answers hstart, _, rfl, ?_⟩
  · rw [positions_eq_linearPositions, linearPositions_eq_flatMap]
  obtain ⟨hpositions, hindex⟩ := Cursor.askAll_place hstart calls
  generalize ((Cursor.ofBody b).askAll calls).2 = c at hpositions hindex
  have hpositions' : c.positions = b.positions := hpositions
  have hcount : c.index = min (calls.countP CursorCall.isNext) b.positions.length := by
    rw [hindex]
    show min (0 + _) _ = _
    rw [Nat.zero_add]
    rfl
  have hle : c.index ≤ b.positions.length := hcount ▸ Nat.min_le_right ..
  have hplace : c.InBody := by rwa [Cursor.InBody, hpositions']
  have hremaining : c.remaining = b.positions.length - c.index := by
    rw [Cursor.remaining, hpositions']
  have hword : c.index < UInt64.size := Nat.lt_of_le_of_lt hle hlength
  refine ⟨hpositions', hcount, by omega, ?_, ?_, ?_⟩
  · intro p hp
    rw [← hpositions'] at hp
    rw [Cursor.next, hp]
  · intro hnone
    rw [← hpositions'] at hnone
    rw [Cursor.next, hnone]
  intro n
  refine ⟨fun hlt => ⟨Cursor.toNat_place hlt, ?_⟩, ?_, fun hwraps => ⟨?_, ?_⟩⟩
  · rw [Cursor.lookahead_of_fits hplace hlt, hpositions']
  · exact Cursor.lookahead_eq_none_of_eq hword (hpositions' ▸ hlength)
  · have hn := n.toNat_lt
    have hsize : UInt64.size = 2 ^ 64 := rfl
    omega
  · rw [Cursor.lookahead_eq_of_wraps hword hwraps, hpositions']

/-- Two runs, one after the other. -/
def twoRuns : Body := [.paragraph [{ id := 0, text := "a" }, { id := 1, text := "b" }]]

/-- When both runs lie behind, the greatest distance leads back to the first one. -/
theorem cursor_asked_twoRunsBehind :
    twoRuns.positions.length < UInt64.size ∧
      ∃ c, ((Cursor.ofBody twoRuns).askAll [.next, .lookahead 1, .next]).2 = c ∧
        c.index = 2 ∧ c.lookahead 1 = none ∧
        c.lookahead 18446744073709551615 = some (.run { id := 0, text := "a" }) := by
  have hlength : twoRuns.positions.length < UInt64.size := by decide
  obtain ⟨-, -, c, hc, hpositions, hindex, -, -, -, hlookahead⟩ :=
    cursor_asked twoRuns hlength [.next, .lookahead 1, .next]
  have hindex' : c.index = 2 := hindex
  refine ⟨hlength, c, hc, hindex', ?_, ?_⟩
  · have hfits := (hlookahead 1).1 (by rw [hindex']; decide)
    rw [hfits.2, if_neg]
    rw [Cursor.remaining, hpositions, hindex']
    decide
  · have hwraps := (hlookahead 18446744073709551615).2.2 (by rw [hindex']; decide)
    rw [hwraps.2, hindex']
    rfl

/-- A cursor does not answer like a queue at every distance. -/
theorem not_forall_cursor_lookahead :
    ¬ ∀ (b : Body) (calls : List CursorCall) (n : UInt64),
      let c := ((Cursor.ofBody b).askAll calls).2
      c.lookahead n = if 1 ≤ n.toNat ∧ n.toNat ≤ c.remaining
        then b.positions[c.index + n.toNat - 1]? else none := by
  intro hall
  have hnone := hall twoRuns [.next, .next] 18446744073709551615
  dsimp only at hnone
  have hsome : ((Cursor.ofBody twoRuns).askAll [.next, .next]).2.lookahead 18446744073709551615 =
      some (.run { id := 0, text := "a" }) := rfl
  rw [hsome, if_neg (by decide)] at hnone
  cases hnone

end Body

end DocTemplate
