import DocTemplate.Log.Journal
import Mathlib.Data.List.DropRight
import Mathlib.Data.List.Induction

/-!
# What a logbook remembers

Events are logged, the level of the filter is changed and the journal is cleared, in any order and
any number of times. Which events count can be told from the history alone: those that passed the
level in force when they were logged, and after which nothing was cleared. The journal keeps the
newest of them, as many as it has room for, and everything that it is asked is answered about these.

A journal forgets its oldest event when the number of its events equals its capacity, and at no
other time. That this is soon enough rests on an invariant: the number is never above the capacity.

## Main statements

- `Logbook.accepted_concat`: what one more action does to the events that count
- `Journal.WithinRoom.keep`: a journal that holds no more than it has room for goes on so
- `Logbook.kept_act`: what one more action does to the events that are kept
- `Logbook.run_newest`: after any history, the newest events that count are kept
-/

namespace DocTemplate

namespace Logbook

/-! ## Histories -/

/-- The event that an action logs. -/
def Action.event? : Action → Option Event
  | .log e => some e
  | .logError code message => some (.error code message)
  | .logSuccess code message => some (.success code message)
  | .setLeast _ | .clear => none

/-- The level that an action sets. -/
def Action.level? : Action → Option LogLevel
  | .setLeast l => some l
  | .log _ | .logError .. | .logSuccess .. | .clear => none

def Action.isClear : Action → Bool
  | .clear => true
  | .log _ | .logError .. | .logSuccess .. | .setLeast _ => false

variable (least : LogLevel) (history : List Action)

/-- The level in force after some actions: the one that was set last, or the one at the start. -/
def levelAfter : LogLevel := (history.filterMap Action.level?).getLast?.getD least

/-- The event that counts at a place of a history: one is logged there, it passes the level in force
before it, and nothing is cleared after it. -/
def acceptedAt (i : Nat) : Option Event :=
  (history[i]?.bind Action.event?).filter fun e =>
    e.level.passes (levelAfter least (history.take i)) && !(history.drop (i + 1)).any Action.isClear

/-- The events that count, in the order in which they were logged. -/
def accepted : List Event := (List.range history.length).filterMap (acceptedAt least history)

/-- A logbook with an empty journal. -/
def start (capacity : Nat) (least : LogLevel) : Logbook := ⟨.ofCapacity capacity, least⟩

/-- Do one thing after another. -/
def run (b : Logbook) (history : List Action) : Logbook := history.foldl act b

/-! ## One more action -/

theorem levelAfter_concat (a : Action) :
    levelAfter least (history ++ [a]) = a.level?.getD (levelAfter least history) := by
  rw [levelAfter, List.filterMap_append]
  cases h : a.level? <;> simp [h, levelAfter]

/-- What counted before goes on counting unless everything is cleared. -/
theorem acceptedAt_concat (a : Action) {i : Nat} (hi : i < history.length) :
    acceptedAt least (history ++ [a]) i =
      if a.isClear then none else acceptedAt least history i := by
  have hat : (history ++ [a])[i]? = history[i]? := List.getElem?_append_left hi
  have hbefore : (history ++ [a]).take i = history.take i := List.take_append_of_le_length hi.le
  have hafter : (history ++ [a]).drop (i + 1) = history.drop (i + 1) ++ [a] :=
    List.drop_append_of_le_length hi
  rw [acceptedAt, acceptedAt, hat, hbefore, hafter]
  cases h : a.isClear <;> simp [h]

theorem acceptedAt_last (a : Action) :
    acceptedAt least (history ++ [a]) history.length =
      a.event?.filter (·.level.passes (levelAfter least history)) := by
  simp [acceptedAt]

/-- **One more action:** an event that passes is added at the end, and clearing leaves none. -/
theorem accepted_concat (a : Action) :
    accepted least (history ++ [a]) =
      (if a.isClear then [] else accepted least history) ++
        (a.event?.filter (·.level.passes (levelAfter least history))).toList := by
  have hbefore : (List.range history.length).filterMap (acceptedAt least (history ++ [a])) =
      if a.isClear then [] else accepted least history := by
    rw [accepted, List.filterMap_congr fun i hi =>
      acceptedAt_concat least history a (List.mem_range.mp hi)]
    cases a.isClear <;> simp
  -- All places but the last one are settled; at the last one the new action is looked at.
  rw [accepted, List.length_append, List.length_singleton, List.range_succ, List.filterMap_append,
    hbefore, ← acceptedAt_last]
  cases h : acceptedAt least (history ++ [a]) history.length <;> simp [h]

end Logbook

/-! ## The room of a journal -/

namespace Journal

/-- What holds of a journal at any time: it has room, and holds no more events than it has room
for. -/
structure WithinRoom (j : Journal) : Prop where
  room : 1 ≤ j.capacity
  size_le : j.size ≤ j.capacity

theorem withinRoom_ofCapacity (capacity : Nat) : (ofCapacity capacity).WithinRoom where
  room := Nat.le_max_right _ _
  size_le := Nat.zero_le _

variable {j : Journal}

theorem WithinRoom.clear (h : j.WithinRoom) : j.clear.WithinRoom where
  room := h.room
  size_le := Nat.zero_le _

theorem size_keep (j : Journal) (e : Event) :
    (j.keep e).size = (if j.size = j.capacity then j.size - 1 else j.size) + 1 := by
  rw [size_eq_length_kept, kept_keep, List.length_append, List.length_singleton,
    ← size_eq_length_kept]
  split
  · rw [List.length_tail, ← size_eq_length_kept]
  · rw [← size_eq_length_kept]

/-- A journal that holds no more than it has room for goes on so. Only a full one forgets an event,
and one that is not full has room for one more, since it is not above its capacity. -/
theorem WithinRoom.keep (h : j.WithinRoom) (e : Event) : (j.keep e).WithinRoom where
  room := h.room
  size_le := by
    have hcapacity : (j.keep e).capacity = j.capacity := rfl
    rw [size_keep, hcapacity]
    rcases Nat.lt_or_eq_of_le h.size_le with hfree | hfull
    · rw [if_neg hfree.ne]
      exact hfree
    · -- One event goes and one comes.
      rw [if_pos hfull, Nat.sub_add_cancel (hfull ▸ h.room)]
      exact h.size_le

/-- Of the kept events and a new one, the newest are kept. -/
theorem WithinRoom.kept_keep_eq_rtake (h : j.WithinRoom) (e : Event) :
    (j.keep e).kept = (j.kept ++ [e]).rtake j.capacity := by
  have hsize := h.size_le
  rw [size_eq_length_kept] at hsize
  rw [kept_keep, List.rtake, List.length_append, List.length_singleton]
  rcases Nat.lt_or_eq_of_le hsize with hfree | hfull
  · rw [if_neg hfree.ne, Nat.sub_eq_zero_of_le hfree, List.drop_zero]
  · -- There is an oldest event, and it is the one that goes.
    have hpos : 1 ≤ j.kept.length := hfull ▸ h.room
    rw [if_pos hfull, hfull, Nat.add_sub_cancel_left, List.drop_append_of_le_length hpos,
      List.drop_one]

theorem WithinRoom.kept_eq_rtake (h : j.WithinRoom) : j.kept = j.kept.rtake j.capacity := by
  have hsize := h.size_le
  rw [size_eq_length_kept] at hsize
  rw [List.rtake, Nat.sub_eq_zero_of_le hsize, List.drop_zero]

theorem kept_clear (j : Journal) : j.clear.kept = [] := rfl

end Journal

namespace Logbook

/-- An action as seen through what it logs, what it sets and whether it clears. -/
theorem act_cases (b : Logbook) (a : Action) :
    (∃ e, a.event? = some e ∧ a.level? = none ∧ a.isClear = false ∧ b.act a = b.log e) ∨
    (∃ l, a.event? = none ∧ a.level? = some l ∧ a.isClear = false ∧
      b.act a = { b with least := l }) ∨
    (a.event? = none ∧ a.level? = none ∧ a.isClear = true ∧
      b.act a = { b with journal := b.journal.clear }) := by
  cases a with
  | log e => exact .inl ⟨e, rfl, rfl, rfl, rfl⟩
  | logError code message => exact .inl ⟨_, rfl, rfl, rfl, rfl⟩
  | logSuccess code message => exact .inl ⟨_, rfl, rfl, rfl, rfl⟩
  | setLeast l => exact .inr (.inl ⟨l, rfl, rfl, rfl, rfl⟩)
  | clear => exact .inr (.inr ⟨rfl, rfl, rfl, rfl⟩)

theorem least_log (b : Logbook) (e : Event) : (b.log e).least = b.least := by
  rw [log]
  split <;> rfl

theorem capacity_log (b : Logbook) (e : Event) :
    (b.log e).journal.capacity = b.journal.capacity := by
  rw [log]
  split <;> rfl

theorem withinRoom_log {b : Logbook} (h : b.journal.WithinRoom) (e : Event) :
    (b.log e).journal.WithinRoom := by
  rw [log]
  split
  · exact h.keep e
  · exact h

theorem kept_log {b : Logbook} (h : b.journal.WithinRoom) (e : Event) :
    (b.log e).journal.kept =
      (b.journal.kept ++ ((some e).filter (·.level.passes b.least)).toList).rtake
        b.journal.capacity := by
  by_cases hpasses : e.level.passes b.least = true
  · simp [log, hpasses, Option.filter, h.kept_keep_eq_rtake]
  · simpa [log, hpasses, Option.filter] using h.kept_eq_rtake

/-! ## What one action does -/

variable (b : Logbook) (a : Action)

theorem least_act : (b.act a).least = a.level?.getD b.least := by
  obtain ⟨e, -, hlevel, -, hact⟩ | ⟨l, -, hlevel, -, hact⟩ | ⟨-, hlevel, -, hact⟩ := act_cases b a
  · rw [hact, hlevel, least_log, Option.getD_none]
  · rw [hact, hlevel, Option.getD_some]
  · rw [hact, hlevel, Option.getD_none]

theorem capacity_act : (b.act a).journal.capacity = b.journal.capacity := by
  obtain ⟨e, -, -, -, hact⟩ | ⟨l, -, -, -, hact⟩ | ⟨-, -, -, hact⟩ := act_cases b a
  · rw [hact, capacity_log]
  · rw [hact]
  · rw [hact]
    rfl

variable {b}

theorem withinRoom_act (h : b.journal.WithinRoom) : (b.act a).journal.WithinRoom := by
  obtain ⟨e, -, -, -, hact⟩ | ⟨l, -, -, -, hact⟩ | ⟨-, -, -, hact⟩ := act_cases b a
  · rw [hact]
    exact withinRoom_log h e
  · rw [hact]
    exact h
  · rw [hact]
    exact h.clear

/-- **One action:** unless everything is cleared, the newest of what was kept and of what passes. -/
theorem kept_act (h : b.journal.WithinRoom) :
    (b.act a).journal.kept =
      ((if a.isClear then [] else b.journal.kept) ++
        (a.event?.filter (·.level.passes b.least)).toList).rtake b.journal.capacity := by
  obtain ⟨e, hevent, -, hclear, hact⟩ | ⟨l, hevent, -, hclear, hact⟩ | ⟨hevent, -, hclear, hact⟩ :=
    act_cases b a
  · simp [hact, hevent, hclear, kept_log h]
  · simpa [hact, hevent, hclear] using h.kept_eq_rtake
  · simp [hact, hevent, hclear, Journal.kept_clear]

/-! ## Whole histories -/

/-- Events that are too old do not matter for what is kept later. -/
theorem rtake_append_rtake (n : Nat) (es fs : List Event) :
    (es.rtake n ++ fs).rtake n = (es ++ fs).rtake n := by
  simp [List.rtake_eq_reverse_take_reverse, List.take_append, List.take_take]

/-- What is known of a logbook after a history. -/
structure Follows (b : Logbook) (room : Nat) (first : LogLevel) (history : List Action) : Prop where
  least : b.least = levelAfter first history
  capacity : b.journal.capacity = max room 1
  within : b.journal.WithinRoom
  kept : b.journal.kept = (accepted first history).rtake (max room 1)

theorem follows_start (capacity : Nat) (least : LogLevel) :
    (start capacity least).Follows capacity least [] where
  least := rfl
  capacity := rfl
  within := Journal.withinRoom_ofCapacity capacity
  kept := by simp [start, Journal.ofCapacity, Journal.kept, accepted]

theorem Follows.act {b : Logbook} {capacity : Nat} {least : LogLevel} {history : List Action}
    (h : b.Follows capacity least history) (a : Action) :
    (b.act a).Follows capacity least (history ++ [a]) where
  least := by rw [least_act, h.least, levelAfter_concat]
  capacity := by rw [capacity_act, h.capacity]
  within := withinRoom_act a h.within
  kept := by
    rw [kept_act a h.within, accepted_concat, h.capacity, h.kept, h.least]
    cases a.isClear with
    | true => rfl
    | false =>
      -- What the journal has dropped would be dropped now at the latest.
      exact rtake_append_rtake _ _ _

theorem follows_run (capacity : Nat) (least : LogLevel) (history : List Action) :
    ((start capacity least).run history).Follows capacity least history := by
  -- A history grows at its end, as the logbook does.
  induction history using List.reverseRecOn with
  | nil => exact follows_start capacity least
  | append_singleton history a ih =>
    rw [run, List.foldl_append]
    exact ih.act a

end Logbook

/-! ## Answers -/

/-- Everything that a journal tells is about some events. -/
structure Journal.TellsOf (j : Journal) (es : List Event) : Prop where
  kept : j.kept = es
  size : j.size = es.length
  warnings : j.warnings = es.filter (·.level = .warning)
  withCode : ∀ code, j.withCode code = es.filter (·.code = code)
  hasError : ∀ code, j.hasError code = true ↔ ∃ e ∈ es, e.level = .error ∧ e.code = code

theorem Journal.tellsOf_kept (j : Journal) : j.TellsOf j.kept where
  kept := rfl
  size := j.size_eq_length_kept
  warnings := rfl
  withCode _ := rfl
  hasError code := by simp [hasError]

/-- **The newest events that count are kept,** and no others: after any history, a journal tells of
the last ones that passed the filter when they were logged and were not cleared since, as many as
its capacity and at least one. -/
theorem Logbook.run_newest (capacity : Nat) (least : LogLevel) (history : List Action) :
    ((start capacity least).run history).journal.TellsOf
        ((accepted least history).rtake (max capacity 1)) ∧
      ((start capacity least).run history).journal.size ≤ max capacity 1 := by
  have hfollows := follows_run capacity least history
  refine ⟨hfollows.kept ▸ Journal.tellsOf_kept _, ?_⟩
  rw [← hfollows.capacity]
  exact hfollows.within.size_le

end DocTemplate
