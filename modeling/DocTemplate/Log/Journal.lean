import DocTemplate.Log.Event

/-!
# The journal

A journal keeps the newest events, as many as its capacity allows, and at least one. In front of it
stands a filter: an event that does not pass the level in force when it is logged is not kept.
-/

namespace DocTemplate

/-- The newest events. -/
structure Journal where
  capacity : Nat
  /-- The kept events, oldest first. -/
  events : Array Event := #[]

namespace Journal

/-- An empty journal; one that can keep nothing is given room for one event. -/
def ofCapacity (capacity : Nat) : Journal := { capacity := max capacity 1 }

/-- The kept events, oldest first. -/
def kept (j : Journal) : List Event := j.events.toList

/-- Keep one more event. A journal that holds just as many as it has room for forgets the oldest
first. -/
def keep (j : Journal) (e : Event) : Journal :=
  let events := if j.events.size = j.capacity then j.events.extract 1 else j.events
  { j with events := events.push e }

/-- Forget every event. -/
def clear (j : Journal) : Journal := { j with events := #[] }

/-- How many events are kept. -/
def size (j : Journal) : Nat := j.events.size

/-- The kept events of a code. -/
def withCode (j : Journal) (code : String) : List Event := j.kept.filter (fun e => e.code = code)

/-- The kept warnings. -/
def warnings (j : Journal) : List Event := j.kept.filter (fun e => e.level = .warning)

/-- An error of this code is kept. -/
def hasError (j : Journal) (code : String) : Bool :=
  j.kept.any (fun e => e.level = .error && e.code = code)

/-- The size counts the kept events. -/
theorem size_eq_length_kept (j : Journal) : j.size = j.kept.length := (Array.length_toList).symm

/-- Keeping an event puts it at the end and lets the oldest go if all the room is taken. -/
theorem kept_keep (j : Journal) (e : Event) :
    (j.keep e).kept = (if j.kept.length = j.capacity then j.kept.tail else j.kept) ++ [e] := by
  rw [← size_eq_length_kept, keep, size, kept, Array.toList_push]
  split
  · rw [Array.toList_extract, List.extract_eq_take_drop, List.take_of_length_le (by simp),
      List.drop_one, kept]
  · rfl

end Journal

/-- A journal behind a filter. -/
structure Logbook where
  journal : Journal
  /-- What does not pass this level is not kept. -/
  least : LogLevel

namespace Logbook

/-- What can be done with a logbook. -/
inductive Action where
  | log (e : Event)
  | logError (code message : String)
  | logSuccess (code message : String)
  | setLeast (l : LogLevel)
  | clear

/-- Log an event. -/
def log (b : Logbook) (e : Event) : Logbook :=
  if e.level.passes b.least then { b with journal := b.journal.keep e } else b

/-- Do one thing. -/
def act (b : Logbook) : Action → Logbook
  | .log e => b.log e
  | .logError code message => b.log (.error code message)
  | .logSuccess code message => b.log (.success code message)
  | .setLeast l => { b with least := l }
  | .clear => { b with journal := b.journal.clear }

/-- Log several events. -/
def logAll (b : Logbook) (es : List Event) : Logbook := es.foldl log b

/-- One line on how events are handled: filter, form, console and room. -/
def summaryLine (least : LogLevel) (structured console : Bool) (capacity : Nat) : String :=
  "Logging: level=" ++ least.title ++ " structured=" ++ toString structured ++
    " console=" ++ toString console ++ " buffer=" ++ toString capacity

/-- A report on the state of logging. -/
def report (started : Bool) (summary : String) : String :=
  "=== Logging System Diagnostics ===\nInitialized: " ++ toString started ++ "\n" ++ summary ++
    "\n"

end Logbook

end DocTemplate
