import DocTemplate.Document.Draft
import DocTemplate.Proofs.SessionCalls

/-!
# The depth counter

A session's depth goes up where a body is entered and down where it is left, also when reading the
body has failed somewhere inside. So it is the same before and after every call, and between the two
it never passes the limit. Going down stops at 0, which could hide a call that goes down once too
often; nested reading keeps the counter as a value of its own, so that it shows there.

## Main statements

- `Session.depth_kept`: no call and no sequence of steps lets the depth pass the limit
-/

namespace DocTemplate

namespace Session

/-- What the user of a session can do that concerns its depth. -/
inductive Action where
  | call (c : Call)
  | enter
  | leave

/-- The session after an action, whether it has succeeded or not. -/
def act (s : Session) : Action → Session
  | .call c => (s.run c).2
  | .enter => s.enter.2
  | .leave => s.leave

/-- The limit is kept, and the place lies in the body. -/
structure Bounded (s s' : Session) : Prop where
  setting : s'.setting = s.setting
  positions : s'.cursor.positions = s.cursor.positions
  depth_le : s'.depth ≤ s.setting.limit
  inBody : s'.cursor.InBody

variable {s s' : Session}

/-- What a call does to the session, by what nested reading does. -/
theorem keeps_run (hplace : s.cursor.InBody) (c : Call) :
    Keeps (some s.setting.limit) s (s.run c).2 (s.descend (some s.setting.limit) c).peak := by
  rw [run_eq_descend]
  exact (s.descend_descends _ c).keeps hplace

/-- One action keeps the limit. -/
theorem Bounded.act (h : Bounded s s') (a : Action) : Bounded s (s'.act a) := by
  cases a with
  | call c =>
    have hkeeps := keeps_run h.inBody c
    exact
      { setting := hkeeps.setting.trans h.setting
        positions := hkeeps.positions.trans h.positions
        depth_le := hkeeps.depth.symm ▸ h.depth_le
        inBody := hkeeps.inBody }
  | enter =>
    rw [Session.act, enter]
    split
    next => exact h
    next hroom =>
      rw [h.setting] at hroom
      exact { h with depth_le := Nat.lt_of_not_le hroom }
  -- At 0 there is nothing to leave, and the depth stays.
  | leave => exact { h with depth_le := Nat.le_trans (Nat.sub_le _ _) h.depth_le }

/-- A sequence of actions keeps the limit. -/
theorem Bounded.acts (h : Bounded s s') (actions : List Action) :
    Bounded s (actions.foldl Session.act s') := by
  induction actions generalizing s' with
  | nil => exact h
  | cons a actions ih => exact ih (h.act a)

/-- **The depth is restored on every path.** Every call, whether it succeeds or fails, and wherever
it fails, does what nested reading does with a counter that begins at the session's depth. The
counter ends where it has begun, and on the way it does not pass the limit; the place goes on or
stays, inside the body. So however calls follow one another, and whatever is entered and left
between them, the depth does not pass the limit. -/
theorem depth_kept (s : Session) (hplace : s.cursor.InBody) (hdepth : s.depth ≤ s.setting.limit) :
    (∀ c : Call,
      s.run c = ((s.descend (some s.setting.limit) c).answer,
        (s.descend (some s.setting.limit) c).session) ∧
      (s.run c).2.depth = s.depth ∧
      s.depth ≤ (s.descend (some s.setting.limit) c).peak ∧
      (s.descend (some s.setting.limit) c).peak ≤ s.setting.limit ∧
      (s.run c).2.cursor.positions = s.cursor.positions ∧
      s.cursor.index ≤ (s.run c).2.cursor.index ∧
      (s.run c).2.cursor.index ≤ s.cursor.positions.length) ∧
    ∀ actions : List Action,
      (actions.foldl act s).depth ≤ s.setting.limit ∧
      (actions.foldl act s).cursor.positions = s.cursor.positions ∧
      (actions.foldl act s).cursor.index ≤ s.cursor.positions.length := by
  constructor
  · intro c
    have hkeeps := keeps_run hplace c
    exact ⟨s.run_eq_descend c, hkeeps.depth, hkeeps.depth_le_peak, hkeeps.peak_le _ rfl hdepth,
      hkeeps.positions, hkeeps.index_le, hkeeps.positions ▸ hkeeps.inBody⟩
  · intro actions
    have hstart : Bounded s s := ⟨rfl, rfl, hdepth, hplace⟩
    have hbounded := hstart.acts actions
    exact ⟨hbounded.depth_le, hbounded.positions, hbounded.positions ▸ hbounded.inBody⟩

/-- A session before a repetition. In the cell of the table inside, a further condition comes where
the limit is reached. -/
def beforeChain : Session :=
  let start := Session.start { compile := .fixed [], limit := 5 }
    (Draft.build
      [.paragraph [.text "a", .field ["m:for x | xs"]],
        .table [[[.paragraph [.field ["m:if a"], .field ["m:elseif b"], .field ["m:endif"]]]]],
        .paragraph [.field ["m:endfor"]]])
  { start with cursor := { start.cursor with index := 1 }, depth := 2 }

/-- The error that a result is, if it is one. -/
def error? {α : Type} : Except ParseError α → Option ParseError
  | .ok _ => none
  | .error e => some e

theorem depth_kept_beforeChain :
    beforeChain.cursor.InBody ∧ beforeChain.depth ≤ beforeChain.setting.limit ∧
      error? beforeChain.readLoop.1 = some (.nestingTooDeep 5) ∧
      beforeChain.readLoop.2.depth = 2 ∧
      ([.call .loop, .enter, .call .text, .leave, .leave, .enter].foldl act beforeChain).depth ≤
        5 := by
  have hplace : beforeChain.cursor.InBody := by
    show 1 ≤ beforeChain.cursor.positions.length
    decide +kernel
  have hdepth : beforeChain.depth ≤ beforeChain.setting.limit := by
    show 2 ≤ 5
    decide
  have hkept := depth_kept beforeChain hplace hdepth
  refine ⟨hplace, hdepth, by decide +kernel, (hkept.1 .loop).2.1, (hkept.2 _).1⟩

end Session

end DocTemplate
