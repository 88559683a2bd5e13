import DocTemplate.Parse.Reading
import Mathlib.Data.List.Forall2

/-!
# Reading cells

The stray tags that a reading has met are carried along through the cells of its tables, but nothing
depends on them. So a cell is read as if it stood alone, and a table is read cell by cell.

## Main statements

- `readTokens_noting`: stray tags met before a reading stay in front of those that it meets
- `cellTemplates_eq_ok_iff`: reading the rows of a table succeeds with the templates of its cells
- `readToken_table_ok`, `readToken_table_error`: what reading a table does
-/

namespace DocTemplate

/-! ## Stray tags met before -/

namespace Progress

/-- The reading with stray tags that were met before it. -/
def noting (p : Progress) (more : List Stray) : Progress := { p with strays := p.strays ++ more }

theorem push_noting (p : Progress) (c : Construct) (more : List Stray) :
    (p.noting more).push c = (p.push c).noting more := by
  simp only [push, noting]
  cases p.levels <;> rfl

theorem settle_noting (p : Progress) (more : List Stray) :
    (p.noting more).settle = p.settle.noting more := by
  have hstretch : (p.noting more).stretch = p.stretch := rfl
  rw [settle, settle, hstretch]
  split
  · rfl
  · rw [push_noting]
    rfl

theorem swallow_noting (p : Progress) (k : Keyword) (f : Field) (more : List Stray) :
    (p.noting more).swallow k f = (p.swallow k f).noting more := by
  simp only [swallow, noting, depth]
  cases p.levels <;> rfl

theorem finish_noting (p : Progress) (more : List Stray) :
    (p.noting more).finish = p.finish.noting more := by
  simp only [finish, settle_noting]
  rfl

end Progress

/-- What one token leads to, after stray tags that were met before. -/
def Step.noting (more : List Stray) : Step → Step
  | .next p => .next (p.noting more)
  | .fail e taken p => .fail e taken (p.noting more)

theorem Progress.openLevel_noting (p : Progress) (s : Setting) (level : Nat → Level)
    (more : List Stray) :
    (p.noting more).openLevel s level = (p.openLevel s level).noting more := by
  simp only [openLevel]
  have hdepth : (p.noting more).depth = p.depth := rfl
  rw [hdepth]
  split <;> rfl

theorem Progress.readTag_noting (p : Progress) (s : Setting) (k : Keyword) (f : Field)
    (more : List Stray) : (p.noting more).readTag s k f = (p.readTag s k f).noting more := by
  -- Which way a tag goes depends on its keyword and on the levels, not on the strays.
  have hlevels : (p.noting more).levels = p.levels := rfl
  cases k with
  | query | image | diagram => simp only [readTag, push_noting, Step.noting]
  | forEach | ifThen => simp only [readTag, openLevel_noting]
  | element | binding => rfl
  | endBinding => simp only [readTag, swallow_noting, Step.noting]
  | endFor | endIf =>
    simp only [readTag, hlevels, swallow_noting, closeLevel]
    split
    · split <;> simp only [Step.noting, ← push_noting] <;> rfl
    · rfl
  | elseIf =>
    simp only [readTag, hlevels, swallow_noting]
    split
    · split
      · split <;> rfl
      · rfl
    · rfl
  | otherwise =>
    simp only [readTag, hlevels, swallow_noting]
    split
    · split <;> rfl
    · rfl

mutual

/-- **Stray tags met before a reading change nothing in it.** -/
theorem readTokens_noting (s : Setting) (more : List Stray) :
    ∀ (ts : List Token) (p : Progress),
      readTokens s ts (p.noting more) =
        { readTokens s ts p with progress := (readTokens s ts p).progress.noting more }
  | [], p => by simp only [readTokens, Progress.finish_noting]
  | t :: ts, p => by
    have hstops : (p.noting more).stopsAt t.kind = p.stopsAt t.kind := rfl
    rw [readTokens, readTokens, hstops, readToken_noting s more t p]
    split
    · simp only [Progress.settle_noting]
    · cases readToken s t p with
      | next p' => simp only [Step.noting, readTokens_noting s more ts p']
      | fail e taken p' => rfl

theorem readToken_noting (s : Setting) (more : List Stray) :
    ∀ (t : Token) (p : Progress), readToken s t (p.noting more) = (readToken s t p).noting more
  | .text r, p => rfl
  | .tag k f, p => by
    rw [readToken, readToken, Progress.settle_noting, Progress.readTag_noting]
  | .table id rows, p => by
    have hdepth : (p.settle.noting more).depth = p.settle.depth := rfl
    -- The cells are read with the strays met so far, which come back longer.
    have hstrays : (p.settle.noting more).strays = p.settle.strays ++ more := rfl
    simp only [readToken, Progress.settle_noting, hdepth, hstrays,
      readRows_noting s more p.settle.depth rows]
    cases readRows s p.settle.depth rows [] p.settle.strays with
    | mk result strays =>
      cases result with
      | ok rows => simp only [Step.noting, Progress.push_noting]; rfl
      | error e => rfl

theorem readRows_noting (s : Setting) (more : List Stray) (depth : Nat) :
    ∀ (rows : List (List (List Token))) (done : List (List Template)) (strays : List Stray),
      readRows s depth rows done (strays ++ more) =
        ((readRows s depth rows done strays).1, (readRows s depth rows done strays).2 ++ more)
  | [], done, strays => rfl
  | r :: rs, done, strays => by
    simp only [readRows, readCells_noting s more depth r]
    cases readCells s depth r [] strays with
    | mk result strays =>
      cases result with
      | ok cells => simp only [readRows_noting s more depth rs]
      | error e => rfl

theorem readCells_noting (s : Setting) (more : List Stray) (depth : Nat) :
    ∀ (cells : List (List Token)) (done : List Template) (strays : List Stray),
      readCells s depth cells done (strays ++ more) =
        ((readCells s depth cells done strays).1, (readCells s depth cells done strays).2 ++ more)
  | [], done, strays => rfl
  | c :: cs, done, strays => by
    have hstart : Progress.start [.endOfBody] (depth + 1) (strays ++ more) =
        (Progress.start [.endOfBody] (depth + 1) strays).noting more := rfl
    simp only [readCells, hstart, readTokens_noting s more c]
    split
    · rfl
    · cases (readTokens s c (Progress.start [.endOfBody] (depth + 1) strays)).result with
      | ok k => simp only [Progress.noting, readCells_noting s more depth cs]
      | error e => rfl

end

/-! ## Success and failure of all cells -/

section MapM

variable {α β ε : Type} {f : α → Except ε β}

theorem mapM_eq_ok_iff {xs : List α} {ys : List β} :
    xs.mapM f = .ok ys ↔ List.Forall₂ (fun x y => f x = .ok y) xs ys := by
  induction xs generalizing ys with
  | nil => cases ys <;> simp [pure, Except.pure]
  | cons x xs ih =>
    rw [List.mapM_cons]
    cases hx : f x with
    | error e => cases ys <;> simp [hx, bind, Except.bind]
    | ok y =>
      cases hxs : xs.mapM f with
      | error e =>
        cases ys with
        | nil => simp [bind, Except.bind]
        | cons y' ys =>
          -- Where a later element fails, no list of results fits.
          have hnot : ¬ List.Forall₂ (fun x y => f x = .ok y) xs ys := by
            rw [← ih, hxs]
            simp
          simp [bind, Except.bind, hnot]
      | ok zs =>
        cases ys with
        | nil => simp [bind, Except.bind, pure, Except.pure]
        | cons y' ys =>
          rw [List.forall₂_cons, ← ih, hxs, hx]
          simp [bind, Except.bind, pure, Except.pure]

/-- Every element has a result. -/
theorem exists_of_mapM_eq_ok {xs : List α} {ys : List β} (h : xs.mapM f = .ok ys) :
    ∀ x ∈ xs, ∃ y, f x = .ok y := by
  have hall := mapM_eq_ok_iff.mp h
  clear h
  induction hall with
  | nil => simp
  | cons hx hrest ih => exact List.forall_mem_cons.mpr ⟨⟨_, hx⟩, ih⟩

theorem mapM_eq_error {xs : List α} {e : ε} (h : xs.mapM f = .error e) :
    ∃ before x after, xs = before ++ x :: after ∧ (∀ y ∈ before, ∃ b, f y = .ok b) ∧
      f x = .error e := by
  induction xs with
  | nil => simp [pure, Except.pure] at h
  | cons x xs ih =>
    rw [List.mapM_cons] at h
    cases hx : f x with
    | error e' =>
      simp only [hx, bind, Except.bind, Except.error.injEq] at h
      exact ⟨[], x, xs, rfl, by simp, by rw [hx, h]⟩
    | ok y =>
      simp only [hx, bind, Except.bind] at h
      cases hxs : xs.mapM f with
      | ok ys => simp [hxs, pure, Except.pure] at h
      | error e' =>
        simp only [hxs, Except.error.injEq] at h
        obtain ⟨before, z, after, hsplit, hbefore, hz⟩ := ih (by rw [hxs, h])
        refine ⟨x :: before, z, after, by rw [hsplit]; rfl, ?_, hz⟩
        intro w hw
        rcases List.mem_cons.mp hw with rfl | hw
        · exact ⟨y, hx⟩
        · exact hbefore w hw

end MapM

/-! ## Two tables side by side -/

section SideBySide

variable {α β γ : Type}

theorem map_eq_map_iff_forall₂ {f : α → γ} {g : β → γ} {xs : List α} {ys : List β} :
    xs.map f = ys.map g ↔ List.Forall₂ (fun x y => f x = g y) xs ys := by
  rw [← List.forall₂_eq_eq_eq, List.forall₂_map_left_iff, List.forall₂_map_right_iff]

/-- What relates the cells at the same places may use where a cell stands. -/
theorem forall₂_cells_imp {R S : α → β → Prop} {rows : List (List α)} {ts : List (List β)}
    (h : List.Forall₂ (List.Forall₂ R) rows ts)
    (himp : ∀ row ∈ rows, ∀ c ∈ row, ∀ t, R c t → S c t) :
    List.Forall₂ (List.Forall₂ S) rows ts := by
  -- Where a cell stands is carried along as a second relation, first in its row, then in the table.
  have hrow : ∀ row ∈ rows, ∀ us, List.Forall₂ R row us → List.Forall₂ S row us := by
    intro row hmem us hus
    have hboth := (List.forall₂_and_left row us).mpr ⟨himp row hmem, hus⟩
    exact hboth.imp fun c t hct => hct.1 t hct.2
  have hboth := (List.forall₂_and_left rows ts).mpr ⟨hrow, h⟩
  exact hboth.imp fun row us hus => hus.1 us hus.2

theorem forall₂_and_right {R : α → β → Prop} {P : β → Prop} {xs : List α} {ys : List β} :
    List.Forall₂ (fun x y => R x y ∧ P y) xs ys ↔ List.Forall₂ R xs ys ∧ ∀ y ∈ ys, P y := by
  induction ys generalizing xs with
  | nil => simp
  | cons y ys ih =>
    simp only [List.forall₂_cons_right_iff, ih, List.forall_mem_cons]
    constructor
    · rintro ⟨x, xs, ⟨hR, hP⟩, ⟨hRs, hPs⟩, rfl⟩
      exact ⟨⟨x, xs, hR, hRs, rfl⟩, hP, hPs⟩
    · rintro ⟨⟨x, xs, hR, hRs, rfl⟩, hP, hPs⟩
      exact ⟨x, xs, ⟨hR, hP⟩, ⟨hRs, hPs⟩, rfl⟩

/-- What relates two tables cell by cell may say something of the second one alone. -/
theorem forall₂_cells_and_right {R : α → β → Prop} {P : β → Prop} {rows : List (List α)}
    {ts : List (List β)} :
    List.Forall₂ (List.Forall₂ fun c t => R c t ∧ P t) rows ts ↔
      List.Forall₂ (List.Forall₂ R) rows ts ∧ ∀ row ∈ ts, ∀ t ∈ row, P t := by
  have hrow : (List.Forall₂ fun c t => R c t ∧ P t) =
      fun row us => List.Forall₂ R row us ∧ ∀ t ∈ us, P t := by
    funext row us
    exact propext forall₂_and_right
  rw [hrow]
  exact forall₂_and_right

/-- What each cell of the first table says of the one at its place holds of all cells there. -/
theorem forall_cells_right {P : β → Prop} {rows : List (List α)} {ts : List (List β)}
    (h : List.Forall₂ (List.Forall₂ fun _ t => P t) rows ts) : ∀ row ∈ ts, ∀ t ∈ row, P t := by
  have hboth : List.Forall₂ (List.Forall₂ fun _ t => True ∧ P t) rows ts :=
    h.imp fun row us hrow => hrow.imp fun c t ht => ⟨trivial, ht⟩
  exact (forall₂_cells_and_right.mp hboth).2

/-- What holds of lists one by one holds of their concatenations. -/
theorem forall₂_flatMap {r : List γ → List γ → Prop} (hnil : r [] [])
    (happend : ∀ {a b c d : List γ}, r a b → r c d → r (a ++ c) (b ++ d)) {f : α → List γ}
    {g : β → List γ} {xs : List α} {ys : List β}
    (h : List.Forall₂ (fun x y => r (f x) (g y)) xs ys) : r (xs.flatMap f) (ys.flatMap g) := by
  induction h with
  | nil => exact hnil
  | cons hxy hrest ih => exact happend hxy ih

/-- What holds of cells one by one holds of all cells taken in order. -/
theorem forall₂_flatMap_cells {r : List γ → List γ → Prop} (hnil : r [] [])
    (happend : ∀ {a b c d : List γ}, r a b → r c d → r (a ++ c) (b ++ d)) {f : α → List γ}
    {g : β → List γ} {rows : List (List α)} {ts : List (List β)}
    (h : List.Forall₂ (List.Forall₂ (fun c t => r (f c) (g t))) rows ts) :
    r (rows.flatMap (fun row => row.flatMap f)) (ts.flatMap (fun row => row.flatMap g)) :=
  forall₂_flatMap hnil happend (h.imp fun _ _ hrow => forall₂_flatMap hnil happend hrow)

/-- All cells give nothing exactly if each one does. -/
theorem flatMap_cells_eq_nil_iff {P : α → Prop} {g : β → List γ} {rows : List (List α)}
    {ts : List (List β)} (h : List.Forall₂ (List.Forall₂ (fun c t => g t = [] ↔ P c)) rows ts) :
    ts.flatMap (fun row => row.flatMap g) = [] ↔ ∀ row ∈ rows, ∀ c ∈ row, P c := by
  have hrow : ∀ {row us}, List.Forall₂ (fun c t => g t = [] ↔ P c) row us →
      (us.flatMap g = [] ↔ ∀ c ∈ row, P c) := by
    intro row us hus
    induction hus with
    | nil => simp
    | cons hct hrest ih => simp only [List.flatMap_cons, List.append_eq_nil_iff, hct, ih,
        List.forall_mem_cons]
  induction h with
  | nil => simp
  | cons hfirst hrest ih => simp only [List.flatMap_cons, List.append_eq_nil_iff, hrow hfirst, ih,
      List.forall_mem_cons]

end SideBySide

/-! ## A table is read cell by cell -/

/-- The template of tokens that stand in a body of this depth, or why there is none. -/
def Template.ofTokens (s : Setting) (depth : Nat) (ts : List Token) : Except ParseError Template :=
  (readTemplate s depth ts).result

/-- The templates of the cells of a table, or the first error. -/
def cellTemplates (s : Setting) (depth : Nat) (rows : List (List (List Token))) :
    Except ParseError (List (List Template)) :=
  rows.mapM (fun r => r.mapM (Template.ofTokens s depth))

theorem readCells_cons (s : Setting) (depth : Nat) (c : List Token) (cs : List (List Token))
    (done : List Template) (strays : List Stray) :
    readCells s depth (c :: cs) done strays =
      match Template.ofTokens s depth c with
      | .ok t => readCells s depth cs (t :: done) ((readTemplate s depth c).strays.reverse ++ strays)
      | .error e => (.error e, (readTemplate s depth c).strays.reverse ++ strays) := by
  -- The strays met before the cell are put aside, so that the cell is read as by itself.
  have hstart : Progress.start [.endOfBody] (depth + 1) strays =
      (Progress.start [.endOfBody] (depth + 1) []).noting strays := rfl
  simp only [readCells, Template.ofTokens, readTemplate, readBlock, hstart, readTokens_noting]
  split
  · rfl
  · simp only [Progress.start]
    cases (readTokens s c { block := { stops := [.endOfBody], depth := depth + 1 } }).result with
    | ok k => simp [Except.map, Progress.noting, Block.toSection, Block.tag]
    | error e => simp [Except.map, Progress.noting]

/-- The stray tags in the cells of a table, in document order. -/
def cellStrays (s : Setting) (depth : Nat) (rows : List (List (List Token))) : List Stray :=
  rows.flatMap (fun r => r.flatMap (fun c => (readTemplate s depth c).strays))

theorem readCells_fst (s : Setting) (depth : Nat) (cs : List (List Token)) :
    ∀ (done : List Template) (strays : List Stray),
      (readCells s depth cs done strays).1 =
        (cs.mapM (Template.ofTokens s depth)).map (done.reverse ++ ·) := by
  induction cs with
  | nil => intro done strays; simp [readCells, Except.map, pure, Except.pure]
  | cons c cs ih =>
    intro done strays
    rw [readCells_cons, List.mapM_cons]
    cases Template.ofTokens s depth c with
    | error e => rfl
    | ok t =>
      rw [ih]
      cases cs.mapM (Template.ofTokens s depth) with
      | error e => rfl
      | ok ts => simp [Except.map, bind, Except.bind, pure, Except.pure]

theorem readRows_fst (s : Setting) (depth : Nat) (rows : List (List (List Token))) :
    ∀ (done : List (List Template)) (strays : List Stray),
      (readRows s depth rows done strays).1 =
        (cellTemplates s depth rows).map (done.reverse ++ ·) := by
  induction rows with
  | nil => intro done strays; simp [readRows, cellTemplates, Except.map, pure, Except.pure]
  | cons r rs ih =>
    intro done strays
    -- The first row is read from no cells, the later rows after those already done.
    have hcells := readCells_fst s depth r [] strays
    rw [cellTemplates, List.mapM_cons, readRows]
    cases hread : readCells s depth r [] strays with
    | mk result strays' =>
      rw [hread] at hcells
      simp only [List.reverse_nil, List.nil_append] at hcells
      cases hr : r.mapM (Template.ofTokens s depth) with
      | error e =>
        rw [hr] at hcells
        simp only [Except.map] at hcells
        subst hcells
        rfl
      | ok ts =>
        rw [hr] at hcells
        simp only [Except.map] at hcells
        subst hcells
        simp only [ih, cellTemplates]
        cases rs.mapM (fun r => r.mapM (Template.ofTokens s depth)) with
        | error e => rfl
        | ok tss => simp [Except.map, bind, Except.bind, pure, Except.pure]

/-- All cells are read exactly when each one is, to the template at its place. -/
theorem cellTemplates_eq_ok_iff {s : Setting} {depth : Nat} {rows : List (List (List Token))}
    {ts : List (List Template)} :
    cellTemplates s depth rows = .ok ts ↔
      List.Forall₂ (List.Forall₂ (fun c t => Template.ofTokens s depth c = .ok t)) rows ts := by
  rw [cellTemplates, mapM_eq_ok_iff]
  simp only [mapM_eq_ok_iff]

/-- Each cell of a table that is read has a template. -/
theorem exists_of_cellTemplates_eq_ok {s : Setting} {depth : Nat} {rows : List (List (List Token))}
    {ts : List (List Template)} (h : cellTemplates s depth rows = .ok ts) :
    ∀ row ∈ rows, ∀ c ∈ row, ∃ t, Template.ofTokens s depth c = .ok t := by
  intro row hrow
  obtain ⟨us, hus⟩ := exists_of_mapM_eq_ok h row hrow
  exact exists_of_mapM_eq_ok hus

theorem readCells_snd {s : Setting} {depth : Nat} {cs : List (List Token)} {ts : List Template}
    (hcells : List.Forall₂ (fun c t => Template.ofTokens s depth c = .ok t) cs ts) :
    ∀ (done : List Template) (strays : List Stray),
      (readCells s depth cs done strays).2 =
        (cs.flatMap (fun c => (readTemplate s depth c).strays)).reverse ++ strays := by
  induction hcells with
  | nil => intro done strays; simp [readCells]
  | cons hc _ ih => intro done strays; rw [readCells_cons, hc]; simp [ih]

theorem readRows_snd {s : Setting} {depth : Nat} {rows : List (List (List Token))}
    {tss : List (List Template)}
    (hrows : List.Forall₂ (List.Forall₂ (fun c t => Template.ofTokens s depth c = .ok t)) rows tss) :
    ∀ (done : List (List Template)) (strays : List Stray),
      (readRows s depth rows done strays).2 = (cellStrays s depth rows).reverse ++ strays := by
  induction hrows with
  | nil => intro done strays; simp [readRows, cellStrays]
  | @cons r ts rs tss hr _ ih =>
    intro done strays
    have hfst := readCells_fst s depth r [] strays
    have hsnd := readCells_snd hr [] strays
    rw [mapM_eq_ok_iff.mpr hr] at hfst
    rw [readRows]
    cases hread : readCells s depth r [] strays with
    | mk result strays' =>
      simp only [hread, Except.map] at hfst hsnd
      subst hfst hsnd
      simp [ih, cellStrays]

theorem Progress.depth_push (p : Progress) (c : Construct) : (p.push c).depth = p.depth := by
  simp only [push, depth]
  cases p.levels <;> rfl

theorem Progress.strays_push (p : Progress) (c : Construct) : (p.push c).strays = p.strays := by
  simp only [push]
  cases p.levels <;> rfl

theorem Progress.depth_settle (p : Progress) : p.settle.depth = p.depth := by
  simp only [settle]
  split
  · rfl
  · exact depth_push p _

theorem Progress.strays_settle (p : Progress) : p.settle.strays = p.strays := by
  simp only [settle]
  split
  · rfl
  · exact strays_push p _

/-- A table whose cells are all read is one construct. -/
theorem readToken_table_ok {s : Setting} {rows : List (List (List Token))} {p : Progress}
    {ts : List (List Template)} (h : cellTemplates s p.depth rows = .ok ts) (id : TableId) :
    readToken s (.table id rows) p =
      .next { p.settle.push (.table id ts) with
        strays := (cellStrays s p.depth rows).reverse ++ p.strays } := by
  have hfst := readRows_fst s p.depth rows [] p.strays
  have hsnd := readRows_snd (cellTemplates_eq_ok_iff.mp h) [] p.strays
  rw [h] at hfst
  simp only [readToken, Progress.depth_settle, Progress.strays_settle]
  cases hread : readRows s p.depth rows [] p.strays with
  | mk result strays =>
    simp only [hread, Except.map, List.reverse_nil, List.nil_append] at hfst hsnd
    subst hfst hsnd
    rfl

/-- A table fails with the first of its cells that fails. -/
theorem readToken_table_error {s : Setting} {rows : List (List (List Token))} {p : Progress}
    {e : ParseError} (h : cellTemplates s p.depth rows = .error e) (id : TableId) :
    ∃ q, readToken s (.table id rows) p = .fail e true q := by
  have hfst := readRows_fst s p.depth rows [] p.strays
  rw [h] at hfst
  simp only [readToken, Progress.depth_settle, Progress.strays_settle]
  cases hread : readRows s p.depth rows [] p.strays with
  | mk result strays =>
    simp only [hread, Except.map] at hfst
    subst hfst
    exact ⟨_, rfl⟩

end DocTemplate
