import DocTemplate.Proofs.Numbering

/-!
# Dense numbers

Numbering goes through a body with two counters in hand and builds the numbered elements up behind
those it is done with. What is done is always numbered without gaps from where the counters stood to
where they stand, so the numbers of the whole body count from zero in document order. This is all
that can be asked of numbers: a body that has such numbers is not changed by numbering.

## Main statements

- `Body.Spans`: the numbers of a body count from some counters to others
- `Body.spans_number`, `Body.number_of_spans`: numbering gives such numbers, and keeps them
- `Body.unnumbered_number`: numbering changes nothing but numbers
- `Body.numbered_dense`: the numbers of a numbered body, and what is found by them
-/

namespace DocTemplate

/-! ## Counting -/

/-- The numbers count from `first` on, without gaps. -/
def CountsFrom (first : Nat) (ids : List Nat) : Prop := ids = List.range' first ids.length

theorem countsFrom_nil (first : Nat) : CountsFrom first [] := rfl

theorem countsFrom_append {first : Nat} {ids ids' : List Nat} :
    CountsFrom first (ids ++ ids') ↔
      CountsFrom first ids ∧ CountsFrom (first + ids.length) ids' := by
  have hrange : List.range' first (ids ++ ids').length =
      List.range' first ids.length ++ List.range' (first + ids.length) ids'.length := by
    rw [List.length_append, ← List.range'_append, Nat.one_mul]
  rw [CountsFrom, hrange]
  constructor
  · intro h
    exact List.append_inj h List.length_range'.symm
  · rintro ⟨h, h'⟩
    exact congrArg₂ _ h h'

theorem countsFrom_cons {first id : Nat} {ids : List Nat} :
    CountsFrom first (id :: ids) ↔ id = first ∧ CountsFrom (first + 1) ids := by
  rw [CountsFrom, List.length_cons, List.range'_succ, List.cons.injEq]
  rfl

theorem countsFrom_zero {ids : List Nat} : CountsFrom 0 ids ↔ ids = List.range ids.length := by
  rw [CountsFrom, List.range_eq_range']

namespace Body

theorem runs_flatten (bs : List Body) : runs bs.flatten = bs.flatMap runs := by
  induction bs with
  | nil => rfl
  | cons b bs ih => rw [List.flatten_cons, runs_append, ih, List.flatMap_cons]

theorem tableIds_flatten (bs : List Body) : tableIds bs.flatten = bs.flatMap tableIds := by
  induction bs with
  | nil => rfl
  | cons b bs ih => rw [List.flatten_cons, tableIds_append, ih, List.flatMap_cons]

/-- The numbers of a body count from `c` on, those of runs and those of tables, and `c'` comes after
them. -/
structure Spans (c : Counters) (b : Body) (c' : Counters) : Prop where
  runs : CountsFrom c.run (b.runs.map Run.id)
  tables : CountsFrom c.table b.tableIds
  run_after : c'.run = c.run + b.runs.length
  table_after : c'.table = c.table + b.tableIds.length

theorem spans_nil {c c' : Counters} : Spans c [] c' ↔ c' = c := by
  constructor
  · rintro ⟨-, -, hrun, htable⟩
    cases c
    cases c'
    congr
  · rintro rfl
    exact ⟨rfl, rfl, rfl, rfl⟩

/-- Of two bodies, one behind the other, the second goes on where the first has ended. -/
theorem spans_append {c c'' : Counters} {b b' : Body} :
    Spans c (b ++ b') c'' ↔ ∃ c', Spans c b c' ∧ Spans c' b' c'' := by
  constructor
  · rintro ⟨hruns, htables, hrun, htable⟩
    rw [runs_append, List.map_append, countsFrom_append] at hruns
    rw [tableIds_append, countsFrom_append] at htables
    rw [runs_append, List.length_append, ← Nat.add_assoc] at hrun
    rw [tableIds_append, List.length_append, ← Nat.add_assoc] at htable
    rw [List.length_map] at hruns
    exact ⟨⟨c.run + b.runs.length, c.table + b.tableIds.length⟩,
      ⟨hruns.1, htables.1, rfl, rfl⟩, ⟨hruns.2, htables.2, hrun, htable⟩⟩
  · rintro ⟨c', ⟨hruns, htables, hrun, htable⟩, ⟨hruns', htables', hrun', htable'⟩⟩
    constructor
    · rw [runs_append, List.map_append, countsFrom_append, List.length_map, ← hrun]
      exact ⟨hruns, hruns'⟩
    · rw [tableIds_append, countsFrom_append, ← htable]
      exact ⟨htables, htables'⟩
    · rw [runs_append, List.length_append, ← Nat.add_assoc, ← hrun, hrun']
    · rw [tableIds_append, List.length_append, ← Nat.add_assoc, ← htable, htable']

theorem spans_paragraph {c c' : Counters} {rs : List Run} :
    Spans c [.paragraph rs] c' ↔
      CountsFrom c.run (rs.map Run.id) ∧ c' = { c with run := c.run + rs.length } := by
  have hruns : runs [.paragraph rs] = rs := (runs_paragraph rs []).trans (List.append_nil rs)
  constructor
  · rintro ⟨hcounts, -, hrun, htable⟩
    rw [hruns] at hcounts hrun
    refine ⟨hcounts, ?_⟩
    cases c'
    congr
  · rintro ⟨hcounts, rfl⟩
    constructor
    · rwa [hruns]
    · exact countsFrom_nil c.table
    · rw [hruns]
    · rfl

/-- A table has its number before anything in its cells. -/
theorem spans_table {c c' : Counters} {id : TableId} {rows : List (List Body)} :
    Spans c [.table id rows] c' ↔
      id = c.table ∧ Spans { c with table := c.table + 1 } rows.flatten.flatten c' := by
  have hruns : runs [.table id rows] = runs rows.flatten.flatten := by
    rw [runs_table, runs_flatten, ← List.flatMap_id, List.flatMap_assoc]
    exact List.append_nil _
  have htables : tableIds [.table id rows] = id :: tableIds rows.flatten.flatten := by
    rw [tableIds_table, tableIds_flatten, ← List.flatMap_id, List.flatMap_assoc]
    exact List.append_nil _
  constructor
  · rintro ⟨hcounts, hcounts', hrun, htable⟩
    rw [hruns] at hcounts hrun
    rw [htables] at hcounts' htable
    obtain ⟨hid, hcounts'⟩ := countsFrom_cons.mp hcounts'
    refine ⟨hid, hcounts, hcounts', hrun, ?_⟩
    rw [htable, List.length_cons, Nat.add_assoc, Nat.add_comm 1]
  · rintro ⟨hid, hcounts, hcounts', hrun, htable⟩
    constructor
    · rwa [hruns]
    · rw [htables]
      exact countsFrom_cons.mpr ⟨hid, hcounts'⟩
    · rwa [hruns]
    · rw [htables, htable, List.length_cons, Nat.add_assoc, Nat.add_comm 1]

/-! ## Numbering gives such numbers -/

theorem numberRuns_cons (first : RunId) (r : Run) (rs : List Run) :
    numberRuns first (r :: rs) = { r with id := first } :: numberRuns (first + 1) rs := rfl

theorem countsFrom_numberRuns (first : RunId) (rs : List Run) :
    CountsFrom first ((numberRuns first rs).map Run.id) := by
  induction rs generalizing first with
  | nil => exact countsFrom_nil first
  | cons r rs ih =>
    rw [numberRuns_cons, List.map_cons]
    exact countsFrom_cons.mpr ⟨rfl, ih (first + 1)⟩

mutual

/-- What numbering adds to what it is done with goes on where that has ended. -/
theorem spans_numberElements {c₀ c : Counters} {done : List Element}
    (h : Spans c₀ done.reverse c) :
    ∀ b : List Element, Spans c₀ (numberElements c done b).1 (numberElements c done b).2
  | [] => h
  | e :: es => by
    apply spans_numberElements _ es
    rw [List.reverse_cons]
    exact spans_append.mpr ⟨c, h, spans_numberElement c e⟩

theorem spans_numberElement (c : Counters) :
    ∀ e : Element, Spans c [(numberElement c e).1] (numberElement c e).2
  | .paragraph runs => by
    have hlength : (numberRuns c.run runs).length = runs.length := by simp [numberRuns]
    rw [numberElement]
    exact spans_paragraph.mpr ⟨countsFrom_numberRuns c.run runs, by rw [hlength]⟩
  | .table _ rows =>
    -- The table takes its number first, and its cells count on from there.
    spans_table.mpr ⟨rfl, spans_numberRows (spans_nil.mpr rfl) rows⟩

theorem spans_numberRows {c₀ c : Counters} {done : List (List Body)}
    (h : Spans c₀ done.reverse.flatten.flatten c) :
    ∀ rows : List (List (List Element)),
      Spans c₀ (numberRows c done rows).1.flatten.flatten (numberRows c done rows).2
  | [] => h
  | r :: rs => by
    apply spans_numberRows _ rs
    rw [List.reverse_cons, List.flatten_append, List.flatten_append, List.flatten_singleton]
    exact spans_append.mpr ⟨c, h, spans_numberCells (spans_nil.mpr rfl) r⟩

theorem spans_numberCells {c₀ c : Counters} {done : List Body}
    (h : Spans c₀ done.reverse.flatten c) :
    ∀ cells : List (List Element),
      Spans c₀ (numberCells c done cells).1.flatten (numberCells c done cells).2
  | [] => h
  | b :: bs => by
    apply spans_numberCells _ bs
    rw [List.reverse_cons, List.flatten_append, List.flatten_singleton]
    exact spans_append.mpr ⟨c, h, spans_numberElements (spans_nil.mpr rfl) b⟩

end

theorem spans_number (b : Body) : Spans {} b.numbered b.number.2 :=
  spans_numberElements (spans_nil.mpr rfl) b

/-! ## Numbering keeps such numbers -/

theorem numberRuns_of_countsFrom {first : RunId} {rs : List Run}
    (h : CountsFrom first (rs.map Run.id)) : numberRuns first rs = rs := by
  induction rs generalizing first with
  | nil => rfl
  | cons r rs ih =>
    rw [List.map_cons] at h
    obtain ⟨rfl, hrest⟩ := countsFrom_cons.mp h
    rw [numberRuns_cons, ih hrest]

mutual

theorem numberElements_of_spans {c c' : Counters} {done : List Element} :
    ∀ {b : List Element}, Spans c b c' → numberElements c done b = (done.reverse ++ b, c')
  | [], h => by
    rw [spans_nil.mp h, numberElements, List.append_nil]
  | e :: es, h => by
    obtain ⟨c₁, he, hes⟩ := (spans_append (b := [e])).mp h
    rw [numberElements, numberElement_of_spans he]
    show numberElements c₁ (e :: done) es = _
    rw [numberElements_of_spans hes, List.reverse_cons, List.append_assoc, List.singleton_append]

theorem numberElement_of_spans {c c' : Counters} :
    ∀ {e : Element}, Spans c [e] c' → numberElement c e = (e, c')
  | .paragraph runs, h => by
    obtain ⟨hcounts, rfl⟩ := spans_paragraph.mp h
    rw [numberElement, numberRuns_of_countsFrom hcounts]
  | .table id rows, h => by
    obtain ⟨rfl, hrows⟩ := spans_table.mp h
    rw [numberElement, numberRows_of_spans hrows]
    rfl

theorem numberRows_of_spans {c c' : Counters} {done : List (List Body)} :
    ∀ {rows : List (List (List Element))}, Spans c rows.flatten.flatten c' →
      numberRows c done rows = (done.reverse ++ rows, c')
  | [], h => by
    rw [spans_nil.mp h, numberRows, List.append_nil]
  | r :: rs, h => by
    rw [List.flatten_cons, List.flatten_append] at h
    obtain ⟨c₁, hr, hrs⟩ := spans_append.mp h
    rw [numberRows, numberCells_of_spans hr]
    show numberRows c₁ (r :: done) rs = _
    rw [numberRows_of_spans hrs, List.reverse_cons, List.append_assoc, List.singleton_append]

theorem numberCells_of_spans {c c' : Counters} {done : List Body} :
    ∀ {cells : List (List Element)}, Spans c cells.flatten c' →
      numberCells c done cells = (done.reverse ++ cells, c')
  | [], h => by
    rw [spans_nil.mp h, numberCells, List.append_nil]
  | b :: bs, h => by
    rw [List.flatten_cons] at h
    obtain ⟨c₁, hb, hbs⟩ := spans_append.mp h
    rw [numberCells, numberElements_of_spans hb]
    show numberCells c₁ (b :: done) bs = _
    rw [numberCells_of_spans hbs, List.reverse_cons, List.append_assoc, List.singleton_append]

end

theorem number_of_spans {b : Body} {c : Counters} (h : Spans {} b c) : b.number = (b, c) :=
  numberElements_of_spans h

/-- **The numbers of a body are dense exactly if numbering does not change it.** -/
theorem isNumbered_iff (b : Body) : b.isNumbered = true ↔ b.numbered = b := by
  rw [isNumbered, Bool.and_eq_true, decide_eq_true_iff, decide_eq_true_iff]
  constructor
  · rintro ⟨hruns, htables⟩
    have hspans : Spans {} b ⟨b.runs.length, b.tableIds.length⟩ := by
      refine ⟨countsFrom_zero.mpr ?_, countsFrom_zero.mpr htables, ?_, ?_⟩
      · rwa [List.length_map]
      · exact (Nat.zero_add _).symm
      · exact (Nat.zero_add _).symm
    rw [numbered, number_of_spans hspans]
  · intro h
    have hspans := b.spans_number
    rw [h] at hspans
    refine ⟨?_, countsFrom_zero.mp hspans.tables⟩
    have hruns := countsFrom_zero.mp hspans.runs
    rwa [List.length_map] at hruns

/-! ## Nothing else is changed -/

theorem unnumberedElements_eq_map (b : List Element) :
    unnumberedElements b = b.map unnumberedElement := by
  induction b with
  | nil => rfl
  | cons e es ih => rw [unnumberedElements, ih, List.map_cons]

theorem unnumberedCells_eq_map (cells : List Body) :
    unnumberedCells cells = cells.map unnumberedElements := by
  induction cells with
  | nil => rfl
  | cons b bs ih => rw [unnumberedCells, ih, List.map_cons]

theorem unnumberedRows_eq_map (rows : List (List Body)) :
    unnumberedRows rows = rows.map unnumberedCells := by
  induction rows with
  | nil => rfl
  | cons r rs ih => rw [unnumberedRows, ih, List.map_cons]

theorem unnumbered_numberRuns (first : RunId) (rs : List Run) :
    (numberRuns first rs).map (fun r => { r with id := 0 }) =
      rs.map (fun r => { r with id := 0 }) := by
  induction rs generalizing first with
  | nil => rfl
  | cons r rs ih => rw [numberRuns_cons, List.map_cons, ih, List.map_cons]

mutual

theorem unnumbered_numberElements (c : Counters) (done : List Element) :
    ∀ b : List Element, unnumberedElements (numberElements c done b).1 =
      unnumberedElements (done.reverse ++ b)
  | [] => by rw [numberElements, List.append_nil]
  | e :: es => by
    have he := unnumbered_numberElement c e
    have hes := unnumbered_numberElements (numberElement c e).2 ((numberElement c e).1 :: done) es
    rw [numberElements]
    simpa [unnumberedElements_eq_map, he] using hes

theorem unnumbered_numberElement (c : Counters) :
    ∀ e : Element, unnumberedElement (numberElement c e).1 = unnumberedElement e
  | .paragraph runs => congrArg Element.paragraph (unnumbered_numberRuns c.run runs)
  | .table _ rows => by
    have hrows := unnumbered_numberRows { c with table := c.table + 1 } [] rows
    rw [numberElement]
    exact congrArg (Element.table 0) hrows

theorem unnumbered_numberRows (c : Counters) (done : List (List Body)) :
    ∀ rows : List (List (List Element)), unnumberedRows (numberRows c done rows).1 =
      unnumberedRows (done.reverse ++ rows)
  | [] => by rw [numberRows, List.append_nil]
  | r :: rs => by
    have hr := unnumbered_numberCells c [] r
    have hrs := unnumbered_numberRows (numberCells c [] r).2 ((numberCells c [] r).1 :: done) rs
    rw [numberRows]
    simpa [unnumberedRows_eq_map, hr] using hrs

theorem unnumbered_numberCells (c : Counters) (done : List Body) :
    ∀ cells : List (List Element), unnumberedCells (numberCells c done cells).1 =
      unnumberedCells (done.reverse ++ cells)
  | [] => by rw [numberCells, List.append_nil]
  | b :: bs => by
    have hb := unnumbered_numberElements c [] b
    have hbs := unnumbered_numberCells (numberElements c [] b).2
      ((numberElements c [] b).1 :: done) bs
    rw [numberCells]
    simpa [unnumberedCells_eq_map, hb] using hbs

end

theorem unnumbered_number (b : Body) : b.numbered.unnumbered = b.unnumbered :=
  unnumbered_numberElements {} [] b

/-! ## Finding runs -/

/-- Where the numbers count, the run with a number stands as far behind the first one. -/
theorem find?_of_countsFrom {first : RunId} {rs : List Run}
    (h : CountsFrom first (rs.map Run.id)) (i : Nat) :
    rs.find? (fun r => r.id = first + i) = rs[i]? := by
  induction rs generalizing first i with
  | nil => rfl
  | cons r rs ih =>
    rw [List.map_cons] at h
    obtain ⟨hid, hrest⟩ := countsFrom_cons.mp h
    cases i with
    | zero => simp [hid]
    | succ i =>
      have hpast : r.id ≠ first + (i + 1) := by
        intro heq
        rw [hid] at heq
        exact Nat.succ_ne_zero i (Nat.add_eq_left.mp heq.symm)
      rw [List.find?_cons_of_neg (by simpa using hpast), List.getElem?_cons_succ, ← ih hrest i]
      simp only [Nat.add_assoc, Nat.add_comm 1 i]

/-- **Numbering is dense, in document order, and stable.** It changes nothing but numbers. After it
the runs count from zero in document order, up to how many there are, and so do the tables, each
before those in its cells. Numbering again changes nothing, and the run with some number is the one
at that place. -/
theorem numbered_dense (b : Body) :
    b.numbered.unnumbered = b.unnumbered ∧
    b.number.2.run = b.numbered.runCount ∧
    b.numbered.runs.map Run.id = List.range b.numbered.runCount ∧
    b.numbered.tableIds = List.range b.number.2.table ∧
    b.numbered.number = b.number ∧
    ∀ i : RunId, b.numbered.findRun? i = b.numbered.runs[i]? := by
  have hspans := b.spans_number
  have hcount := b.numbered.runCount_eq_length_runs
  have hruns : b.number.2.run = b.numbered.runCount := by
    rw [hcount, hspans.run_after, Nat.zero_add]
  refine ⟨b.unnumbered_number, hruns, ?_, ?_, number_of_spans hspans, ?_⟩
  · have hids := countsFrom_zero.mp hspans.runs
    rwa [List.length_map, ← hcount] at hids
  · rw [hspans.table_after, Nat.zero_add]
    exact countsFrom_zero.mp hspans.tables
  · intro i
    have hfind := find?_of_countsFrom hspans.runs i
    rwa [Nat.zero_add, ← findRun?_eq_find?_runs] at hfind

end Body

end DocTemplate
