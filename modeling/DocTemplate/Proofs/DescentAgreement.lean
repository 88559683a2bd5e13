import DocTemplate.Proofs.Blocks
import DocTemplate.Proofs.DescentRules

/-!
# Nested calls and open levels

Reading by nested calls does what reading with a list of open levels does. A call that reads a body
stands for the innermost body of a state: what it has collected is what that body holds, and its
counter is the depth of the body. A call that reads a level stands for what happens from the moment
the level is opened until its construct has been added to the body around it.

## Main statements

- `Reader.Ends.matches`: what every call means for the state of a reading
-/

namespace DocTemplate

/-! ## The innermost body of a state -/

namespace Progress

/-- The state with something else read of its innermost body, and with no stretch pending. -/
def holding (p : Progress) (g : Collected) (strays : List Stray) : Progress :=
  match p.levels with
  | [] =>
    { p with
      block := { p.block with swallowed := g.swallowed, body := g.body }
      stretch := []
      strays := strays }
  | l :: ls => { p with levels := l.filled g :: ls, stretch := [], strays := strays }

/-- The kinds of token that the innermost body ends before. -/
def innerStops (p : Progress) : List TokenKind :=
  match p.levels with
  | [] => p.block.stops
  | l :: _ => l.stops

section Holding

variable (p : Progress) (g : Collected) (strays : List Stray)

theorem stretch_holding : (p.holding g strays).stretch = [] := by
  unfold holding
  cases p.levels <;> rfl

theorem strays_holding : (p.holding g strays).strays = strays := by
  unfold holding
  cases p.levels <;> rfl

theorem settle_holding : (p.holding g strays).settle = p.holding g strays :=
  settle_of_nil (p.stretch_holding g strays)

theorem depth_holding : (p.holding g strays).depth = p.depth := by
  unfold holding depth
  cases p.levels <;> rfl

theorem innerStops_holding : (p.holding g strays).innerStops = p.innerStops := by
  unfold holding innerStops
  cases p.levels <;> rfl

theorem push_holding (c : Construct) :
    (p.holding g strays).push c = p.holding (g.push c) strays := by
  unfold holding push
  cases p.levels <;> rfl

theorem swallow_holding (k : Keyword) (f : Field) :
    (p.holding g strays).swallow k f = p.holding (g.swallow k f) (⟨k, p.depth⟩ :: strays) := by
  rw [swallow, depth_holding, strays_holding]
  unfold holding
  cases p.levels <;> rfl

theorem holding_withStrays (strays' : List Stray) :
    { p.holding g strays with strays := strays' } = p.holding g strays' := by
  unfold holding
  cases p.levels <;> rfl

end Holding

/-- A reading goes on over a token of no kind that the innermost body ends before. -/
theorem stopsAt_of_innerStops {p : Progress} {k : TokenKind} (h : k ∉ p.innerStops) :
    p.stopsAt k = false := by
  unfold innerStops at h
  unfold stopsAt
  cases hlevels : p.levels with
  | nil => simpa [hlevels] using h
  | cons l ls => rfl

theorem stopsAt_holding (p : Progress) {k : TokenKind} (h : k ∉ p.innerStops) (g : Collected)
    (strays : List Stray) : (p.holding g strays).stopsAt k = false := by
  apply stopsAt_of_innerStops
  rwa [innerStops_holding]

/-- What is open does not wait for a tag that the innermost body does not end before. -/
theorem advance_of_innerStops {p : Progress} {k : Keyword} (hterminator : k.isTerminator = true)
    (h : .tag k ∉ p.innerStops) : advance (.tag k) p.frames = none := by
  unfold innerStops at h
  unfold frames
  cases hlevels : p.levels with
  | nil => cases k <;> first | rfl | cases hterminator
  | cons l ls =>
    rw [hlevels] at h
    simp only [Level.stops] at h
    rw [List.map_cons]
    cases hframe : l.frame <;> rw [hframe] at h <;> cases k <;>
      simp_all [Keyword.isTerminator, advance]

end Progress

/-! ## Single steps of reading -/

section Steps

variable {s : Setting} {p q : Progress} {t : Token} {ts : List Token}

theorem readTokens_cons_next (hgo : p.stopsAt t.kind = false) (h : readToken s t p = .next q) :
    readTokens s (t :: ts) p = readTokens s ts q := by
  rw [readTokens, hgo, h]
  rfl

theorem readTokens_cons_fail {e : ParseError} {taken : Bool} (hgo : p.stopsAt t.kind = false)
    (h : readToken s t p = .fail e taken q) :
    readTokens s (t :: ts) p = ⟨q, if taken then ts else t :: ts, .error e⟩ := by
  rw [readTokens, hgo, h]
  rfl

/-- Whatever is not plain ends the stretch first. -/
theorem readTokens_settle (h : ts.head?.map Token.kind ≠ some .text) :
    readTokens s ts p.settle = readTokens s ts p := by
  have hsettled : p.settle.settle = p.settle := Progress.settle_of_nil p.stretch_settle
  cases ts with
  | nil => simp only [readTokens, Progress.finish, hsettled]
  | cons t ts =>
    have hstops : p.settle.stopsAt t.kind = p.stopsAt t.kind := by
      rw [Bool.eq_iff_iff, Progress.stopsAt_eq_true_iff, Progress.stopsAt_eq_true_iff,
        ← Progress.frames_eq_nil_iff, ← Progress.frames_eq_nil_iff, p.frames_settle,
        p.stops_settle]
    have hread : readToken s t p.settle = readToken s t p := by
      cases t with
      | text r => exact absurd rfl h
      | tag k f => simp only [readToken, hsettled]
      | table id rows => simp only [readToken, hsettled]
    rw [readTokens, readTokens, hstops, hread, hsettled]

/-- Plain runs extend the stretch, one after the other. -/
theorem readTokens_leadingRuns (hgo : .text ∉ p.innerStops) (xs : List RunId) (ts : List Token) :
    readTokens s ts { p with stretch := xs } =
      readTokens s (Token.behindText ts)
        { p with stretch := (Token.leadingRuns ts).reverse ++ xs } := by
  induction ts generalizing xs with
  | nil => rfl
  | cons t ts ih =>
    cases t with
    | tag | table => rfl
    | text x =>
      have hstops : { p with stretch := xs }.stopsAt (Token.text x).kind = false :=
        Progress.stopsAt_of_innerStops (p := { p with stretch := xs }) hgo
      have hread : readToken s (.text x) { p with stretch := xs } =
          .next { p with stretch := x :: xs } := by rw [readToken]
      rw [readTokens_cons_next hstops hread, ih (x :: xs)]
      simp [Token.behindText, Token.leadingRuns]

theorem behindText_head (ts : List Token) :
    (Token.behindText ts).head?.map Token.kind ≠ some .text := by
  fun_induction Token.behindText ts with
  | case1 x ts ih => exact ih
  | case2 ts hnot =>
    cases ts with
    | nil => simp
    | cons t ts => cases t <;> simp_all [Token.kind]

/-- All plain runs in front become one construct. -/
theorem readTokens_text (hgo : .text ∉ p.innerStops) (hstretch : p.stretch = []) (x : RunId) :
    readTokens s (.text x :: ts) p =
      readTokens s (Token.behindText ts)
        (p.push (.text { runs := x :: Token.leadingRuns ts })) := by
  have hread : readToken s (.text x) p = .next { p with stretch := [x] } := by
    rw [readToken, hstretch]
  rw [readTokens_cons_next (Progress.stopsAt_of_innerStops hgo) hread,
    readTokens_leadingRuns hgo, ← readTokens_settle (behindText_head ts),
    Progress.settle_of_ne_nil (by simp)]
  congr 1
  unfold Progress.push
  cases p.levels <;> simp [hstretch]

/-- An opening tag is refused where the limit is reached. -/
theorem readTag_of_limit {k : Keyword} {f : Field} {l : Level} {d : Nat}
    (hl : opened? s f d k = some l) (hlimit : s.limit ≤ p.depth) :
    p.readTag s k f = .fail (.nestingTooDeep s.limit) true p := by
  cases k <;> simp_all [opened?, Progress.readTag, Progress.openLevel]

/-- The end of the body closes the innermost level first. -/
theorem readTokens_nil_level (hstretch : p.stretch = []) (l : Level) :
    readTokens s [] { p with levels := l :: p.levels } = readTokens s [] (p.push l.closeAtEnd) := by
  have hpushed : (p.push l.closeAtEnd).settle = p.push l.closeAtEnd :=
    Progress.settle_of_nil ((p.stretch_push _).trans hstretch)
  have hopen : { p with levels := l :: p.levels }.settle = { p with levels := l :: p.levels } :=
    Progress.settle_of_nil hstretch
  rw [readTokens, readTokens, Progress.finish, Progress.finish, hpushed, hopen]
  unfold Progress.push
  cases p.levels <;> simp [Progress.closeLevels]

end Steps

/-! ## What calls mean -/

/-- Reading from the one state comes to the other state, or it fails there. -/
def Continues {α : Type} (s : Setting) (ts : List Token) (p : Progress) :
    Except ParseError α → List Token → Progress → Prop
  | .ok _, ts', p' => readTokens s ts p = readTokens s ts' p'
  | .error e, ts', p' =>
    ∃ q, readTokens s ts p = ⟨q, ts', .error e⟩ ∧ q.strays = p'.strays ∧ q.block = p'.block

theorem Continues.after {α : Type} {s : Setting} {ts us vs : List Token} {p q p' : Progress}
    {answer : Except ParseError α} (h : readTokens s ts p = readTokens s us q)
    (hrest : Continues s us q answer vs p') : Continues s ts p answer vs p' := by
  cases answer with
  | ok a => exact h.trans hrest
  | error e =>
    obtain ⟨q', hread, hq'⟩ := hrest
    exact ⟨q', h.trans hread, hq'⟩

/-- A level in whose body nothing has been read. -/
structure Level.Fresh (l : Level) (depth : Nat) : Prop where
  depth : l.depth = depth
  filled : l.filled {} = l

theorem opened?_fresh {s : Setting} {f : Field} {d : Nat} {k : Keyword} {l : Level}
    (h : opened? s f d k = some l) : l.Fresh d := by
  unfold opened? at h
  split at h <;> cases h <;> exact ⟨rfl, rfl⟩

/-- The state after a level has been read: unless that failed, its construct has been added. -/
def Progress.adding (p : Progress) (answer : Except ParseError Construct) (strays : List Stray) :
    Progress :=
  { answer.toOption.elim p p.push with strays := strays }

theorem Progress.adding_withStrays (p : Progress) (answer : Except ParseError Construct)
    (strays strays' : List Stray) :
    { p with strays := strays }.adding answer strays' = p.adding answer strays' := by
  cases answer with
  | error e => rfl
  | ok c =>
    unfold adding push
    cases p.levels <;> rfl

namespace Reader

/-- The innermost body of the state is one that a call reads which stops before these kinds and
whose counter stands at this depth. -/
structure Stands (p : Progress) (stops : List TokenKind) (depth : Nat) : Prop where
  stops : p.innerStops = stops
  depth : p.depth = depth

/-- What a call means for a reading. -/
def Matches (s : Setting) : Task → Reader → Answer → Reader → Prop
  | .turn stops g, r, .goesOn g', r' =>
    ∀ p, Stands p stops r.depth →
      readTokens s r.ahead (p.holding g r.trace.strays) =
        readTokens s r'.ahead (p.holding g' r'.trace.strays)
  | .turn stops g, r, .returns answer g', r' | .constructs stops g, r, .returns answer g', r' =>
    ∀ p, Stands p stops r.depth →
      Continues s r.ahead (p.holding g r.trace.strays) answer r'.ahead
        (p.holding g' r'.trace.strays)
  | .block stops g, r, .returns answer g', r' =>
    if s.limit ≤ r.depth then answer = .error (.nestingTooDeep s.limit) ∧ g' = g ∧ r' = r
    else ∀ p, Stands p stops (r.depth + 1) →
      Continues s r.ahead (p.holding g r.trace.strays) answer r'.ahead
        (p.holding g' r'.trace.strays)
  | .level l, r, .built answer, r' =>
    l.Fresh (r.depth + 1) →
      if s.limit ≤ r.depth then answer = .error (.nestingTooDeep s.limit) ∧ r' = r
      else ∀ p : Progress, p.stretch = [] → p.strays = r.trace.strays →
        Continues s r.ahead { p with levels := l :: p.levels } answer r'.ahead
          (p.adding answer r'.trace.strays)
  | .cells row, r, .cells answer, r' =>
    r'.ahead = r.ahead ∧ ∀ done, readCells s r.depth row done r.trace.strays =
      (answer.map (done.reverse ++ ·), r'.trace.strays)
  | .rows rows, r, .rows answer, r' =>
    r'.ahead = r.ahead ∧ ∀ done, readRows s r.depth rows done r.trace.strays =
      (answer.map (done.reverse ++ ·), r'.trace.strays)
  | _, _, _, _ => True

section Agreement

variable {s : Setting}

theorem barred?_eq_some {n limit : Nat} {r : Reader} (h : r.barred? (some n) = some limit) :
    limit = n ∧ n ≤ r.depth := by
  simp [barred?, Option.filter] at h
  omega

theorem not_le_of_barred?_eq_none {n : Nat} {r : Reader} (h : r.barred? (some n) = none) :
    ¬ n ≤ r.depth := by
  simpa [barred?] using h

/-- A level that nothing takes the place of at a tag is closed by it. -/
theorem endsAt_of_next?_eq_none {l : Level} {k : Keyword} {f : Field} (hstop : .tag k ∈ l.stops)
    (h : l.next? s k f = none) : l.endsAt k := by
  unfold Level.next? at h
  unfold Level.endsAt
  unfold Level.stops at hstop
  simp only [Level.frame] at hstop ⊢
  cases hpurpose : l.purpose <;> simp_all
  cases k <;> simp_all

/-- The step that puts the next level in the place of the one before. -/
theorem readTag_next? {p : Progress} {l l' : Level} {ls : List Level} {k : Keyword} {f : Field}
    (hlevels : p.levels = l :: ls) (h : l.next? s k f = some l')
    (hlimit : k = .elseIf → l.depth < s.limit) :
    p.readTag s k f = .next { p with levels := l' :: ls } := by
  unfold Level.next? at h
  split at h
  next hpurpose =>
    cases h
    exact readTag_of_tagStep (.elseIf hlevels hpurpose (hlimit rfl))
  next hpurpose =>
    cases h
    exact readTag_of_tagStep (.otherwise hlevels hpurpose)
  next => cases h

theorem next?_fresh {l l' : Level} {k : Keyword} {f : Field} (h : l.next? s k f = some l') :
    l'.Fresh (if k = .elseIf then l.depth + 1 else l.depth) := by
  unfold Level.next? at h
  split at h <;> cases h <;> exact ⟨rfl, rfl⟩

/-- The body of a level is read as the innermost body of a state where the level has been opened. -/
theorem level_body {l : Level} {r r' : Reader} {answer : Except ParseError TokenKind}
    {g : Collected} (hfresh : l.Fresh (r.depth + 1)) (hlimit : ¬ s.limit ≤ r.depth)
    (hbody : Matches s (.block l.stops {}) r (.returns answer g) r') {p : Progress}
    (hstretch : p.stretch = []) (hstrays : p.strays = r.trace.strays) :
    Continues s r.ahead { p with levels := l :: p.levels } answer r'.ahead
      { p with levels := l.filled g :: p.levels, strays := r'.trace.strays } := by
  simp only [Matches, if_neg hlimit] at hbody
  have hreads := hbody { p with levels := l :: p.levels } ⟨rfl, hfresh.depth⟩
  simpa [Progress.holding, hfresh.filled, ← hstretch, ← hstrays] using hreads

/-- At the limit the body of a level is not read. -/
theorem level_limit {l : Level} {r r' : Reader} {answer : Except ParseError TokenKind}
    {g : Collected} (hlimit : s.limit ≤ r.depth)
    (hbody : Matches s (.block l.stops {}) r (.returns answer g) r') :
    answer = .error (.nestingTooDeep s.limit) ∧ r' = r := by
  simp only [Matches, if_pos hlimit] at hbody
  exact ⟨hbody.1, hbody.2.2⟩

theorem Continues.adding {p q : Progress} {c : Construct} {ts us : List Token}
    {strays : List Stray}
    (h : readTokens s ts q = readTokens s us ({ p with strays := strays }.push c)) :
    Continues s ts q (.ok c : Except ParseError Construct) us (p.adding (.ok c) strays) := by
  rw [Continues, h]
  congr 1
  unfold Progress.adding Progress.push
  cases p.levels <;> rfl

/-- A further condition is refused where the limit is reached. -/
theorem readTag_next?_of_limit {p : Progress} {l l' : Level} {ls : List Level} {f : Field}
    (hlevels : p.levels = l :: ls) (h : l.next? s .elseIf f = some l')
    (hlimit : s.limit ≤ l.depth) :
    p.readTag s .elseIf f = .fail (.nestingTooDeep s.limit) true p := by
  unfold Level.next? at h
  cases hpurpose : l.purpose with
  | branch earlier condition => simp only [Progress.readTag, hlevels, hpurpose, if_pos hlimit]
  | loop | otherwise => simp [hpurpose] at h

/-- A tag that is not waited for is read where nothing is pending. -/
theorem readTokens_tag_next {p q : Progress} {k : Keyword} {f : Field} {ts : List Token}
    (hgo : p.stopsAt (.tag k) = false) (hstretch : p.stretch = []) (h : p.readTag s k f = .next q) :
    readTokens s (.tag k f :: ts) p = readTokens s ts q := by
  apply readTokens_cons_next hgo
  rw [readToken, Progress.settle_of_nil hstretch, h]

theorem readTokens_tag_fail {p q : Progress} {k : Keyword} {f : Field} {e : ParseError}
    {taken : Bool} (hgo : p.stopsAt (.tag k) = false) (hstretch : p.stretch = [])
    (h : p.readTag s k f = .fail e taken q) (ts : List Token) :
    readTokens s (.tag k f :: ts) p = ⟨q, if taken then ts else .tag k f :: ts, .error e⟩ := by
  apply readTokens_cons_fail hgo
  rw [readToken, Progress.settle_of_nil hstretch, h]

/-- Where a level is open, reading does not stop before any token. -/
theorem stopsAt_of_levels {p : Progress} {l : Level} {ls : List Level} (h : p.levels = l :: ls)
    (k : TokenKind) : p.stopsAt k = false := by
  rw [Progress.stopsAt, h]
  rfl

/-- A table is read in one step, if its cells are. -/
theorem readToken_rows_ok {p : Progress} (id : TableId) {rows : List (List (List Token))}
    {r r' : Reader} {us : List (List Template)}
    (hrows : Matches s (.rows rows) r (.rows (.ok us)) r') (hdepth : p.depth = r.depth)
    (hstrays : p.strays = r.trace.strays) (hstretch : p.stretch = []) :
    readToken s (.table id rows) p =
      .next { p.push (.table id us) with strays := r'.trace.strays } := by
  rw [readToken, Progress.settle_of_nil hstretch, hdepth, hstrays]
  simp only [hrows.2 []]
  rfl

theorem readToken_rows_error {p : Progress} (id : TableId) {rows : List (List (List Token))}
    {r r' : Reader} {e : ParseError}
    (hrows : Matches s (.rows rows) r (.rows (.error e)) r') (hdepth : p.depth = r.depth)
    (hstrays : p.strays = r.trace.strays) (hstretch : p.stretch = []) :
    readToken s (.table id rows) p = .fail e true { p with strays := r'.trace.strays } := by
  rw [readToken, Progress.settle_of_nil hstretch, hdepth, hstrays]
  simp only [hrows.2 []]
  rfl

/-- Where reading has ended, there is no other token than a tag. -/
theorem ahead_eq_nil_of_not_tag {l : Level} {r : Reader} {kind : TokenKind}
    (h : r.kind = kind ∧ (kind ∈ l.stops ∨ kind = .endOfBody))
    (hnone : ∀ k f ts, r.ahead ≠ .tag k f :: ts) : r.ahead = [] := by
  obtain ⟨rfl, hstop⟩ := h
  cases hahead : r.ahead with
  | nil => rfl
  | cons t ts =>
    cases t with
    | tag k f => exact absurd hahead (hnone k f ts)
    | text x =>
      simp only [kind, hahead, List.head?_cons, Option.map_some, Option.getD_some, Token.kind,
        reduceCtorEq, or_false, Level.stops] at hstop
      cases hframe : l.frame <;> simp [hframe] at hstop
    | table id rows =>
      simp only [kind, hahead, List.head?_cons, Option.map_some, Option.getD_some, Token.kind,
        reduceCtorEq, or_false, Level.stops] at hstop
      cases hframe : l.frame <;> simp [hframe] at hstop

/-- What a cell comes to when its end is reached. -/
theorem finish_cell (d : Nat) (g : Collected) (strays strays' : List Stray) :
    ((Progress.start [.endOfBody] d strays).holding g strays').finish =
      { Progress.start [.endOfBody] d strays' with
        block :=
          { stops := [.endOfBody], depth := d, swallowed := g.swallowed, body := g.body } } :=
  rfl

theorem ahead_eq_nil_of_endOfBody {r : Reader} {kind : TokenKind}
    (h : r.kind = kind ∧ (kind ∈ [TokenKind.endOfBody] ∨ kind = .endOfBody)) : r.ahead = [] := by
  obtain ⟨rfl, hstop⟩ := h
  rw [List.mem_singleton, or_self] at hstop
  cases hahead : r.ahead with
  | nil => rfl
  | cons t ts =>
    rw [kind, hahead] at hstop
    exact absurd hstop t.kind_ne_endOfBody

theorem mem_stops_of_tag {stops : List TokenKind} {k : Keyword} {f : Field} {ts : List Token}
    {d : Nat} {trace : Trace} {kind : TokenKind}
    (h : Reader.kind ⟨.tag k f :: ts, d, trace⟩ = kind ∧ (kind ∈ stops ∨ kind = .endOfBody)) :
    .tag k ∈ stops := by
  obtain ⟨rfl, hstop | hend⟩ := h
  · exact hstop
  · cases hend

/-- An opening tag does what the call does that reads its level. -/
theorem continues_opened {p : Progress} {k : Keyword} {f : Field} {ts : List Token} {trace : Trace}
    {l : Level} {answer : Except ParseError Construct} {r' : Reader} (g : Collected)
    (hgo : .tag k ∉ p.innerStops) (hl : opened? s f (p.depth + 1) k = some l)
    (hlevel : Matches s (.level l) ⟨ts, p.depth, trace⟩ (.built answer) r') :
    Continues s (.tag k f :: ts) (p.holding g trace.strays) answer r'.ahead
      ((p.holding g trace.strays).adding answer r'.trace.strays) := by
  have hpassed := p.stopsAt_holding hgo g trace.strays
  have hreads := hlevel (opened?_fresh hl)
  rw [← p.depth_holding g trace.strays] at hl
  split at hreads
  next hlimit =>
    -- The tag itself is refused.
    obtain ⟨rfl, rfl⟩ := hreads
    rw [show Reader.depth ⟨ts, p.depth, trace⟩ = (p.holding g trace.strays).depth from
      (p.depth_holding g trace.strays).symm] at hlimit
    exact ⟨_, readTokens_tag_fail hpassed (p.stretch_holding _ _) (readTag_of_limit hl hlimit) ts,
      p.strays_holding _ _, rfl⟩
  next hlimit =>
    rw [show Reader.depth ⟨ts, p.depth, trace⟩ = (p.holding g trace.strays).depth from
      (p.depth_holding g trace.strays).symm] at hlimit
    exact (hreads _ (p.stretch_holding _ _) (p.strays_holding _ _)).after
      (readTokens_tag_next hpassed (p.stretch_holding _ _)
        (readTag_of_tagStep (.opens hl (Nat.lt_of_not_le hlimit))))

/-- A level whose body has been read goes on from where the body ends. -/
theorem matches_level {l : Level} {g : Collected} {r r' r'' : Reader} {kind : TokenKind}
    {answer : Except ParseError Construct}
    (hbody : Matches s (.block l.stops {}) r (.returns (.ok kind) g) r')
    (hrest : l.Fresh (r.depth + 1) → ¬ s.limit ≤ r.depth → ∀ p : Progress, p.stretch = [] →
      Continues s r'.ahead { p with levels := l.filled g :: p.levels, strays := r'.trace.strays }
        answer r''.ahead (p.adding answer r''.trace.strays)) :
    Matches s (.level l) r (.built answer) r'' := by
  intro hfresh
  split
  next hlimit => cases (level_limit hlimit hbody).1
  next hlimit =>
    intro p hstretch hstrays
    exact (hrest hfresh hlimit p hstretch).after (level_body hfresh hlimit hbody hstretch hstrays)

/-- What takes the place of a level is read in its place. -/
theorem continues_next {p : Progress} {l l' : Level} {k : Keyword} {f : Field} {ts us : List Token}
    {trace trace' : Trace} {answer : Except ParseError Construct} (hnext : l.next? s k f = some l')
    (hstretch : p.stretch = []) (hlimit : k = .elseIf → l.depth < s.limit)
    (hrest : ∀ p : Progress, p.stretch = [] → p.strays = trace.strays →
      Continues s ts { p with levels := l' :: p.levels } answer us
        (p.adding answer trace'.strays)) :
    Continues s (.tag k f :: ts) { p with levels := l :: p.levels, strays := trace.strays } answer
      us (p.adding answer trace'.strays) := by
  have hgoesOn := hrest { p with strays := trace.strays } hstretch rfl
  rw [p.adding_withStrays] at hgoesOn
  exact hgoesOn.after (readTokens_tag_next (stopsAt_of_levels rfl _) hstretch
    (readTag_next? rfl hnext hlimit))

/-- A cell is read from a state of its own. -/
theorem continues_cell {c : List Token} {g : Collected} {d : Nat} {trace : Trace} {r' : Reader}
    {answer : Except ParseError TokenKind} (hlimit : ¬ s.limit ≤ d)
    (hcell : Matches s (.block [.endOfBody] {}) ⟨c, d, trace⟩ (.returns answer g) r') :
    Continues s c (Progress.start [.endOfBody] (d + 1) trace.strays) answer r'.ahead
      ((Progress.start [.endOfBody] (d + 1) trace.strays).holding g r'.trace.strays) := by
  simp only [Matches, if_neg hlimit] at hcell
  exact hcell (Progress.start [.endOfBody] (d + 1) trace.strays) ⟨rfl, rfl⟩

/-- A further condition is read where its level has been, unless the limit is reached there. -/
theorem matches_elseIf {l l' : Level} {g : Collected} {r r'' : Reader} {kind : TokenKind}
    {f : Field} {ts : List Token} {d : Nat} {trace : Trace} {answer : Except ParseError Construct}
    (hdepth : d = r.depth) (hnext : (l.filled g).next? s .elseIf f = some l')
    (hbody : Matches s (.block l.stops {}) r (.returns (.ok kind) g)
      ⟨.tag .elseIf f :: ts, d, trace⟩)
    (hrest : Matches s (.level l') (Reader.entered ⟨ts, d, trace⟩) (.built answer) r'') :
    Matches s (.level l) r (.built answer) r''.left := by
  refine matches_level hbody ?_
  intro hfresh hlimit p hstretch
  have hbelow : (l.filled g).depth = d + 1 := hdepth ▸ hfresh.depth
  have hnextFresh := next?_fresh hnext
  rw [if_pos rfl, hbelow] at hnextFresh
  have hreads := hrest hnextFresh
  split at hreads
  next hdeep =>
    -- The tag itself is refused.
    obtain ⟨rfl, rfl⟩ := hreads
    have hrefused := readTokens_tag_fail
      (p := { p with levels := l.filled g :: p.levels, strays := trace.strays })
      (stopsAt_of_levels rfl _) hstretch
      (readTag_next?_of_limit rfl hnext (hbelow.symm ▸ hdeep)) ts
    exact ⟨_, hrefused, rfl, rfl⟩
  next hroom =>
    exact continues_next hnext hstretch (fun _ => hbelow.symm ▸ Nat.lt_of_not_le hroom) hreads

/-- What takes the place of a level otherwise is no deeper than the level. -/
theorem matches_otherwise {l l' : Level} {g : Collected} {r r'' : Reader} {kind : TokenKind}
    {k : Keyword} {f : Field} {ts : List Token} {d : Nat} {trace : Trace}
    {answer : Except ParseError Construct} (hdepth : d = r.depth)
    (hnext : (l.filled g).next? s k f = some l') (hk : k ≠ .elseIf)
    (hbody : Matches s (.block l.stops {}) r (.returns (.ok kind) g) ⟨.tag k f :: ts, d, trace⟩)
    (hrest : Matches s (.level l') ⟨ts, d, trace⟩ (.built answer) r'') :
    Matches s (.level l) r (.built answer) r'' := by
  refine matches_level hbody ?_
  intro hfresh hlimit p hstretch
  have hbelow : (l.filled g).depth = d + 1 := hdepth ▸ hfresh.depth
  have hnextFresh := next?_fresh hnext
  rw [if_neg hk, hbelow] at hnextFresh
  have hreads := hrest hnextFresh
  rw [show Reader.depth ⟨ts, d, trace⟩ = r.depth from hdepth, if_neg hlimit] at hreads
  exact continues_next hnext hstretch (fun h => absurd h hk) hreads

/-- A cell is followed by the cells behind it. -/
theorem matches_cell {c : List Token} {row : List (List Token)} {g : Collected} {ts : List Token}
    {d : Nat} {trace : Trace} {kind : TokenKind} {r' r'' : Reader}
    {answer : Except ParseError (List Template)}
    (hend : r'.kind = kind ∧ (kind ∈ [TokenKind.endOfBody] ∨ kind = .endOfBody))
    (hcell : Matches s (.block [.endOfBody] {}) ⟨c, d, trace⟩ (.returns (.ok kind) g) r')
    (hrest : Matches s (.cells row) ⟨ts, d, r'.trace⟩ (.cells answer) r'') :
    Matches s (.cells (c :: row)) ⟨ts, d, trace⟩ (.cells (answer.map (g.toSection :: ·))) r'' := by
  refine ⟨hrest.1, ?_⟩
  intro done
  by_cases hlimit : s.limit ≤ d
  · simp only [Matches, if_pos hlimit] at hcell
    cases hcell.1
  · have hread : readTokens s c _ = readTokens s _ _ := continues_cell hlimit hcell
    rw [ahead_eq_nil_of_endOfBody hend, readTokens] at hread
    simp only [readCells, if_neg hlimit, hread, finish_cell]
    refine (hrest.2 (g.toSection :: done)).trans ?_
    cases answer <;> simp [Except.map]

/-- A cell that fails is the last one that is read. -/
theorem matches_cellFails {c : List Token} {row : List (List Token)} {g : Collected}
    {ts : List Token} {d : Nat} {trace : Trace} {e : ParseError} {r' : Reader}
    (hcell : Matches s (.block [.endOfBody] {}) ⟨c, d, trace⟩ (.returns (.error e) g) r') :
    Matches s (.cells (c :: row)) ⟨ts, d, trace⟩ (.cells (.error e)) ⟨ts, d, r'.trace⟩ := by
  refine ⟨rfl, ?_⟩
  intro done
  by_cases hlimit : s.limit ≤ d
  · simp only [Matches, if_pos hlimit] at hcell
    obtain ⟨he, -, rfl⟩ := hcell
    cases he
    simp only [readCells, if_pos hlimit, Except.map]
  · obtain ⟨q, hread, hstrays, -⟩ := continues_cell hlimit hcell
    simp only [readCells, if_neg hlimit, hread, Except.map, hstrays]
    rfl

/-- **What every call means.** -/
theorem Ends.matches {task : Task} {r r' : Reader} {answer : Answer}
    (h : Ends s (some s.limit) task r answer r') : Matches s task r answer r' := by
  induction h with
  | atEnd =>
    intro p hp
    exact rfl
  | stops hstop =>
    intro p hp
    exact rfl
  | text hgo =>
    rintro p ⟨rfl, hdepth⟩
    rw [← p.innerStops_holding _ _] at hgo
    rw [readTokens_text hgo (p.stretch_holding _ _), p.push_holding]
  | single hgo hc =>
    rintro p ⟨rfl, hdepth⟩
    rw [readTokens_tag_next (p.stopsAt_holding hgo _ _) (p.stretch_holding _ _)
      (readTag_of_tagStep (.single hc)), p.push_holding]
  | @opens stops g k f ts d trace l c r' hgo hl hlevel ih =>
    rintro p ⟨rfl, hdepth⟩
    obtain rfl : p.depth = d := hdepth
    have hreads : readTokens s _ _ = readTokens s _ _ := continues_opened g hgo hl ih
    rwa [Progress.adding, Except.toOption, Option.elim_some, p.push_holding, p.holding_withStrays]
      at hreads
  | @opensFails stops g k f ts d trace l e r' hgo hl hlevel ih =>
    rintro p ⟨rfl, hdepth⟩
    obtain rfl : p.depth = d := hdepth
    have hreads := continues_opened g hgo hl ih
    rwa [Progress.adding, Except.toOption, Option.elim_none, p.holding_withStrays] at hreads
  | @strays stops g k f ts d trace hgo hterminator =>
    rintro p ⟨rfl, hdepth⟩
    obtain rfl : p.depth = d := hdepth
    have hpassed := p.stopsAt_holding hgo g trace.strays
    rw [← p.innerStops_holding g trace.strays] at hgo
    rw [readTokens_tag_next hpassed (p.stretch_holding _ _)
      (readTag_of_advance_eq_none hterminator (Progress.advance_of_innerStops hterminator hgo)),
      p.swallow_holding]
  | @reserved stops g k f ts d trace hgo hk =>
    rintro p ⟨rfl, hdepth⟩
    have hread : (p.holding g trace.strays).readTag s k f =
        .fail (.unsupportedTag k f.opening.id) false (p.holding g trace.strays) := by
      rcases hk with rfl | rfl <;> rfl
    exact ⟨_, readTokens_tag_fail (p.stopsAt_holding hgo _ _) (p.stretch_holding _ _) hread ts,
      rfl, rfl⟩
  | @table stops g id rows ts d trace us r' hgo hrows ih =>
    rintro p ⟨rfl, hdepth⟩
    have hread := readToken_rows_ok id ih ((p.depth_holding g _).trans hdepth)
      (p.strays_holding g _) (p.stretch_holding g _)
    rw [readTokens_cons_next (p.stopsAt_holding hgo _ _) hread, p.push_holding,
      p.holding_withStrays, ih.1]
  | @tableFails stops g id rows ts d trace e r' hgo hrows ih =>
    rintro p ⟨rfl, hdepth⟩
    have hread := readToken_rows_error id ih ((p.depth_holding g _).trans hdepth)
      (p.strays_holding g _) (p.stretch_holding g _)
    refine ⟨p.holding g r'.trace.strays, ?_, rfl, rfl⟩
    rw [readTokens_cons_fail (p.stopsAt_holding hgo _ _) hread, p.holding_withStrays, ih.1]
    rfl
  | lastTurn hturn ih => exact ih
  | @nextTurn stops g g' r r' r'' answer hturn hrest ih ihrest =>
    cases answer with
    | returns answer g'' =>
      intro p hp
      exact (ihrest p ⟨hp.stops, hp.depth.trans hturn.depth_eq.symm⟩).after (ih p hp)
    | goesOn | built | cells | rows => trivial
  | barred hbarred =>
    obtain ⟨rfl, hlimit⟩ := barred?_eq_some hbarred
    simp only [Matches, if_pos hlimit, and_self]
  | @body stops g r r' answer hfree hbody ih =>
    cases answer with
    | returns answer g' =>
      simp only [Matches, if_neg (not_le_of_barred?_eq_none hfree)]
      exact ih
    | goesOn | built | cells | rows => trivial
  | @bodyFails l g r r' e hbody ih =>
    intro hfresh
    split
    next hlimit =>
      obtain ⟨he, rfl⟩ := level_limit hlimit ih
      cases he
      exact ⟨rfl, rfl⟩
    next hlimit =>
      intro p hstretch hstrays
      exact level_body hfresh hlimit ih hstretch hstrays
  | @cutOff l g r r' kind hbody hnone ih =>
    refine matches_level ih ?_
    intro hfresh hlimit p hstretch
    rw [ahead_eq_nil_of_not_tag (hbody.kind_eq rfl) hnone]
    exact Continues.adding
      (readTokens_nil_level (p := { p with strays := r'.trace.strays }) hstretch (l.filled g))
  | @closes l g r kind k f ts d trace hbody hnext ih =>
    refine matches_level ih ?_
    intro hfresh hlimit p hstretch
    have hends : (l.filled g).endsAt k :=
      endsAt_of_next?_eq_none (mem_stops_of_tag (hbody.kind_eq rfl)) hnext
    exact Continues.adding (readTokens_tag_next (stopsAt_of_levels rfl _) hstretch
      (readTag_of_tagStep (.closes rfl hends)))
  | @elseIfBarred l l' g r kind f ts d trace limit hbody hnext hbarred ih =>
    -- The counter is as it was before the body, which it did not keep from being read.
    obtain ⟨rfl, hdepth⟩ := barred?_eq_some hbarred
    have hlimit : s.limit ≤ r.depth := hbody.depth_eq ▸ hdepth
    cases (level_limit hlimit ih).1
  | @elseIf _ _ _ _ _ _ _ _ _ _ answer hbody hnext _ _ ih ihrest =>
    cases answer with
    | goesOn | returns | cells | rows => trivial
    | built answer => exact matches_elseIf hbody.depth_eq hnext ih ihrest
  | @otherwise _ _ _ _ _ _ _ _ _ _ _ answer hbody hnext hk _ ih ihrest =>
    cases answer with
    | goesOn | returns | cells | rows => trivial
    | built answer => exact matches_otherwise hbody.depth_eq hnext hk ih ihrest
  | noCells => exact ⟨rfl, fun done => by simp [readCells, Except.map]⟩
  | cell hcell _ ih ihrest => exact matches_cell (hcell.kind_eq rfl) ih ihrest
  | cellFails _ ih => exact matches_cellFails ih
  | noRows => exact ⟨rfl, fun done => by simp [readRows, Except.map]⟩
  | @row row rows us r r' r'' answer hrow hrest ih ihrest =>
    refine ⟨ihrest.1.trans ih.1, ?_⟩
    intro done
    have hfirst := ih.2 []
    have hothers := ihrest.2 (us :: done)
    rw [hrow.depth_eq] at hothers
    simp only [readRows, hfirst, Except.map, List.reverse_nil, List.nil_append, hothers]
    cases answer <;> simp
  | rowFails hrow ih =>
    refine ⟨ih.1, ?_⟩
    intro done
    rw [readRows, ih.2 []]
    rfl

end Agreement

end Reader

end DocTemplate
