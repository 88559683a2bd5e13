import DocTemplate.Document.Draft
import DocTemplate.Proofs.NestingDepth

/-!
# The nesting limit

Two readings of the same tokens go side by side, under a smaller and under a larger limit. They do
the same, step by step, until the smaller limit is reached; there the one reading ends. Whether this
happens can be read off from the template of the other: it happens unless the template fits.

## Main statements

- `Progress.readTag_withLimit`, `Progress.templateAfter_withLimit`: under a smaller limit a reading
  gives the same, or it reaches the limit
- `Body.parse_withLimit`: the limit is exact
-/

namespace DocTemplate

/-- Where single results can only be replaced by one error, so can the result for all. -/
theorem mapM_eq_or_error {α β ε : Type} {f g : α → Except ε β} {e : ε} {xs : List α}
    (h : ∀ x ∈ xs, f x = g x ∨ f x = .error e) : xs.mapM f = xs.mapM g ∨ xs.mapM f = .error e := by
  induction xs with
  | nil => exact .inl rfl
  | cons x xs ih =>
    obtain ⟨hx, hxs⟩ := List.forall_mem_cons.mp h
    rw [List.mapM_cons, List.mapM_cons]
    rcases hx with hsame | hfail
    · rw [hsame]
      cases g x with
      | error e' => exact .inl rfl
      | ok y =>
        -- The first result is there in both cases, so the others decide.
        rcases ih hxs with hrest | hrest <;> rw [hrest]
        · exact .inl rfl
        · exact .inr rfl
    · rw [hfail]
      exact .inr rfl

section Limits

variable {s : Setting} {m m' : Nat}

/-- At any depth the smaller limit is reached, or neither is. -/
theorem limit_cases (hle : m ≤ m') (depth : Nat) :
    (s.withLimit m).limit ≤ depth ∨
      ¬ (s.withLimit m).limit ≤ depth ∧ ¬ (s.withLimit m').limit ≤ depth := by
  simp only [Setting.limit_withLimit]
  omega

theorem Progress.openLevel_withLimit (hle : m ≤ m') (p : Progress) (level : Nat → Level) :
    p.openLevel (s.withLimit m) level = p.openLevel (s.withLimit m') level ∨
      ∃ q, p.openLevel (s.withLimit m) level = .fail (.nestingTooDeep m) true q := by
  unfold openLevel
  rcases limit_cases (s := s) hle p.depth with hdeep | ⟨hfits, hfits'⟩
  · rw [if_pos hdeep]
    exact .inr ⟨p, rfl⟩
  · rw [if_neg hfits, if_neg hfits']
    exact .inl rfl

/-- A tag does the same under a smaller limit, or reaches it. -/
theorem Progress.readTag_withLimit (hle : m ≤ m') (p : Progress) (k : Keyword) (f : Field) :
    p.readTag (s.withLimit m) k f = p.readTag (s.withLimit m') k f ∨
      ∃ q, p.readTag (s.withLimit m) k f = .fail (.nestingTooDeep m) true q := by
  cases k with
  | query | image | diagram | element | binding | endBinding | endFor | endIf | otherwise =>
    exact .inl rfl
  | forEach => exact p.openLevel_withLimit hle (Level.ofLoop s · f)
  | ifThen => exact p.openLevel_withLimit hle (Level.ofCondition s · [] f)
  | elseIf =>
    unfold readTag
    cases p.levels with
    | nil => exact .inl rfl
    | cons l ls =>
      -- The depth of a condition counts if another one is to follow it.
      dsimp only
      cases l.purpose with
      | loop | otherwise => exact .inl rfl
      | branch earlier condition =>
        dsimp only
        rcases limit_cases (s := s) hle l.depth with hdeep | ⟨hfits, hfits'⟩
        · rw [if_pos hdeep]
          exact .inr ⟨p, rfl⟩
        · rw [if_neg hfits, if_neg hfits']
          exact .inl rfl

theorem cellTemplates_withLimit {depth : Nat} {rows : List (List (List Token))}
    (hcells : ∀ row ∈ rows, ∀ c ∈ row,
      Template.ofTokens (s.withLimit m) depth c = Template.ofTokens (s.withLimit m') depth c ∨
        Template.ofTokens (s.withLimit m) depth c = .error (.nestingTooDeep m)) :
    cellTemplates (s.withLimit m) depth rows = cellTemplates (s.withLimit m') depth rows ∨
      cellTemplates (s.withLimit m) depth rows = .error (.nestingTooDeep m) := by
  apply mapM_eq_or_error
  intro row hrow
  exact mapM_eq_or_error (hcells row hrow)

/-- **A reading under a smaller limit** ends in the same, or reaches its limit. -/
theorem Progress.templateAfter_withLimit (hle : m ≤ m') {ts : List Token}
    (hcells : ∀ id rows, Token.table id rows ∈ ts → ∀ row ∈ rows, ∀ c ∈ row, ∀ depth,
      Template.ofTokens (s.withLimit m) depth c = Template.ofTokens (s.withLimit m') depth c ∨
        Template.ofTokens (s.withLimit m) depth c = .error (.nestingTooDeep m))
    {p : Progress} (hstops : p.block.stops = [.endOfBody]) :
    p.templateAfter (s.withLimit m) ts = p.templateAfter (s.withLimit m') ts ∨
      p.templateAfter (s.withLimit m) ts = .error (.nestingTooDeep m) := by
  induction ts generalizing p with
  | nil =>
    left
    rw [templateAfter_nil, templateAfter_nil]
  | cons t ts ih =>
    -- Both readings go on from the same state, or the one under the smaller limit ends here.
    have hrest : ∀ {q : Progress}, q.block.stops = [.endOfBody] → _ := fun {q} =>
      ih (fun id rows hmem => hcells id rows (List.mem_cons_of_mem _ hmem)) (p := q)
    rw [templateAfter_cons hstops, templateAfter_cons hstops]
    cases t with
    | text r => exact hrest hstops
    | tag k f =>
      rw [readToken, readToken]
      rcases p.settle.readTag_withLimit hle (s := s) k f with hsame | ⟨q, hfail⟩
      · rw [hsame]
        cases hread : p.settle.readTag (s.withLimit m') k f with
        | next q =>
          have hstep : Reads (s.withLimit m') (.tag k f) p q := .tag (readTag_eq_next_iff.mp hread)
          exact hrest (hstep.stops.trans hstops)
        | fail e taken q => exact .inl rfl
      · rw [hfail]
        exact .inr rfl
    | table id rows =>
      have hhere := cellTemplates_withLimit fun row hrow c hc =>
        hcells id rows List.mem_cons_self row hrow c hc p.depth
      rcases hhere with hsame | hfail
      · cases hread : cellTemplates (s.withLimit m') p.depth rows with
        | ok us =>
          -- Both readings go on with the same table; the strays of its cells do not matter.
          rw [readToken_table_ok (hsame.trans hread), readToken_table_ok hread]
          show templateAfter _ _ _ = templateAfter _ _ _ ∨ templateAfter _ _ _ = _
          simp only [templateAfter_strays]
          apply hrest
          rw [← hstops, ← p.stops_settle]
          exact Block.stops_of_emptied (p.settle.emptied_push _)
        | error e =>
          obtain ⟨q, hfail⟩ := readToken_table_error (hsame.trans hread) id
          obtain ⟨q', hfail'⟩ := readToken_table_error hread id
          rw [hfail, hfail']
          exact .inl rfl
      · obtain ⟨q, hstep⟩ := readToken_table_error hfail id
        rw [hstep]
        exact .inr rfl

theorem Template.ofTokens_withLimit_le (hle : m ≤ m') (depth : Nat) (ts : List Token) :
    Template.ofTokens (s.withLimit m) depth ts = Template.ofTokens (s.withLimit m') depth ts ∨
      Template.ofTokens (s.withLimit m) depth ts = .error (.nestingTooDeep m) := by
  induction ts using Token.cellInduction generalizing depth with
  | h ts cells =>
    rw [ofTokens_eq_templateAfter, ofTokens_eq_templateAfter]
    rcases limit_cases (s := s) hle depth with hdeep | ⟨hfits, hfits'⟩
    · rw [if_pos hdeep]
      exact .inr rfl
    · rw [if_neg hfits, if_neg hfits']
      exact Progress.templateAfter_withLimit hle
        (fun id rows hmem row hrow c hc depth => cells id rows hmem row hrow c hc depth) rfl

end Limits

namespace Body

/-- **The nesting limit is exact.** Under a smaller limit a body is parsed to the same result, or
the parse ends at the limit. And a template that is there under the larger limit is there under the
smaller one if it needs no more, and otherwise the parse ends at the limit. -/
theorem parse_withLimit (s : Setting) (b : Body) {m m' : Nat} (hle : m ≤ m') :
    ((b.parse (s.withLimit m)).result = (b.parse (s.withLimit m')).result ∨
      (b.parse (s.withLimit m)).result = .error (.nestingTooDeep m)) ∧
    ∀ t, (b.parse (s.withLimit m')).result = .ok t →
      (t.need ≤ m → (b.parse (s.withLimit m)).result = .ok t) ∧
      (m < t.need → (b.parse (s.withLimit m)).result = .error (.nestingTooDeep m)) := by
  simp only [result_parse]
  -- A whole body is read at depth zero.
  have hcases := Template.ofTokens_withLimit_le (s := s) hle 0 b.linearTokens
  refine ⟨hcases, ?_⟩
  intro t ht
  have hiff : Template.ofTokens (s.withLimit m) 0 b.linearTokens = .ok t ↔ 0 + t.need ≤ m :=
    Template.ofTokens_withLimit_iff ht
  rw [Nat.zero_add] at hiff
  refine ⟨hiff.mpr, ?_⟩
  intro hneed
  rcases hcases with hsame | hdeep
  · -- The same result would be the template, which does not fit.
    have hfits := hiff.mp (hsame.trans ht)
    omega
  · exact hdeep

/-- A repetition around a table, with a further condition in its cell. -/
def chainInCell : Body :=
  Draft.build
    [.paragraph [.field ["m:for x | xs"]],
      .table [[[.paragraph [.field ["m:if a"], .field ["m:elseif b"], .field ["m:endif"]]]], []],
      .paragraph [.field ["m:endfor"]]]

/-- The template, the repetition, the cell and its two conditions lie inside one another. -/
theorem parse_withLimit_chainInCell :
    4 ≤ 5 ∧ ∃ t, (chainInCell.parse (Setting.withLimit { compile := .fixed [] } 5)).result = .ok t ∧
      t.need = 5 ∧
      (chainInCell.parse (Setting.withLimit { compile := .fixed [] } 4)).result =
        .error (.nestingTooDeep 4) := by
  have hok : (chainInCell.parse (Setting.withLimit { compile := .fixed [] } 5)).result.toOption.map
      Template.need = some 5 := by decide +kernel
  obtain ⟨t, ht, hneed⟩ := exists_of_toOption_map hok
  have hlimit := parse_withLimit { compile := .fixed [] } chainInCell (by decide : 4 ≤ 5)
  exact ⟨by decide, t, ht, hneed, (hlimit.2 t ht).2 (by omega)⟩

end Body

end DocTemplate
