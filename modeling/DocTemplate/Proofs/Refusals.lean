import DocTemplate.Document.Draft
import DocTemplate.Parse.Session
import DocTemplate.Proofs.Steps

/-!
# Why a body is refused

A field is read only where the tokens have shown one, so a broken field never ends a reading: its
runs are plain text. What remains are two reasons, the nesting limit and the reserved tags; and of
the reserved tags of a document it is always the first one that is named.

## Main statements

- `Runs.reserved_eq_nil`: what has been read holds no reserved tag
- `readTokens_refusal`: a reading with any stops, from any state, is refused for one of two reasons
- `Body.parse_refusals`: how the parse of a body can end
-/

namespace DocTemplate

/-! ## Reserved tags -/

/-- Tags that are refused wherever they stand. -/
def Keyword.isReserved : Keyword → Bool
  | .element | .binding => true
  | _ => false

/-- The keyword of a reserved tag with the run that opens its field. -/
def Token.reserved? : Token → Option (Keyword × RunId)
  | .tag k f => if k.isReserved then some (k, f.opening.id) else none
  | _ => none

/-- The reserved tags among tokens and in their cells, in document order. -/
def Token.reservedOf (ts : List Token) : List (Keyword × RunId) :=
  (Token.leavesOf ts).filterMap Token.reserved?

/-- The reserved tags of a body, in document order. -/
def Body.reservedTags (b : Body) : List (Keyword × RunId) := Token.reservedOf b.linearTokens

namespace Token

theorem reservedOf_cons (t : Token) (ts : List Token) :
    reservedOf (t :: ts) = reservedOf [t] ++ reservedOf ts := by
  simp [reservedOf, leavesOf]

theorem reservedOf_table (id : TableId) (rows : List (List (List Token))) :
    reservedOf [.table id rows] = rows.flatMap (fun r => r.flatMap reservedOf) := by
  simp only [reservedOf, leavesOf, leaves, leavesOfRows_eq_flatMap, List.append_nil,
    List.filterMap_flatMap]
  rfl

end Token

/-- The errors of a single field, which only reading a field by itself can give. -/
def ParseError.isOfField : ParseError → Bool
  | .notAtField _ | .tableInsideField .. | .unterminatedField _ => true
  | .unsupportedTag .. | .nestingTooDeep _ => false

/-! ## What has been read -/

section Readings

variable {s : Setting} {p q : Progress}

/-- No step takes a reserved tag. -/
theorem TagStep.isReserved {k : Keyword} {f : Field} (h : TagStep s p k f q) :
    k.isReserved = false := by
  cases h with
  | single hc => cases k <;> first | rfl | cases hc
  | opens hl hlimit => cases k <;> first | rfl | cases hl
  | @closes _ _ l ls hlevels hends =>
    simp only [Level.endsAt] at hends
    split at hends <;> subst hends <;> rfl
  | elseIf hlevels hpurpose hlimit => rfl
  | otherwise hlevels hpurpose => rfl
  | strays hterminator hnone => cases k <;> first | rfl | cases hterminator

theorem Reads.reserved_eq_nil {t : Token} (h : Reads s t p q)
    (hcells : ∀ id rows, t = .table id rows → ∀ row ∈ rows, ∀ c ∈ row, ∀ depth u,
      Template.ofTokens s depth c = .ok u → Token.reservedOf c = []) :
    Token.reservedOf [t] = [] := by
  cases h with
  | text r p => rfl
  | tag hstep => simp [Token.reservedOf, Token.leavesOf, Token.leaves, Token.reserved?,
      hstep.isReserved]
  | @table id rows p ts hread =>
    rw [Token.reservedOf_table]
    apply List.flatMap_eq_nil_iff.mpr
    intro row hrow
    apply List.flatMap_eq_nil_iff.mpr
    intro c hc
    obtain ⟨u, hu⟩ := exists_of_cellTemplates_eq_ok hread row hrow c hc
    exact hcells id rows rfl row hrow c hc p.depth u hu

theorem Runs.reserved_eq_nil {ts : List Token} (h : Runs s ts p q)
    (hcells : ∀ id rows, Token.table id rows ∈ ts → ∀ row ∈ rows, ∀ c ∈ row, ∀ depth u,
      Template.ofTokens s depth c = .ok u → Token.reservedOf c = []) :
    Token.reservedOf ts = [] := by
  induction h with
  | nil p => rfl
  | cons hstep hrest ih =>
    rw [Token.reservedOf_cons, hstep.reserved_eq_nil fun id rows ht =>
      hcells id rows (ht ▸ List.mem_cons_self), List.nil_append]
    exact ih fun id rows hmem => hcells id rows (List.mem_cons_of_mem _ hmem)

/-- The tokens of a template hold no reserved tag. -/
theorem Template.reserved_eq_nil {depth : Nat} {ts : List Token} {t : Template}
    (h : Template.ofTokens s depth ts = .ok t) : Token.reservedOf ts = [] := by
  refine Template.ofTokens_induction h ?_
  intro depth ts q hruns hcells
  exact hruns.reserved_eq_nil hcells

end Readings

/-! ## Refusals -/

/-- The error is that of the nesting limit, or names the first of the reserved tags `found`. -/
def Refusal (s : Setting) (found : List (Keyword × RunId)) (e : ParseError) : Prop :=
  e = .nestingTooDeep s.limit ∨ ∃ k r, e = .unsupportedTag k r ∧ found.head? = some (k, r)

section Refusals

variable {s : Setting} {e : ParseError}

theorem Refusal.isOfField {found : List (Keyword × RunId)} (h : Refusal s found e) :
    e.isOfField = false := by
  rcases h with rfl | ⟨k, r, rfl, -⟩ <;> rfl

/-- What stands behind the first reserved tag does not matter. -/
theorem Refusal.append {found : List (Keyword × RunId)} (h : Refusal s found e)
    (more : List (Keyword × RunId)) : Refusal s (found ++ more) e := by
  rcases h with hdeep | ⟨k, r, he, hhead⟩
  · exact .inl hdeep
  · refine .inr ⟨k, r, he, ?_⟩
    rw [List.head?_append, hhead, Option.some_or]

/-- If parts are read one after another, the first that is refused decides. -/
theorem Refusal.mapM {α β : Type} {f : α → Except ParseError β} {g : α → List (Keyword × RunId)}
    {xs : List α} (hread : ∀ x ∈ xs, ∀ y, f x = .ok y → g x = [])
    (hrefused : ∀ x ∈ xs, ∀ e, f x = .error e → Refusal s (g x) e) (h : xs.mapM f = .error e) :
    Refusal s (xs.flatMap g) e := by
  obtain ⟨before, x, after, rfl, hbefore, hx⟩ := mapM_eq_error h
  have hnil : before.flatMap g = [] := by
    apply List.flatMap_eq_nil_iff.mpr
    intro y hy
    obtain ⟨b, hb⟩ := hbefore y hy
    exact hread y (List.mem_append_left _ hy) b hb
  rw [List.flatMap_append, hnil, List.nil_append, List.flatMap_cons]
  exact (hrefused x (by simp) e hx).append _

/-- A table is refused for what its first refused cell is refused for. -/
theorem Refusal.cells {depth : Nat} {rows : List (List (List Token))}
    (hcells : ∀ row ∈ rows, ∀ c ∈ row, ∀ e, Template.ofTokens s depth c = .error e →
      Refusal s (Token.reservedOf c) e)
    (h : cellTemplates s depth rows = .error e) :
    Refusal s (rows.flatMap (fun r => r.flatMap Token.reservedOf)) e := by
  -- The rows before the refused one have been read whole, and so have the cells before the cell.
  have hrow : ∀ (row : List (List Token)) (ts : List Template),
      row.mapM (Template.ofTokens s depth) = .ok ts → row.flatMap Token.reservedOf = [] := by
    intro row ts hts
    apply List.flatMap_eq_nil_iff.mpr
    intro c hc
    obtain ⟨u, hu⟩ := exists_of_mapM_eq_ok hts c hc
    exact Template.reserved_eq_nil hu
  apply Refusal.mapM (fun row _ => hrow row) _ h
  intro row hmem e' he'
  exact Refusal.mapM (fun c _ u hu => Template.reserved_eq_nil hu) (hcells row hmem) he'

/-- A reading is refused for the nesting limit or the first reserved tag ahead, whatever it is to
stop before and whatever is open where it begins. -/
theorem readTokens_refusal_of_cells {ts : List Token}
    (hcells : ∀ id rows, Token.table id rows ∈ ts → ∀ row ∈ rows, ∀ c ∈ row, ∀ depth e,
      Template.ofTokens s depth c = .error e → Refusal s (Token.reservedOf c) e)
    {p : Progress} (h : (readTokens s ts p).result = .error e) :
    Refusal s (Token.reservedOf ts) e := by
  induction ts generalizing p with
  | nil =>
    rw [readTokens] at h
    cases h
  | cons t ts ih =>
    rw [Token.reservedOf_cons]
    rw [readTokens] at h
    split at h
    · cases h
    · cases hread : readToken s t p with
      | next q =>
        rw [hread] at h
        -- What has been read holds no reserved tag, so the first one ahead is the first of all.
        have hstep : Reads s t p q := readToken_eq_next_iff.mp hread
        rw [hstep.reserved_eq_nil fun _ _ _ _ _ _ _ _ _ => Template.reserved_eq_nil,
          List.nil_append]
        exact ih (fun id rows hmem => hcells id rows (List.mem_cons_of_mem _ hmem)) h
      | fail e' taken q =>
        rw [hread] at h
        cases h
        apply Refusal.append
        rcases readToken_eq_fail hread with hdeep | ⟨k, f, rfl, hk, he⟩ | ⟨id, rows, rfl, he⟩
        · exact .inl hdeep
        · refine .inr ⟨k, f.opening.id, he, ?_⟩
          rcases hk with rfl | rfl <;> rfl
        · rw [Token.reservedOf_table]
          exact Refusal.cells (fun row hrow c hc => hcells id rows List.mem_cons_self row hrow c hc
            p.depth) he

theorem readBlock_refusal_of_readTokens {depth : Nat} {stops : List TokenKind} {tag : Tag}
    {ts : List Token}
    (hread : ∀ p, (readTokens s ts p).result = .error e → Refusal s (Token.reservedOf ts) e)
    (h : (readBlock s depth stops tag ts).result = .error e) :
    Refusal s (Token.reservedOf ts) e := by
  unfold readBlock at h
  dsimp only at h
  split at h
  · cases h
    exact .inl rfl
  · exact hread _ h

theorem Template.refusal {depth : Nat} {ts : List Token}
    (h : Template.ofTokens s depth ts = .error e) : Refusal s (Token.reservedOf ts) e := by
  induction ts using Token.cellInduction generalizing depth e with
  | h ts cells =>
    have hblock : (readBlock s depth [.endOfBody] {} ts).result = .error e := by
      simp only [Template.ofTokens, readTemplate] at h
      cases hresult : (readBlock s depth [.endOfBody] {} ts).result with
      | ok k => rw [hresult] at h; cases h
      | error e' => rw [hresult] at h; cases h; rfl
    apply readBlock_refusal_of_readTokens _ hblock
    intro p hp
    exact readTokens_refusal_of_cells
      (fun id rows hmem row hrow c hc depth e he => cells id rows hmem row hrow c hc he) hp

/-- **A reading is refused for the nesting limit or for the first reserved tag ahead**, whatever it
is to stop before and whatever is open where it begins. -/
theorem readTokens_refusal {ts : List Token} {p : Progress}
    (h : (readTokens s ts p).result = .error e) : Refusal s (Token.reservedOf ts) e :=
  readTokens_refusal_of_cells (fun _ _ _ _ _ _ _ _ _ => Template.refusal) h

end Refusals

/-- **Malformed fields never end a parse.** A body has a template, or bodies nest deeper in it than
the limit, or the parse names the first reserved tag of the document; a body with a reserved tag has
no template. Reading a block from any place of any session, up to any stops, never fails with an
error of a single field: looking ahead tells a tag just where a field can be read whose text starts
with that keyword, and this field is the next token. -/
theorem Body.parse_refusals (s : Setting) (b : Body) :
    ((∃ t, (b.parse s).result = .ok t) ∨ (b.parse s).result = .error (.nestingTooDeep s.limit) ∨
      ∃ k r, (b.parse s).result = .error (.unsupportedTag k r) ∧
        b.reservedTags.head? = some (k, r)) ∧
    (b.reservedTags ≠ [] → ∀ t, (b.parse s).result ≠ .ok t) ∧
    (∀ (session : Session) (stops : List TokenKind) (e : ParseError),
      (session.readBlock stops).1 = .error e → e.isOfField = false) ∧
    ∀ ps k, classify ps = .tag k ↔
      ∃ f after, readField ps = (.ok f, after) ∧ Keyword.match? f.instruction = some k ∧
        scan ps = .tag k f :: scan after := by
  rw [b.result_parse s]
  refine ⟨?_, ?_, ?_, ?_⟩
  · cases hresult : Template.ofTokens s 0 b.linearTokens with
    | ok t => exact .inl ⟨t, rfl⟩
    | error e =>
      rcases Template.refusal hresult with rfl | ⟨k, r, rfl, hhead⟩
      · exact .inr (.inl rfl)
      · exact .inr (.inr ⟨k, r, rfl, hhead⟩)
  · intro hreserved t hok
    exact hreserved (Template.reserved_eq_nil hok)
  · intro session stops e he
    exact (readBlock_refusal_of_readTokens (fun p hp => readTokens_refusal hp) he).isOfField
  · intro ps k
    rw [classify_eq_tag_iff]
    constructor
    · intro htag
      obtain ⟨f, after, hread, hkeyword⟩ := htag
      refine ⟨f, after, hread, hkeyword, ?_⟩
      -- The tokens are cut where single fields are read.
      rw [scan_eq_linear, scan_eq_linear, linear_tag hread hkeyword]
    · intro hfield
      obtain ⟨f, after, hread, hkeyword, -⟩ := hfield
      exact ⟨f, after, hread, hkeyword⟩

/-- A field that a table cuts off, and reserved tags in a cell and after the table. -/
def Body.reservedInCell : Body :=
  Draft.build
    [.paragraph [.opening, .instruction "m:for x | xs"],
      .table [[[.paragraph [.text "a"]], [.paragraph [.field ["m:let x"]]]]],
      .paragraph [.field ["m:elt y"], .closing]]

/-- The reserved tag in the cell comes first; the broken field before it is plain text. -/
theorem Body.parse_refusals_reservedInCell :
    Body.reservedInCell.reservedTags = [(.binding, 3), (.element, 6)] ∧
      (∀ t, (Body.reservedInCell.parse { compile := .fixed [] }).result ≠ .ok t) ∧
      (Body.reservedInCell.parse { compile := .fixed [] }).result =
        .error (.unsupportedTag .binding 3) := by
  have htags : Body.reservedInCell.reservedTags = [(.binding, 3), (.element, 6)] := by
    decide +kernel
  obtain ⟨hcases, hnone, -⟩ := Body.parse_refusals { compile := .fixed [] } Body.reservedInCell
  have hnot := hnone (by simp [htags])
  refine ⟨htags, hnot, ?_⟩
  rcases hcases with ⟨t, ht⟩ | hdeep | ⟨k, r, hresult, hhead⟩
  · exact absurd ht (hnot t)
  · exact absurd (congrArg (Except.map fun _ => ()) hdeep) (by decide +kernel)
  · rw [htags] at hhead
    cases hhead
    exact hresult

end DocTemplate
