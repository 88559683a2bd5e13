import DocTemplate.Parse.Events
import DocTemplate.Proofs.Dictionaries
import DocTemplate.Proofs.Pruning

/-!
# What a parse tells

While a body is read, each stray tag is told at the moment it is passed over, in whatever cell or
level that happens; the warnings are told when all is done, in the order in which the problems stand
in the tree. The two tell of the same tags. A stray is swallowed where the frames that are open have
no place for it, so the strays come in document order, and each of them leaves one report at the tag
of some node, wherever that tag stands in the tree.

## Main statements

- `Token.straysOf_sublist`: the stray fields stand in document order
- `readTemplate_strays`: the strays that are told are the stray fields
- `Body.parseLogged_tells`: what is told of a parse, and that it fits the template
-/

namespace DocTemplate

/-! ## Stray fields in document order -/

namespace Token

theorem straysOfCells_sublist {cells : List (List Token)}
    (h : ∀ c ∈ cells, ((straysOf [] c).map ofStray).Sublist (leavesOf c)) :
    ((straysOfCells cells).map ofStray).Sublist (leavesOfCells cells) := by
  induction cells with
  | nil => exact .slnil
  | cons c cs ih =>
    obtain ⟨hc, hcs⟩ := List.forall_mem_cons.mp h
    rw [straysOfCells, leavesOfCells, List.map_append]
    exact hc.append (ih hcs)

theorem straysOfRows_sublist {rows : List (List (List Token))}
    (h : ∀ row ∈ rows, ∀ c ∈ row, ((straysOf [] c).map ofStray).Sublist (leavesOf c)) :
    ((straysOfRows rows).map ofStray).Sublist (leavesOfRows rows) := by
  induction rows with
  | nil => exact .slnil
  | cons r rs ih =>
    obtain ⟨hr, hrs⟩ := List.forall_mem_cons.mp h
    rw [straysOfRows, leavesOfRows, List.map_append]
    exact (straysOfCells_sublist hr).append (ih hrs)

/-- **The stray fields stand in document order.** -/
theorem straysOf_sublist (fs : List Frame) (ts : List Token) :
    ((straysOf fs ts).map ofStray).Sublist (leavesOf ts) := by
  induction ts using cellInduction generalizing fs with
  | h ts cells =>
    induction ts generalizing fs with
    | nil => exact .slnil
    | cons t ts ih =>
      -- The inner induction goes along the tokens, with the frames that each of them leaves.
      have hrest := ih (fun id rows hmem => cells id rows (List.mem_cons_of_mem _ hmem))
        ((advance t.kind fs).getD fs)
      have hfirst : ((straysAt fs t).map ofStray).Sublist (leaves t) := by
        cases t with
        | text r => exact List.nil_sublist _
        | tag k f =>
          rw [straysAt]
          split
          · exact .refl _
          · exact List.nil_sublist _
        | table id rows =>
          exact straysOfRows_sublist fun row hrow c hc =>
            cells id rows List.mem_cons_self row hrow c hc []
      rw [straysOf, leavesOf, List.map_append]
      exact hfirst.append hrest

end Token

/-! ## The strays that are told -/

section Telling

variable {s : Setting}

theorem TagStep.strays_eq {p q : Progress} {k : Keyword} {f : Field} (h : TagStep s p k f q) :
    q.strays.map Stray.keyword =
      ((Token.straysAt p.frames (.tag k f)).map Prod.fst).reverse ++
        p.strays.map Stray.keyword := by
  rw [Token.straysAt]
  rcases h.frames with hplace | ⟨hnone, rfl⟩
  · -- A tag that has a place is no stray, whatever it does.
    have hstrays : q.strays = p.strays := by
      cases h with
      | single hc => exact p.strays_push _
      | opens hl hlimit => rfl
      | closes hlevels hends => exact Progress.strays_push _ _
      | elseIf hlevels hpurpose hlimit => rfl
      | otherwise hlevels hpurpose => rfl
      | strays hterminator hnone =>
        rw [hnone] at hplace
        cases hplace
    rw [hplace, if_neg (Option.some_ne_none _), hstrays]
    rfl
  · rw [if_pos hnone]
    unfold Progress.swallow
    cases p.levels <;> rfl

/-- A token tells of its stray fields, the last one first. -/
theorem Reads.strays_eq {t : Token} {p q : Progress} (h : Reads s t p q)
    (hcells : ∀ id rows, t = .table id rows → ∀ row ∈ rows, ∀ c ∈ row, ∀ depth u,
      Template.ofTokens s depth c = .ok u →
        (readTemplate s depth c).strays.map Stray.keyword =
          (Token.straysOf [] c).map Prod.fst) :
    q.strays.map Stray.keyword =
      ((Token.straysAt p.frames t).map Prod.fst).reverse ++ p.strays.map Stray.keyword := by
  cases h with
  | text r p => rfl
  | tag hstep =>
    have hstrays := hstep.strays_eq
    rwa [p.frames_settle, p.strays_settle] at hstrays
  | @table id rows p ts hread =>
    -- Every cell is read, since the table is, and what it tells comes in the order of the cells.
    have hrows : (cellStrays s p.depth rows).map Stray.keyword =
        (Token.straysOfRows rows).map Prod.fst := by
      rw [cellStrays, Token.straysOfRows_eq_flatMap, List.map_flatMap, List.map_flatMap]
      refine List.flatMap_congr fun row hrow => ?_
      rw [List.map_flatMap, List.map_flatMap]
      refine List.flatMap_congr fun c hc => ?_
      obtain ⟨u, hu⟩ := exists_of_cellTemplates_eq_ok hread row hrow c hc
      exact hcells id rows rfl row hrow c hc p.depth u hu
    rw [Token.straysAt, ← hrows, List.map_append, List.map_reverse]

theorem Runs.strays_eq {ts : List Token} {p q : Progress} (h : Runs s ts p q)
    (hcells : ∀ id rows, Token.table id rows ∈ ts → ∀ row ∈ rows, ∀ c ∈ row, ∀ depth u,
      Template.ofTokens s depth c = .ok u →
        (readTemplate s depth c).strays.map Stray.keyword =
          (Token.straysOf [] c).map Prod.fst) :
    q.strays.map Stray.keyword =
      ((Token.straysOf p.frames ts).map Prod.fst).reverse ++ p.strays.map Stray.keyword := by
  induction h with
  | nil p => rfl
  | @cons t ts p q r hstep hrest ih =>
    have hfirst := hstep.strays_eq fun id rows ht => hcells id rows (ht ▸ List.mem_cons_self)
    have hnext := ih fun id rows hmem => hcells id rows (List.mem_cons_of_mem _ hmem)
    rw [hnext, hfirst, hstep.frames, Token.straysOf]
    simp

/-- **The strays that are told** while a template is read are its stray fields, in their order. -/
theorem readTemplate_strays {depth : Nat} {ts : List Token} {t : Template}
    (h : Template.ofTokens s depth ts = .ok t) :
    (readTemplate s depth ts).strays.map Stray.keyword = (Token.straysOf [] ts).map Prod.fst := by
  induction ts using Token.cellInduction generalizing depth t with
  | h ts cells =>
    obtain ⟨hlimit, q, hruns, -⟩ := Template.ofTokens_eq_ok_iff.mp h
    have hstrays := hruns.strays_eq fun id rows hmem row hrow c hc depth u hu =>
      cells id rows hmem row hrow c hc hu
    -- The last stray was told last, and the end of the body tells of none.
    have hread : (readTemplate s depth ts).strays = q.strays.reverse := by
      have hstart : ({ block := { stops := [.endOfBody], depth := depth + 1, header := {} } } :
          Progress) = .fresh depth := rfl
      rw [readTemplate, readBlock, if_neg (Nat.not_le_of_lt hlimit), hstart,
        readTokens_of_runs rfl hruns, Progress.finish]
      exact congrArg List.reverse q.strays_settle
    rw [hread, List.map_reverse, hstrays]
    simp [Progress.fresh, Progress.start, Progress.frames]

end Telling

/-! ## The events of a parse -/

/-- What is told of a stray tag that is passed over. -/
def Event.IsSkip (e : Event) : Prop :=
  ∃ (k : Keyword) (depth : Nat),
    e = { level := .debug, code := "D000", message := "Skipped stray tag",
          context := .ofList [("tag", k.spelling), ("depth", toString depth)] }

/-- What is told at the end fits a template: a warning for each problem, in their order, and then
that the template is read; and the tags that were passed over are those that it reports. -/
structure Template.FitsEvents (t : Template) (b : Body) (skipped last : List Event) : Prop where
  last_eq : last =
    t.problems.map (fun p =>
        { level := .warning, code := p.code,
          message := Text.clip Limits.messageBytes p.message, run := p.run }) ++
      [{ level := .info, code := "I040", message := "Template parsed",
         context := .ofList [("constructs", toString t.body.length),
           ("errors", toString t.problems.length)] }]
  length_skipped : skipped.length = t.problems.countP Problem.isStrayReport
  /-- The strays stand in the body in the order in which they are told, and each of them is
  reported. -/
  strays : ∃ strays : List (Keyword × Field),
    (strays.map Token.ofStray).Sublist (Token.leavesOf b.linearTokens) ∧
      skipped.map (fun e => e.context.get? "tag") = strays.map (fun g => some g.1.spelling) ∧
      (strays.map Problem.ofStray).Perm (t.problems.filter Problem.isStrayReport)

theorem Stray.event_eq (s : Stray) :
    s.event = { level := .debug, code := "D000", message := "Skipped stray tag",
                context := .ofList [("tag", s.keyword.spelling), ("depth", toString s.depth)] } :=
  rfl

/-- An event of a stray tag names its kind. -/
theorem Stray.tag_event (s : Stray) : s.event.context.get? "tag" = some s.keyword.spelling := by
  rw [event_eq]
  exact Dict.get?_ofList _ _

/-- **What a parse tells fits what it gives.** It tells how it starts and which stray tags it passes
over; if there is a template, it warns of each problem of the template and tells that it is read, and
the tags that it passed over are those that the template reports; if there is none, it tells why. -/
theorem Body.parseLogged_tells (s : Setting) (b : Body) :
    (b.parseLogged s).value = (b.parse s).result ∧
      ∃ skipped last : List Event,
        (b.parseLogged s).events =
          { level := .debug, code := "D000", message := "Starting template parse",
            context := .ofList [("runs", toString b.runCount),
              ("providers", toString s.providers.size)] } :: (skipped ++ last) ∧
        (∀ e ∈ skipped, e.IsSkip) ∧
        match (b.parse s).result with
        | .ok t => t.FitsEvents b skipped last
        | .error e =>
          last = [{ level := .error, code := e.code, message := "Template parse failed",
                    run := e.run?, context := .ofList [("error", e.message)] }] := by
  refine ⟨rfl, (b.parse s).strays.map Stray.event, (b.parse s).lastEvents, rfl, ?_, ?_⟩
  · intro e he
    obtain ⟨stray, -, rfl⟩ := List.mem_map.mp he
    exact ⟨stray.keyword, stray.depth, rfl⟩
  cases hresult : (b.parse s).result with
  | error e =>
    rw [Parsed.lastEvents, hresult]
    rfl
  | ok t =>
    have htokens : Template.ofTokens s 0 b.tokens = .ok t := hresult
    have hstrays : (b.parse s).strays.map Stray.keyword =
        (Token.straysOf [] b.tokens).map Prod.fst := readTemplate_strays htokens
    have hperm := Template.strayReports_perm htokens
    -- The strays that are told and the reports are both compared with the stray fields.
    have hlength : (b.parse s).strays.length = (Token.straysOf [] b.tokens).length := by
      simpa using congrArg List.length hstrays
    refine ⟨by rw [Parsed.lastEvents, hresult]; rfl, ?_, _, ?_, ?_, hperm⟩
    · rw [List.length_map, hlength, List.countP_eq_length_filter, ← hperm.length_eq,
        List.length_map]
    · rw [← b.tokens_eq_linearTokens]
      exact Token.straysOf_sublist [] b.tokens
    · have hkinds := congrArg (List.map fun k => some (Keyword.spelling k)) hstrays
      rw [List.map_map, List.map_map] at hkinds
      rw [List.map_map]
      simpa only [Function.comp_def, Stray.tag_event] using hkinds

end DocTemplate
