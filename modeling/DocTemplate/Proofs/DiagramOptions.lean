import DocTemplate.Proofs.OptionEffects

/-!
# Diagrams and their providers

A diagram is nothing without a provider that can draw it. If its options name none, only that is
reported, and no option has any effect. Otherwise every option has one: the provider's name settles
the provider, the legend, its position and the sizes go to the diagram as they go to an image, and
all others go to the provider, whether or not it declares them.

## Main statements

- `resolveProvider_of_cannotDraw`, `resolveProvider_of_draws`: when a provider is found
- `readExtras_eq`: what goes to the provider, and which expressions are reported
- `Session.readDiagram_allOrNothing`: what a diagram makes of its options
-/

namespace DocTemplate

/-! ## The provider -/

namespace Registry

variable (r : Registry) (m : OptionMap)

/-- Why there is no provider that draws a diagram with these options. -/
inductive CannotDraw : Cause → Prop where
  | notNamed (hname : m.get? "provider" = none) : CannotDraw .diagramWithoutProvider
  | unknown {name : String} (hname : m.get? "provider" = some name)
      (hfound : r.lookup? name = none) : CannotDraw (.unknownProvider name)
  /-- There is a provider of this name, but it does something else. -/
  | unsuited {name : String} {p : Provider} (hname : m.get? "provider" = some name)
      (hfound : r.lookup? name = some p) (hdraws : p.diagram = false) :
      CannotDraw (.notADiagramProvider name)

/-- The options name this provider, and it draws diagrams. -/
structure Draws (p : Provider) : Prop where
  named : ∃ name, m.get? "provider" = some name ∧ r.lookup? name = some p
  draws : p.diagram = true

end Registry

section Resolving

variable {r : Registry} {m : OptionMap}

theorem resolveProvider_of_cannotDraw {cause : Cause} (h : r.CannotDraw m cause) :
    resolveProvider r m = .error cause := by
  cases h with
  | notNamed hname => simp only [resolveProvider, OptionName.provider, hname]
  | unknown hname hfound => simp only [resolveProvider, OptionName.provider, hname, hfound]
  | unsuited hname hfound hdraws =>
    simp [resolveProvider, OptionName.provider, hname, hfound, hdraws]

theorem resolveProvider_of_draws {p : Provider} (h : r.Draws m p) :
    resolveProvider r m = .ok p := by
  obtain ⟨name, hname, hfound⟩ := h.named
  simp [resolveProvider, OptionName.provider, hname, hfound, h.draws]

/-- There is a provider, or a reason why there is none. -/
theorem cannotDraw_or_draws (r : Registry) (m : OptionMap) :
    (∃ cause, r.CannotDraw m cause) ∨ ∃ p, r.Draws m p := by
  cases hname : m.get? "provider" with
  | none => exact .inl ⟨_, .notNamed hname⟩
  | some name =>
    cases hfound : r.lookup? name with
    | none => exact .inl ⟨_, .unknown hname hfound⟩
    | some p =>
      cases hdraws : p.diagram with
      | false => exact .inl ⟨_, .unsuited hname hfound hdraws⟩
      | true => exact .inr ⟨p, ⟨name, hname, hfound⟩, hdraws⟩

end Resolving

/-! ## Options for the provider -/

/-- The diagram makes use of the option itself. -/
def KeptByDiagram (key : String) : Prop :=
  key ∈ ["legend", "legendPos", "height", "width", "provider"]

instance (key : String) : Decidable (KeptByDiagram key) :=
  inferInstanceAs (Decidable (key ∈ _))

/-- An option whose name neither diagrams nor the provider know is reported, and so is a legend
position that is none. -/
def nameCause? (p : Provider) (key value : String) : Option Cause :=
  if key ∉ ["file", "height", "width", "legend", "legendPos", "provider"] ∧
      p.options.get? key = none then
    some (.unknownOption key)
  else if key = "legendPos" ∧ value ≠ "above" ∧ value ≠ "below" then
    some (.unknownOptionValue key value)
  else none

/-- A value that the provider takes as an expression and that is none is reported. -/
def expressionCause? (s : Setting) (p : Provider) (key value : String) : Option Cause :=
  if ¬ KeptByDiagram key ∧ p.options.get? key = some .expression ∧
      (s.compile value).isValid = false then
    some (.invalidExpression value (s.compile value).errors)
  else none

theorem checkOption_diagram (p : Provider) (key value : String) :
    checkOption (OptionName.ofDiagram ++ p.options.keys) key value = nameCause? p key value := by
  have hknown : key ∉ OptionName.ofDiagram ++ p.options.keys ↔
      key ∉ ["file", "height", "width", "legend", "legendPos", "provider"] ∧
        p.options.get? key = none := by
    rw [List.mem_append, not_or, Dict.mem_keys_iff, not_exists,
      ← Option.eq_none_iff_forall_ne_some]
    rfl
  simp only [checkOption_eq, hknown, nameCause?]

/-- A provider gets an option that it declares as an expression compiled, and all others as they
are. -/
def Setting.valueFor (s : Setting) (p : Provider) (key value : String) : OptionValue :=
  if p.options.get? key = some .expression then .expression (s.compile value).valid?
  else .text value

/-- One more option for the provider. -/
def addExtra (s : Setting) (p : Provider) (state : Dict OptionValue × Tag) (e : String × String) :
    Dict OptionValue × Tag :=
  (state.1.insert e.1 (s.valueFor p e.1 e.2),
    state.2.reportAll (expressionCause? s p e.1 e.2).toList)

theorem addExtra_eq {s : Setting} {p : Provider} {extras : Dict OptionValue} {tag : Tag}
    {key value : String} (hkept : ¬ KeptByDiagram key) :
    (match p.options.get? key with
      | some .expression =>
        ((extras.insert key (.expression (s.compileFor tag tag.anchor? value).1),
          (s.compileFor tag tag.anchor? value).2) : Dict OptionValue × Tag)
      | some .text | none => (extras.insert key (.text value), tag)) =
      addExtra s p (extras, tag) (key, value) := by
  rw [addExtra, Setting.valueFor, expressionCause?]
  -- The compiler is asked only where the provider declares an expression.
  cases p.options.get? key with
  | none => simp [Tag.reportAll_nil]
  | some type =>
    cases type with
    | text => simp [Tag.reportAll_nil]
    | expression =>
      cases hvalid : (s.compile value).isValid <;>
        simp [Setting.compileFor, Compilation.valid?, hkept, hvalid, Tag.reportAll, Tag.report]

/-- What goes to the provider, and what is reported of it, one option after another. -/
theorem foldl_addExtra (s : Setting) (p : Provider) (entries : List (String × String))
    (extras : Dict OptionValue) (tag : Tag) :
    entries.foldl (addExtra s p) (extras, tag) =
      ((entries.map fun e => (e.1, s.valueFor p e.1 e.2)).foldl
          (fun d e => d.insert e.1 e.2) extras,
        tag.reportAll (entries.filterMap fun e => expressionCause? s p e.1 e.2)) := by
  induction entries generalizing extras tag with
  | nil => simp [Tag.reportAll_nil]
  | cons e entries ih =>
    rw [List.foldl_cons, addExtra, ih, Tag.reportAll_append]
    cases hcause : expressionCause? s p e.1 e.2 <;> simp [hcause]

/-- The options for a provider, by key. -/
def Setting.extrasFor (s : Setting) (p : Provider) (m : OptionMap) : Dict OptionValue where
  entries := (m.entries.filter (¬ KeptByDiagram ·.1)).map fun e => (e.1, s.valueFor p e.1 e.2)
  sorted := List.pairwise_map.mpr (m.sorted.filter _)

/-- **What goes to the provider**, and what is reported of it. -/
theorem readExtras_eq (s : Setting) (p : Provider) (tag : Tag) (m : OptionMap) :
    readExtras s p tag m =
      (s.extrasFor p m,
        tag.reportAll (m.entries.filterMap fun e => expressionCause? s p e.1 e.2)) := by
  have hkept : ∀ e : String × String,
      (!OptionName.handledByDiagram.contains e.1) = decide (¬ KeptByDiagram e.1) := by
    intro e
    rw [Bool.eq_iff_iff, decide_eq_true_iff, Bool.not_eq_true', ← Bool.not_eq_true,
      List.contains_iff_mem]
    rfl
  have hfold : readExtras s p tag m =
      (m.entries.filter (¬ KeptByDiagram ·.1)).foldl (addExtra s p) (Dict.empty, tag) := by
    rw [readExtras, List.filter_congr fun e _ => hkept e]
    refine List.foldl_ext _ _ _ fun state e he => addExtra_eq ?_
    simpa using (List.mem_filter.mp he).2
  -- Nothing is reported of what the diagram makes use of itself.
  have hcauses : (m.entries.filter (¬ KeptByDiagram ·.1)).filterMap
      (fun e => expressionCause? s p e.1 e.2) =
        m.entries.filterMap fun e => expressionCause? s p e.1 e.2 := by
    rw [List.filterMap_filter]
    refine List.filterMap_congr fun e _ => ?_
    by_cases hkey : KeptByDiagram e.1 <;> simp [expressionCause?, hkey]
  rw [hfold, foldl_addExtra, hcauses]
  exact Prod.ext (Dict.ofList_of_sorted (s.extrasFor p m).sorted) rfl

section Extras

variable (s : Setting) (p : Provider) (m : OptionMap)

theorem keys_extrasFor :
    (s.extrasFor p m).keys = m.keys.filter (¬ KeptByDiagram ·) := by
  simp only [Setting.extrasFor, Dict.keys, List.map_map, List.filter_map]
  rfl

theorem get?_extrasFor {key value : String} (hkey : ¬ KeptByDiagram key)
    (hvalue : m.get? key = some value) :
    (s.extrasFor p m).get? key = some (s.valueFor p key value) := by
  rw [← Dict.mem_entries_iff] at hvalue ⊢
  refine List.mem_map.mpr ⟨(key, value), List.mem_filter.mpr ⟨hvalue, ?_⟩, rfl⟩
  simpa using hkey

end Extras

/-! ## Reading a diagram -/

/-- What is reported of a diagram's options if a provider draws it. -/
def diagramCauses (s : Setting) (p : Provider) (m : OptionMap) : List Cause :=
  m.entries.filterMap (fun e => nameCause? p e.1 e.2) ++ sizeCauses m ++
    m.entries.filterMap fun e => expressionCause? s p e.1 e.2

section Reading

variable {s : Setting} {f : Field} {written : List Char} {l : OptionList}
  (hwritten : f.instruction = "m:diagram".toList ++ written)
  (hl : l.spelling = Text.trim written)

include hwritten hl

/-- **Without a provider nothing has an effect**, and that there is none is all that is reported. -/
theorem readDiagram_of_cannotDraw {cause : Cause}
    (h : s.providers.CannotDraw l.options cause) :
    readDiagram s f =
      .diagram ((Tag.ofField f).reportAll (l.causes ++ [cause])) {} none {} := by
  have hread : readOptions Keyword.diagram.spelling.toList f.instruction = (l.options, l.causes) :=
    f.readOptions_eq hwritten hl
  simp only [readDiagram, hread, resolveProvider_of_cannotDraw h, Tag.reportAll_append]

/-- **With a provider every option has its effect.** -/
theorem readDiagram_of_draws {p : Provider} (h : s.providers.Draws l.options p) :
    readDiagram s f =
      .diagram ((Tag.ofField f).reportAll (l.causes ++ diagramCauses s p l.options))
        (applyImageOptions l.options {}).1 (some p.name) (s.extrasFor p l.options) := by
  have hnames : checkOptions (OptionName.ofDiagram ++ p.options.keys) l.options =
      l.options.entries.filterMap fun e => nameCause? p e.1 e.2 := by
    simp only [checkOptions, checkOption_diagram]
  have hread : readOptions Keyword.diagram.spelling.toList f.instruction = (l.options, l.causes) :=
    f.readOptions_eq hwritten hl
  simp only [readDiagram, hread, resolveProvider_of_draws h, hnames, readExtras_eq,
    applyImageOptions_causes_eq, Tag.reportAll_append, diagramCauses, List.append_assoc]

end Reading

/-- What a diagram that a provider draws has of its options. -/
structure Provider.HasOptions (p : Provider) (s : Setting) (m : OptionMap) (o : ImageOptions)
    (extras : Dict OptionValue) : Prop where
  /-- Images have a file, diagrams have none. -/
  fileName : o.fileName = none
  taken : o.TakenOver m
  /-- The provider gets what the diagram makes no use of itself. -/
  keys : extras.keys =
    m.keys.filter (· ∉ ["legend", "legendPos", "height", "width", "provider"])
  /-- It gets expressions where it declares expressions. -/
  expressions : ∀ key ∈ extras.keys, p.options.get? key = some .expression →
    ∀ value, m.get? key = some value →
      extras.get? key = some (.expression (s.compile value).valid?)
  texts : ∀ key ∈ extras.keys, p.options.get? key ≠ some .expression →
    ∀ value, m.get? key = some value → extras.get? key = some (.text value)

theorem Provider.hasOptions (p : Provider) (s : Setting) (m : OptionMap) :
    p.HasOptions s m (applyImageOptions m {}).1 (s.extrasFor p m) := by
  have hkeys : ∀ key ∈ (s.extrasFor p m).keys, ¬ KeptByDiagram key := by
    intro key hkey
    rw [keys_extrasFor] at hkey
    simpa using (List.mem_filter.mp hkey).2
  constructor
  case fileName => exact applyImageOptions_fileName m {}
  case taken => exact applyImageOptions_takenOver m none
  case keys => exact keys_extrasFor s p m
  case expressions =>
    intro key hkey htype value hvalue
    rw [get?_extrasFor s p m (hkeys key hkey) hvalue, Setting.valueFor, if_pos htype]
  case texts =>
    intro key hkey htype value hvalue
    rw [get?_extrasFor s p m (hkeys key hkey) hvalue, Setting.valueFor, if_neg htype]

namespace Session

/-- **A diagram's options are applied all or not at all**, and none of them is lost. Where a
complete field says that it is a diagram, the diagram is read and the session goes on behind the
field. There is one option list that is spelled behind the keyword. If its options name no provider
that draws diagrams, the diagram has nothing of them, and only the reason is reported behind what is
wrong with the list. Otherwise it has that provider and all of the options, and reports, each in key
order, names and legend positions, sizes, and the provider's expressions. -/
theorem readDiagram_allOrNothing (s : Session) {f : Field} {rest : List Position}
    {written : List Char} (hfield : f.StandsAt s.cursor.rest rest)
    (hwritten : f.instruction = "m:diagram".toList ++ written) :
    ∃ (l : OptionList) (causes : List Cause) (o : ImageOptions) (provider? : Option String)
        (extras : Dict OptionValue),
      (l.spelling = Text.trim written ∧
        ∀ l' : OptionList, l'.spelling = Text.trim written → l' = l) ∧
      s.readDiagram =
        (.ok (.diagram ((Tag.ofField f).reportAll (l.causes ++ causes)) o provider? extras),
          { s with cursor := s.cursor.forward (f.inner.length + 2) }) ∧
      ((∃ cause, s.setting.providers.CannotDraw l.options cause) ∨
        ∃ p, s.setting.providers.Draws l.options p) ∧
      (∀ cause, s.setting.providers.CannotDraw l.options cause →
        provider? = none ∧ extras = {} ∧ o = {} ∧ causes = [cause]) ∧
      ∀ p, s.setting.providers.Draws l.options p →
        provider? = some p.name ∧ p.HasOptions s.setting l.options o extras ∧
          causes = diagramCauses s.setting p l.options := by
  obtain ⟨l, hl, hunique⟩ := OptionList.exists_unique_spelling (Text.trim written)
  -- A provider is found or not, and the other case is then impossible.
  rcases cannotDraw_or_draws s.setting.providers l.options with ⟨cause, hcause⟩ | ⟨p, hp⟩
  · have hnone := resolveProvider_of_cannotDraw hcause
    refine ⟨l, [cause], {}, none, {}, ⟨hl, hunique⟩, ?_, .inl ⟨cause, hcause⟩, ?_, ?_⟩
    · rw [readDiagram, readWith_of_standsAt hfield, readDiagram_of_cannotDraw hwritten hl hcause]
    · intro cause' hcause'
      obtain rfl := Except.error.inj (hnone.symm.trans (resolveProvider_of_cannotDraw hcause'))
      exact ⟨rfl, rfl, rfl, rfl⟩
    · intro p hp
      exact absurd (hnone.symm.trans (resolveProvider_of_draws hp)) nofun
  · have hfound := resolveProvider_of_draws hp
    refine ⟨l, diagramCauses s.setting p l.options, (applyImageOptions l.options {}).1,
      some p.name, s.setting.extrasFor p l.options, ⟨hl, hunique⟩, ?_, .inr ⟨p, hp⟩, ?_, ?_⟩
    · rw [readDiagram, readWith_of_standsAt hfield, readDiagram_of_draws hwritten hl hp]
    · intro cause hcause
      exact absurd (hfound.symm.trans (resolveProvider_of_cannotDraw hcause)) nofun
    · intro p' hp'
      obtain rfl := Except.ok.inj (hfound.symm.trans (resolveProvider_of_draws hp'))
      exact ⟨rfl, p.hasOptions s.setting _, rfl⟩

/-- A provider that takes two expressions, one of them under a name that every diagram has. -/
def plotter : Provider where
  name := "plot"
  options := .ofList [("height", .expression), ("query", .expression)]

/-- A field with options that diagrams have, that the provider has, and that nothing has. -/
def plotField : Field where
  opening := { id := 0, mark := some .opening }
  inner :=
    [{ id := 1, fragments := ["m:diagram provider:\"plot\" query:\"x\" height:\"tall\""] },
      { id := 2, fragments := [" title:\"y\" file:\"f\" legendPos:\"left\" legend:"] }]
  closing := { id := 3, mark := some .closing }

/-- What stands behind its keyword. -/
def plotOptions : List Char := plotField.instruction.drop "m:diagram".length

/-- A session before this field, with a compiler that takes nothing for an expression. -/
def beforePlot : Session where
  setting :=
    { compile := .fixed ["no expression"]
      providers := { byName := ⟨[("plot", plotter)], by simp [Dict.Sorted]⟩ } }
  cursor := { positions := plotField.opening :: plotField.inner ++ [plotField.closing] |>.map .run }

/-- The list breaks off in its last option, which is taken over all the same. -/
theorem readDiagram_allOrNothing_beforePlot :
    ∃ o extras,
      beforePlot.readDiagram.1 =
        .ok (.diagram ((Tag.ofField plotField).reportAll
          [.unfinishedOption "legend", .unknownOptionValue "legendPos" "left",
            .unknownOption "title", .notAnInteger "height" "tall",
            .invalidExpression "x" ["no expression"]]) o (some "plot") extras) ∧
      extras.keys = ["file", "query", "title"] ∧ extras.get? "query" = some (.expression none) ∧
      o.legend = some "" ∧ o.height = none := by
  have hfield : plotField.StandsAt beforePlot.cursor.rest [] :=
    ⟨rfl, rfl, by decide +kernel, rfl⟩
  have hwritten : plotField.instruction = "m:diagram".toList ++ plotOptions := by decide +kernel
  obtain ⟨l, causes, o, provider?, extras, ⟨-, hunique⟩, hread, -, -, hdrawn⟩ :=
    readDiagram_allOrNothing beforePlot hfield hwritten
  have hlist := hunique (.read (Text.trim plotOptions)) (OptionList.spelling_read _)
  have hentries : l.options.entries =
      [("file", "f"), ("height", "tall"), ("legend", ""), ("legendPos", "left"),
        ("provider", "plot"), ("query", "x"), ("title", "y")] := by
    rw [← hlist]
    decide +kernel
  have hwrong : l.causes = [.unfinishedOption "legend"] := by
    rw [← hlist]
    decide +kernel
  have hplot : beforePlot.setting.providers.Draws l.options plotter :=
    ⟨⟨"plot", by simp [Dict.get?, hentries], rfl⟩, rfl⟩
  obtain ⟨hprovider, hoptions, hcauses⟩ := hdrawn plotter hplot
  have hreported : l.causes ++ causes =
      [.unfinishedOption "legend", .unknownOptionValue "legendPos" "left",
        .unknownOption "title", .notAnInteger "height" "tall",
        .invalidExpression "x" ["no expression"]] := by
    rw [hcauses, hwrong, diagramCauses, sizeCauses, hentries]
    decide +kernel
  have hkeys : extras.keys = ["file", "query", "title"] := by
    rw [hoptions.keys, Dict.keys, hentries]
    decide
  refine ⟨o, extras, by rw [hread, hreported, hprovider]; rfl, hkeys, ?_, ?_, ?_⟩
  · exact hoptions.expressions "query" (by simp [hkeys]) (by decide +kernel) "x"
      (by simp [Dict.get?, hentries])
  · rw [hoptions.taken.legend]
    simp [Dict.get?, hentries]
  · have hnone := hoptions.taken.height
    have hheight : l.options.get? "height" = some "tall" := by simp [Dict.get?, hentries]
    rw [hheight] at hnone
    exact hnone.eq_none (by decide +kernel)

end Session

end DocTemplate
