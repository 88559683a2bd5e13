import DocTemplate.Document.Draft
import DocTemplate.Processing
import DocTemplate.Proofs.Dictionaries

/-!
# The order of provider declarations

A configuration is accepted when every provider has a name that is not blank and that no other
provider has. Then the registry holds each of them under its name, and nothing that is processed
under the configuration depends on the order in which they were declared. In a list that was not
checked, the last declaration of a name counts.

## Main statements

- `Config.validate_eq_ok_iff`: which configurations are accepted
- `Registry.lookup?_ofList`: the last declaration of a name counts
- `Config.process_of_perm`: processing does not depend on the order of declarations
- `Config.providers_unordered`: all of this in one
-/

namespace DocTemplate

/-! ## Registries -/

namespace Registry

/-- Providers, each with its name in front. -/
def named (ps : List Provider) : List (String × Provider) := ps.map fun p => (p.name, p)

theorem map_fst_named (ps : List Provider) : (named ps).map Prod.fst = ps.map Provider.name := by
  rw [named, List.map_map]
  rfl

theorem map_snd_named (ps : List Provider) : (named ps).map Prod.snd = ps := by
  rw [named, List.map_map]
  exact List.map_id ps

/-- A registry is the dictionary of the named providers. -/
theorem byName_ofList (ps : List Provider) : (ofList ps).byName = Dict.ofList (named ps) := by
  suffices h : ∀ r : Registry, (ps.foldl register r).byName =
      (named ps).foldl (fun d e => d.insert e.1 e.2) r.byName from h empty
  induction ps with
  | nil => intro r; rfl
  | cons p ps ih => intro r; exact ih (r.register p)

/-- **The last declaration of a name counts.** -/
theorem lookup?_ofList (ps : List Provider) (name : String) :
    (ofList ps).lookup? name = (ps.filter (·.name = name)).getLast? := by
  have hfilter : (named ps).filter (·.1 = name) = named (ps.filter (·.name = name)) :=
    List.filter_map
  rw [lookup?, byName_ofList, Dict.get?_ofList, hfilter, ← List.getLast?_map, map_snd_named]

section Distinct

variable {ps : List Provider} (hnames : (ps.map Provider.name).Nodup)

include hnames

theorem lookup?_name {p : Provider} (hp : p ∈ ps) : (ofList ps).lookup? p.name = some p := by
  rw [← map_fst_named] at hnames
  rw [lookup?, byName_ofList, ← Dict.mem_entries_iff, Dict.mem_entries_ofList hnames]
  exact List.mem_map_of_mem hp

/-- Each declaration is one entry. -/
theorem values_ofList_perm : (ofList ps).byName.values.Perm ps := by
  rw [← map_fst_named] at hnames
  have hvalues := (Dict.entries_ofList_perm hnames).map Prod.snd
  rwa [map_snd_named, ← byName_ofList] at hvalues

/-- The order of declarations does not show. -/
theorem ofList_eq_of_perm {qs : List Provider} (h : qs.Perm ps) : ofList qs = ofList ps := by
  rw [← map_fst_named] at hnames
  have hsame := Dict.ofList_eq_of_perm hnames (h.map fun p => (p.name, p))
  rw [← named, ← byName_ofList, ← byName_ofList] at hsame
  calc ofList qs = ⟨(ofList qs).byName⟩ := rfl
    _ = ⟨(ofList ps).byName⟩ := by rw [hsame]
    _ = ofList ps := rfl

end Distinct

end Registry

/-! ## Validation -/

namespace Config

/-- No name is blank or among those seen before, and no name is given twice. -/
theorem checkProviders_eq_ok_iff (seen : List String) (ps : List Provider) :
    checkProviders seen ps = .ok () ↔
      (∀ p ∈ ps, Text.trimmed p.name ≠ "") ∧ (ps.map Provider.name).Nodup ∧
        ∀ p ∈ ps, p.name ∉ seen := by
  induction ps generalizing seen with
  | nil => simp [checkProviders]
  | cons p ps ih =>
    have hblank : (Text.trim p.name.toList).isEmpty = true ↔ Text.trimmed p.name = "" := by
      simp [Text.trimmed]
    simp only [checkProviders, hblank, List.contains_iff_mem, List.map_cons, List.nodup_cons,
      List.forall_mem_cons]
    split
    · -- The first provider has no name.
      rename_i hnone
      simp [hnone]
    · split
      · rename_i hnone hseen
        simp [hseen]
      · -- The rest must not repeat the first one's name either.
        rename_i hnone hseen
        rw [ih (p.name :: seen)]
        simp only [List.mem_cons, not_or, forall_and, List.mem_map, not_exists, not_and]
        constructor
        · rintro ⟨hnames, hnodup, hfirst, hbefore⟩
          exact ⟨⟨hnone, hnames⟩, ⟨hfirst, hnodup⟩, hseen, hbefore⟩
        · rintro ⟨⟨-, hnames⟩, ⟨hfirst, hnodup⟩, -, hbefore⟩
          exact ⟨hnames, hnodup, hfirst, hbefore⟩

theorem validate_eq_ok_iff (c : Config) :
    c.validate = .ok () ↔
      (∀ p ∈ c.providers, Text.trimmed p.name ≠ "") ∧ (c.providers.map Provider.name).Nodup := by
  rw [validate, checkProviders_eq_ok_iff]
  simp

/-! ## Processing -/

/-- A configuration that is accepted is accepted with its providers in any order. -/
theorem validate_of_perm {c : Config} (h : c.validate = .ok ()) {qs : List Provider}
    (hperm : qs.Perm c.providers) : { c with providers := qs }.validate = .ok () := by
  rw [validate_eq_ok_iff] at h ⊢
  refine ⟨?_, (hperm.map Provider.name).nodup_iff.mpr h.2⟩
  intro p hp
  exact h.1 p (hperm.mem_iff.mp hp)

/-- **Processing does not depend on the order of declarations,** neither in its result nor in what
it tells about it. -/
theorem process_of_perm {c : Config} (h : c.validate = .ok ()) {qs : List Provider}
    (hperm : qs.Perm c.providers) (b : Body) :
    { c with providers := qs }.process b = c.process b := by
  have hnames := ((validate_eq_ok_iff c).mp h).2
  -- Only the registry is made from the providers, and it is the same one.
  have hsetting : { c with providers := qs }.setting = c.setting := by
    simp only [setting, Registry.ofList_eq_of_perm hnames hperm]
  simp only [process, h, validate_of_perm h hperm, parse, hsetting]

/-- **The order of provider declarations is irrelevant once a configuration is accepted.** It is
accepted exactly if its providers have names that are not blank and differ. Then the registry has
one entry for each of them, finds each under its name as it was declared, and every body is
processed alike in whatever order they stand. In any list, the last declaration of a name is
found. -/
theorem providers_unordered (c : Config) :
    (c.validate = .ok () ↔
      (∀ p ∈ c.providers, Text.trimmed p.name ≠ "") ∧ (c.providers.map Provider.name).Nodup) ∧
    (c.validate = .ok () →
      (Registry.ofList c.providers).size = c.providers.length ∧
      (Registry.ofList c.providers).byName.values.Perm c.providers ∧
      (∀ p ∈ c.providers, (Registry.ofList c.providers).lookup? p.name = some p) ∧
      ∀ qs, qs.Perm c.providers → ∀ b : Body,
        { c with providers := qs }.process b = c.process b) ∧
    ∀ name, (Registry.ofList c.providers).lookup? name =
      (c.providers.filter (·.name = name)).getLast? := by
  refine ⟨validate_eq_ok_iff c, ?_, Registry.lookup?_ofList c.providers⟩
  intro h
  have hnames := ((validate_eq_ok_iff c).mp h).2
  have hvalues := Registry.values_ofList_perm hnames
  have hsize : (Registry.ofList c.providers).size = c.providers.length := by
    rw [← hvalues.length_eq, Dict.values, List.length_map]
    rfl
  refine ⟨hsize, hvalues, ?_, ?_⟩
  · intro p hp
    exact Registry.lookup?_name hnames hp
  · intro qs hperm b
    exact process_of_perm h hperm b

/-- A provider that cannot draw, and one that can and takes an expression. -/
def tablesAndDiagrams : Config where
  providers := [{ name := "b.Tables", diagram := false },
    { name := "a.Diagrams", options := .ofList [("layers", .expression)] }]

/-- A diagram for the second of them. -/
def diagramBody : Body :=
  Draft.build [.paragraph [.field ["m:diagram provider:\"a.Diagrams\" layers:\"self.layers\""]]]

theorem providers_unordered_swapped :
    tablesAndDiagrams.validate = .ok () ∧
      (Registry.ofList tablesAndDiagrams.providers).size = 2 ∧
      (tablesAndDiagrams.process diagramBody).value.toOption.map (·.stats.problems) = some 0 ∧
      { tablesAndDiagrams with providers := tablesAndDiagrams.providers.reverse }.process
        diagramBody = tablesAndDiagrams.process diagramBody := by
  have hvalid : tablesAndDiagrams.validate = .ok () := by rfl
  obtain ⟨-, haccepted, -⟩ := providers_unordered tablesAndDiagrams
  obtain ⟨hsize, -, -, hprocess⟩ := haccepted hvalid
  refine ⟨hvalid, hsize, by decide +kernel, ?_⟩
  exact hprocess _ (List.reverse_perm _) diagramBody

end Config

end DocTemplate
