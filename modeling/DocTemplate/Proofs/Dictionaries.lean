import DocTemplate.Dict
import Mathlib.Algebra.GroupWithZero.Nat
import Mathlib.Data.List.Induction
import Mathlib.Data.List.Nodup
import Mathlib.Data.List.Sort

/-!
# What dictionaries hold

A dictionary that is built from a list of pairs holds, for each key, the last value given for it. If
no key is given twice, all pairs are in it, and their order does not show, since a dictionary lists
its entries by key.

## Main statements

- `Dict.sum_values_insert`: what an insertion does to the sum of all values
- `Dict.foldl_entries_eq`: what one key has an effect on, when all entries are gone through
- `Dict.get?_ofList`: the last pair with a key counts
- `Dict.entries_ofList_perm`: pairs with different keys are all entries
- `Dict.ofList_eq_of_perm`: the order of pairs with different keys does not matter
-/

namespace DocTemplate.Dict

variable {α : Type}

theorem nodup_keys (d : Dict α) : d.keys.Nodup := d.keys_lt.imp fun h => String.ne_of_lt h

/-- The entries are what look-up finds. -/
theorem mem_entries_iff (d : Dict α) {key : String} {value : α} :
    (key, value) ∈ d.entries ↔ d.get? key = some value := by
  rw [get?, Option.map_eq_some_iff]
  constructor
  · intro hmem
    have hfound : (d.entries.find? (·.1 = key)).isSome = true := by
      rw [List.find?_isSome]
      exact ⟨(key, value), hmem, by simp⟩
    obtain ⟨e, he⟩ := Option.isSome_iff_exists.mp hfound
    have hkey : e.1 = key := by simpa using List.find?_some he
    -- No other entry has the key.
    have hsame : e = (key, value) :=
      List.inj_on_of_nodup_map d.nodup_keys (List.mem_of_find?_eq_some he) hmem hkey
    exact ⟨e, he, by rw [hsame]⟩
  · rintro ⟨e, hfind, rfl⟩
    have hkey : e.1 = key := by simpa using List.find?_some hfind
    rw [← hkey]
    exact List.mem_of_find?_eq_some hfind

/-- Dictionaries with the same entries are equal. -/
theorem eq_of_entries_perm {d e : Dict α} (h : d.entries.Perm e.entries) : d = e := by
  apply Dict.ext
  refine h.eq_of_pairwise ?_ d.sorted e.sorted
  intro a b _ _ hab hba
  exact absurd (String.lt_trans hab hba) (String.lt_irrefl a.1)

theorem mem_keys_iff (d : Dict α) {key : String} :
    key ∈ d.keys ↔ ∃ value, d.get? key = some value := by
  simp [keys, ← mem_entries_iff]

/-- What is inserted takes the place of what the key had before. -/
theorem sum_values_insert (d : Dict Nat) (key : String) (n : Nat) :
    (d.insert key n).values.sum + (d.get? key).getD 0 = d.values.sum + n := by
  obtain ⟨entries, hsorted⟩ := d
  show ((insertEntry key n entries).map Prod.snd).sum +
      ((entries.find? (·.1 = key)).map Prod.snd).getD 0 = (entries.map Prod.snd).sum + n
  induction entries with
  | nil => simp [insertEntry]
  | cons e rest ih =>
    obtain ⟨k, v⟩ := e
    obtain ⟨hfirst, hrest⟩ := List.pairwise_cons.mp hsorted
    rw [insertEntry]
    split
    next hlt =>
      -- All keys are larger than the new one.
      have hnone : ((k, v) :: rest).find? (·.1 = key) = none := by
        rw [List.find?_eq_none]
        intro e he hkey
        have hsame : e.1 = key := of_decide_eq_true hkey
        rcases List.mem_cons.mp he with rfl | he
        · exact String.ne_of_lt hlt hsame.symm
        · exact String.ne_of_lt (String.lt_trans hlt (hfirst e he)) hsame.symm
      rw [hnone]
      simp [Nat.add_comm]
    next =>
      split
      next heq =>
        simp [heq]
        omega
      next hne =>
        have hsum := ih hrest
        simp only [List.map_cons, List.sum_cons, List.find?_cons, Ne.symm hne, decide_false]
        omega

/-- **What only the entry of one key has an effect on** is changed by the value at that key, when
all entries are gone through. -/
theorem foldl_entries_eq {σ β : Type} (d : Dict α) (step : σ → String × α → σ) (part : σ → β)
    (key : String) (change : α → β → β)
    (hstep : ∀ state e,
      part (step state e) = if e.1 = key then change e.2 (part state) else part state)
    (state : σ) :
    part (d.entries.foldl step state) =
      (d.get? key).elim (part state) fun value => change value (part state) := by
  have hnodup : (d.entries.map Prod.fst).Nodup := d.nodup_keys
  rw [get?]
  generalize d.entries = entries at hnodup
  induction entries generalizing state with
  | nil => rfl
  | cons e entries ih =>
    obtain ⟨hnew, hrest⟩ := List.nodup_cons.mp hnodup
    rw [List.foldl_cons, ih (step state e) hrest, hstep, List.find?_cons]
    by_cases hkey : e.1 = key
    · -- The key does not come again.
      have hnone : entries.find? (·.1 = key) = none := by
        rw [List.find?_eq_none]
        intro e' he' hsame
        refine hnew (List.mem_map.mpr ⟨e', he', ?_⟩)
        rw [hkey, of_decide_eq_true hsame]
      simp [hkey, hnone]
    · simp [hkey]

/-- What is picked from the entry of one key only. -/
theorem filterMap_entries_eq {β : Type} (d : Dict α) (key : String) (pick : String × α → Option β)
    (hpick : ∀ e, e.1 ≠ key → pick e = none) :
    d.entries.filterMap pick = ((d.get? key).bind fun value => pick (key, value)).toList := by
  have hfold : ∀ (entries : List (String × α)) (picked : List β),
      entries.foldl (fun picked e => picked ++ (pick e).toList) picked =
        picked ++ entries.filterMap pick := by
    intro entries
    induction entries with
    | nil => simp
    | cons e entries ih =>
      intro picked
      rw [List.foldl_cons, ih]
      cases hpicked : pick e <;> simp [hpicked]
  have hpart := d.foldl_entries_eq (fun picked e => picked ++ (pick e).toList) id key
    (fun value picked => picked ++ (pick (key, value)).toList)
    (fun picked e => by
      by_cases hkey : e.1 = key
      · simp [← hkey]
      · simp [hkey, hpick e hkey]) []
  rw [id, hfold] at hpart
  rw [← List.nil_append (d.entries.filterMap pick), hpart]
  cases d.get? key <;> rfl

/-! ## Lists of pairs -/

theorem ofList_concat (pairs : List (String × α)) (p : String × α) :
    ofList (pairs ++ [p]) = (ofList pairs).insert p.1 p.2 := by
  rw [ofList, List.foldl_append]
  rfl

/-- **The last pair with a key counts.** -/
theorem get?_ofList (pairs : List (String × α)) (key : String) :
    (ofList pairs).get? key = (pairs.filter (·.1 = key)).getLast?.map Prod.snd := by
  induction pairs using List.reverseRecOn with
  | nil => rfl
  | append_singleton pairs p ih =>
    rw [ofList_concat, get?_insert, ih, List.filter_append]
    by_cases hkey : p.1 = key <;> simp [hkey]

section Distinct

variable {pairs : List (String × α)} (hkeys : (pairs.map Prod.fst).Nodup)

include hkeys

theorem mem_entries_ofList {e : String × α} : e ∈ (ofList pairs).entries ↔ e ∈ pairs := by
  obtain ⟨key, value⟩ := e
  rw [mem_entries_iff, get?_ofList, Option.map_eq_some_iff]
  constructor
  · rintro ⟨p, hlast, rfl⟩
    have hmem := List.mem_of_getLast? hlast
    simp only [List.mem_filter, decide_eq_true_eq] at hmem
    rw [← hmem.2]
    exact hmem.1
  · intro hmem
    have hne : pairs.filter (·.1 = key) ≠ [] := by
      apply List.ne_nil_of_mem (a := (key, value))
      simpa using hmem
    have hlast := List.getLast_mem hne
    simp only [List.mem_filter, decide_eq_true_eq] at hlast
    have hsame := List.inj_on_of_nodup_map hkeys hlast.1 hmem hlast.2
    exact ⟨(key, value), by rw [List.getLast?_eq_some_getLast hne, hsame], rfl⟩

/-- **Pairs with different keys are all entries,** and there are no others. -/
theorem entries_ofList_perm : (ofList pairs).entries.Perm pairs := by
  have hentries : (ofList pairs).entries.Nodup := (ofList pairs).nodup_keys.of_map
  rw [List.perm_ext_iff_of_nodup hentries hkeys.of_map]
  intro e
  exact mem_entries_ofList hkeys

theorem ofList_eq_of_perm {others : List (String × α)} (h : others.Perm pairs) :
    ofList others = ofList pairs := by
  apply eq_of_entries_perm
  have hothers : (others.map Prod.fst).Nodup := (h.map Prod.fst).nodup_iff.mpr hkeys
  exact (entries_ofList_perm hothers).trans (h.trans (entries_ofList_perm hkeys).symm)

end Distinct

/-- Pairs in key order are the entries as they are. -/
theorem ofList_of_sorted {pairs : List (String × α)} (h : Sorted pairs) :
    ofList pairs = ⟨pairs, h⟩ :=
  eq_of_entries_perm (entries_ofList_perm (nodup_keys ⟨pairs, h⟩))

end DocTemplate.Dict
