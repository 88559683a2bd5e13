/-!
# Sorted dictionaries

A dictionary lists its entries by key in code point order, each key once. Everything that is shown
in key order (options, providers, log context, construct counts) is held in one. Writing a key again
replaces its value.

Main statements: `keys_lt` (the entries are strictly increasing by construction) and `get?_insert`.
-/

namespace DocTemplate

/-- Entries in strictly increasing key order. -/
def Dict.Sorted {α : Type} (entries : List (String × α)) : Prop :=
  entries.Pairwise (fun a b => a.1 < b.1)

/-- Put `value` at `key`, before the first larger key, replacing an equal one. -/
def Dict.insertEntry {α : Type} (key : String) (value : α) :
    List (String × α) → List (String × α)
  | [] => [(key, value)]
  | (k, v) :: rest =>
    if key < k then (key, value) :: (k, v) :: rest
    else if key = k then (key, value) :: rest
    else (k, v) :: Dict.insertEntry key value rest

theorem Dict.mem_insertEntry {α : Type} {key : String} {value : α} {entries : List (String × α)}
    {e : String × α} (h : e ∈ Dict.insertEntry key value entries) :
    e = (key, value) ∨ e ∈ entries := by
  induction entries with
  | nil => simpa [Dict.insertEntry] using h
  | cons kv rest ih =>
    obtain ⟨k, v⟩ := kv
    rw [Dict.insertEntry] at h
    split at h
    · simpa using h
    · split at h
      · rcases List.mem_cons.1 h with h | h
        · exact .inl h
        · exact .inr (List.mem_cons_of_mem _ h)
      · rcases List.mem_cons.1 h with h | h
        · exact .inr (h ▸ List.mem_cons_self)
        · exact (ih h).imp id (List.mem_cons_of_mem _)

theorem Dict.Sorted.insertEntry {α : Type} (key : String) (value : α)
    {entries : List (String × α)} (h : Dict.Sorted entries) :
    Dict.Sorted (Dict.insertEntry key value entries) := by
  induction entries with
  | nil => simp [Dict.insertEntry, Dict.Sorted]
  | cons kv rest ih =>
    obtain ⟨k, v⟩ := kv
    have hrest := List.pairwise_cons.1 h
    rw [Dict.insertEntry]
    split
    next hlt =>
      refine List.pairwise_cons.2 ⟨fun e he => ?_, h⟩
      rcases List.mem_cons.1 he with rfl | he
      · exact hlt
      · exact String.lt_trans hlt (hrest.1 e he)
    next hlt =>
      split
      next heq => exact List.pairwise_cons.2 ⟨fun e he => heq ▸ hrest.1 e he, hrest.2⟩
      next hne =>
        refine List.pairwise_cons.2 ⟨fun e he => ?_, ih hrest.2⟩
        rcases Dict.mem_insertEntry he with rfl | he
        · rcases Std.lt_trichotomy key k with hk | hk | hk
          · exact absurd hk hlt
          · exact absurd hk hne
          · exact hk
        · exact hrest.1 e he

/-- A finite map from texts, listed by key. -/
structure Dict (α : Type) where
  /-- The pairs, in key order. -/
  entries : List (String × α)
  /-- No key stands twice, and the keys increase. -/
  sorted : Dict.Sorted entries

namespace Dict

variable {α : Type}

/-- The dictionary with no entry. -/
def empty : Dict α := ⟨[], List.Pairwise.nil⟩

instance : EmptyCollection (Dict α) := ⟨empty⟩

instance : Inhabited (Dict α) := ⟨empty⟩

/-- The dictionary with `key` bound to `value`, whatever it was bound to before. -/
def insert (d : Dict α) (key : String) (value : α) : Dict α :=
  ⟨insertEntry key value d.entries, d.sorted.insertEntry key value⟩

/-- The value at a key. -/
def get? (d : Dict α) (key : String) : Option α :=
  (d.entries.find? (fun e => e.1 = key)).map Prod.snd

/-- The keys, in order. -/
def keys (d : Dict α) : List String := d.entries.map Prod.fst

/-- The values, in key order. -/
def values (d : Dict α) : List α := d.entries.map Prod.snd

/-- How many keys there are. -/
def size (d : Dict α) : Nat := d.entries.length

/-- There is no entry. -/
def isEmpty (d : Dict α) : Bool := d.entries.isEmpty

/-- Insert the pairs one after another, so that the last one at a key wins. -/
def ofList (pairs : List (String × α)) : Dict α :=
  pairs.foldl (fun d e => d.insert e.1 e.2) empty

@[ext] theorem ext {d e : Dict α} (h : d.entries = e.entries) : d = e := by
  cases d; cases e; simp_all

theorem keys_lt (d : Dict α) : d.keys.Pairwise (· < ·) :=
  List.pairwise_map.2 d.sorted

private theorem find_insertEntry (key k : String) (value : α) (entries : List (String × α)) :
    ((insertEntry key value entries).find? (fun e => e.1 = k)).map Prod.snd =
      if key = k then some value else (entries.find? (fun e => e.1 = k)).map Prod.snd := by
  induction entries with
  | nil => by_cases hk : key = k <;> simp [insertEntry, hk]
  | cons kv rest ih =>
    obtain ⟨k', v'⟩ := kv
    rw [insertEntry]
    split
    · by_cases hk : key = k <;> simp [hk]
    · split
      next heq => subst heq; by_cases hk : key = k <;> simp [hk]
      next hne =>
        by_cases hk' : k' = k
        · subst hk'
          simp [hne]
        · simpa [List.find?_cons, hk'] using ih

/-- Reading after writing: the written key has the new value and every other key is as before. -/
theorem get?_insert (d : Dict α) (key k : String) (value : α) :
    (d.insert key value).get? k = if key = k then some value else d.get? k :=
  find_insertEntry key k value d.entries

end Dict

end DocTemplate
