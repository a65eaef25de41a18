import HookScript.Proofs.Isolation.Above

/-!
Tables that are put together entry by entry.
-/

namespace HookScript.Table

variable {α : Type} {name : String}

theorem get?_foldl_insert (entries : List (String × α)) (table : Table α) :
    (entries.foldl (fun table entry => table.insert entry.1 entry.2) table).get? name =
      (entries.reverse.lookup name).or (table.get? name) := by
  induction entries generalizing table with
  | nil => rfl
  | cons entry rest ih =>
    obtain ⟨key, value⟩ := entry
    rw [List.foldl_cons, ih, get?_insert, List.reverse_cons, List.lookup_append, Option.or_assoc]
    by_cases same : name = key
    · simp [same]
    · have different : (name == key) = false := by simpa using same
      simp [List.lookup_cons, different, same]

theorem mem_entries_iff (table : Table α) {value : α} :
    (name, value) ∈ table.entries ↔ table.get? name = some value := by
  rw [get?, List.lookup_eq_some_iff]
  constructor
  · intro mem
    obtain ⟨before, after, split⟩ := List.append_of_mem mem
    have sorted := table.sorted
    rw [split, List.pairwise_append] at sorted
    refine ⟨before, after, split, fun entry among => bne_iff_ne.2 fun same => ?_⟩
    have less := sorted.2.2 entry among (name, value) List.mem_cons_self
    rw [← same] at less
    exact String.lt_irrefl name less
  · rintro ⟨before, after, split, -⟩
    rw [split]
    exact List.mem_append_right _ List.mem_cons_self

theorem mem_keys_iff (table : Table α) : name ∈ table.keys ↔ table.contains name = true := by
  rw [contains, Option.isSome_iff_exists, keys, List.mem_map]
  constructor
  · rintro ⟨⟨_, value⟩, mem, rfl⟩
    exact ⟨value, table.mem_entries_iff.1 mem⟩
  · rintro ⟨value, found⟩
    exact ⟨(name, value), table.mem_entries_iff.2 found, rfl⟩

theorem get?_ofList (entries : List (String × α)) : (ofList entries).get? name = entries.reverse.lookup name := by
  rw [ofList, get?_foldl_insert, get?_empty, Option.or_none]

theorem lookup_reverse {entries : List (String × α)} (sorted : entries.Pairwise fun a b => a.1 < b.1) :
    entries.reverse.lookup name = entries.lookup name := by
  induction entries with
  | nil => rfl
  | cons entry rest ih =>
    obtain ⟨key, value⟩ := entry
    obtain ⟨after, sorted⟩ := List.pairwise_cons.1 sorted
    rw [List.reverse_cons, List.lookup_append, ih sorted, List.lookup_cons]
    by_cases same : name = key
    · subst same
      simp [lookup_eq_none_of_lt after]
    · have different : (name == key) = false := by simpa using same
      simp [List.lookup_cons, different]

theorem ofList_entries (table : Table α) : ofList table.entries = table :=
  ext_get? fun _ => (get?_ofList table.entries).trans (lookup_reverse table.sorted)

theorem ofList_zip (table : Table α) :
    ofList ((table.entries.map (·.1)).zip (table.entries.map (·.2))) = table := by
  rw [List.zip_map', List.map_id', ofList_entries]

def places (names : List String) : Table Nat := ofList (names.zip (List.range names.length))

theorem get?_ofList_zip {names : List String} {values : List α} (length_eq : values.length = names.length) :
    (ofList (names.zip values)).get? name = ((places names).get? name).bind (values[·]?) := by
  have range : (List.range names.length).map (values[·]?) = values.map some := by
    refine List.ext_getElem (by simp [length_eq]) fun i inside _ => ?_
    rw [List.length_map, List.length_range, ← length_eq] at inside
    simp [inside]
  have tables : (places names).map (values[·]?) = (ofList (names.zip values)).map some := by
    rw [places, map_ofList, ← zip_map, range, zip_map, ← map_ofList]
  have found := congrArg (·.get? name) tables
  simp only [get?_map] at found
  cases there : (places names).get? name with
  | none =>
    rw [there, Option.map_none] at found
    exact Option.map_eq_none_iff.1 found.symm
  | some i =>
    rw [there, Option.map_some] at found
    obtain ⟨value, is, at_i⟩ := Option.map_eq_some_iff.1 found.symm
    exact is.trans at_i

theorem getElem?_of_places {names : List String} {i : Nat} (found : (places names).get? name = some i) :
    names[i]? = some name := by
  rw [places, get?_ofList] at found
  obtain ⟨before, after, split, -⟩ := List.lookup_eq_some_iff.1 found
  have mem : (name, i) ∈ names.zip (List.range names.length) :=
    List.mem_reverse.1 (split ▸ List.mem_append_right _ List.mem_cons_self)
  obtain ⟨j, at_j⟩ := List.mem_iff_getElem?.1 mem
  obtain ⟨there, range⟩ := List.getElem?_zip_eq_some.1 at_j
  obtain ⟨inside, same⟩ := List.getElem?_eq_some_iff.1 range
  rw [List.getElem_range] at same
  rwa [same] at there

end HookScript.Table
