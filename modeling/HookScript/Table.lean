/-!
Tables from names to values. The entries stand in the order of their names, so two tables with the same
values under the same names are the same table, and a listing by name is the table itself.
-/

namespace HookScript

structure Table (α : Type) where
  entries : List (String × α)
  sorted : entries.Pairwise fun a b => a.1 < b.1

namespace Table

variable {α : Type}

def empty : Table α := ⟨[], .nil⟩

instance : Inhabited (Table α) := ⟨empty⟩

def get? (table : Table α) (name : String) : Option α := table.entries.lookup name

def contains (table : Table α) (name : String) : Bool := (table.get? name).isSome

def keys (table : Table α) : List String := table.entries.map (·.1)

def insertEntry (name : String) (value : α) : List (String × α) → List (String × α)
  | [] => [(name, value)]
  | entry :: rest =>
    if name < entry.1 then (name, value) :: entry :: rest
    else if name = entry.1 then (name, value) :: rest
    else entry :: insertEntry name value rest

theorem mem_insertEntry {name : String} {value : α} {entries : List (String × α)} {e : String × α}
    (h : e ∈ insertEntry name value entries) : e = (name, value) ∨ e ∈ entries := by
  induction entries with
  | nil => simpa [insertEntry] using h
  | cons entry rest ih =>
    simp only [insertEntry] at h
    split at h
    · simpa using h
    · split at h
      · rcases List.mem_cons.1 h with h | h
        · exact .inl h
        · exact .inr (List.mem_cons_of_mem _ h)
      · rcases List.mem_cons.1 h with h | h
        · exact .inr (h ▸ List.mem_cons_self)
        · rcases ih h with h | h
          · exact .inl h
          · exact .inr (List.mem_cons_of_mem _ h)

theorem insertEntry_sorted (name : String) (value : α) {entries : List (String × α)}
    (sorted : entries.Pairwise fun a b => a.1 < b.1) :
    (insertEntry name value entries).Pairwise fun a b => a.1 < b.1 := by
  induction entries with
  | nil => simp [insertEntry]
  | cons entry rest ih =>
    obtain ⟨first, later⟩ := List.pairwise_cons.1 sorted
    simp only [insertEntry]
    split
    · next before =>
      refine List.pairwise_cons.2 ⟨fun e he => ?_, sorted⟩
      rcases List.mem_cons.1 he with h | h
      · exact h ▸ before
      · exact String.lt_trans before (first e h)
    · split
      · next same => exact List.pairwise_cons.2 ⟨fun e he => same ▸ first e he, later⟩
      · next notBefore notSame =>
        refine List.pairwise_cons.2 ⟨fun e he => ?_, ih later⟩
        rcases mem_insertEntry he with h | h
        · subst h
          rcases String.le_total entry.1 name with le | le
          · exact String.not_le.1 fun h => notSame (String.le_antisymm h le)
          · exact absurd (String.le_antisymm le (String.not_lt.1 notBefore)) notSame
        · exact first e h

def insert (table : Table α) (name : String) (value : α) : Table α :=
  ⟨insertEntry name value table.entries, insertEntry_sorted name value table.sorted⟩

theorem get?_empty (name : String) : (empty : Table α).get? name = none := rfl

theorem get?_insert (table : Table α) (name other : String) (value : α) :
    (table.insert name value).get? other = if other = name then some value else table.get? other := by
  obtain ⟨entries, sorted⟩ := table
  simp only [insert, get?]
  clear sorted
  induction entries with
  | nil =>
    by_cases h : other = name
    · simp [insertEntry, h]
    · have hb : (other == name) = false := by simpa using h
      simp [insertEntry, h, List.lookup_cons, hb]
  | cons entry rest ih =>
    obtain ⟨key, old⟩ := entry
    simp only [insertEntry]
    by_cases h : other = name
    · subst h
      split
      · simp
      · split
        · simp
        · next notSame =>
          have hb : (other == key) = false := by simpa using notSame
          simpa [List.lookup_cons, hb] using ih
    · have hb : (other == name) = false := by simpa using h
      split
      · simp [List.lookup_cons, hb]
      · split
        · next same => simp [List.lookup_cons, hb, ← same]
        · simp only [List.lookup_cons, ih, h, if_false]

theorem lookup_eq_none_of_lt {name : String} {entries : List (String × α)}
    (after : ∀ e ∈ entries, name < e.1) : entries.lookup name = none := by
  induction entries with
  | nil => rfl
  | cons entry rest ih =>
    obtain ⟨key, value⟩ := entry
    have lt : name < key := after (key, value) List.mem_cons_self
    have hb : (name == key) = false := by
      simp only [beq_eq_false_iff_ne]
      exact fun h => String.lt_irrefl key (h ▸ lt)
    simp only [List.lookup_cons, hb]
    exact ih fun e he => after e (List.mem_cons_of_mem _ he)

theorem ext_get? {s t : Table α} (same : ∀ name, s.get? name = t.get? name) : s = t := by
  obtain ⟨xs, hs⟩ := s
  obtain ⟨ys, ht⟩ := t
  simp only [get?] at same
  suffices xs = ys by subst this; rfl
  induction xs generalizing ys with
  | nil =>
    cases ys with
    | nil => rfl
    | cons y ys =>
      obtain ⟨k, v⟩ := y
      have first := same k
      simp at first
  | cons x xs ih =>
    cases ys with
    | nil =>
      obtain ⟨k, v⟩ := x
      have first := same k
      simp at first
    | cons y ys =>
      obtain ⟨k, v⟩ := x
      obtain ⟨k', v'⟩ := y
      obtain ⟨afterX, restX⟩ := List.pairwise_cons.1 hs
      obtain ⟨afterY, restY⟩ := List.pairwise_cons.1 ht
      have key : k = k' := by
        rcases String.le_total k k' with le | le
        · refine String.le_antisymm le (String.not_lt.1 fun lt => ?_)
          have none : List.lookup k ((k', v') :: ys) = none := lookup_eq_none_of_lt fun e he => by
            rcases List.mem_cons.1 he with h | h
            · exact h ▸ lt
            · exact String.lt_trans lt (afterY e h)
          rw [← same k] at none
          simp at none
        · refine String.le_antisymm (String.not_lt.1 fun lt => ?_) le
          have none : List.lookup k' ((k, v) :: xs) = none := lookup_eq_none_of_lt fun e he => by
            rcases List.mem_cons.1 he with h | h
            · exact h ▸ lt
            · exact String.lt_trans lt (afterX e h)
          rw [same k'] at none
          simp at none
      subst key
      have value : v = v' := by simpa [List.lookup_cons] using same k
      subst value
      rw [ih restX ys restY fun name => ?_]
      by_cases h : name = k
      · subst h
        rw [lookup_eq_none_of_lt afterX, lookup_eq_none_of_lt afterY]
      · have hb : (name == k) = false := by simpa using h
        simpa [List.lookup_cons, hb] using same name

/-- Later entries replace earlier ones of the same name. -/
def ofList (entries : List (String × α)) : Table α :=
  entries.foldl (fun table entry => table.insert entry.1 entry.2) empty

end Table

end HookScript
