import HackToolchain.Table

/-!
# Looking up entries

When a name is found in a list of entries, and which value is found when no name occurs twice.
-/

set_option autoImplicit false

namespace HackToolchain

variable {α : Type}

def entryNames (entries : List (String × α)) : List String := entries.map Prod.fst

theorem mem_of_lookupEntry {name : String} {value : α} {entries : List (String × α)}
    (h : lookupEntry name entries = some value) : (name, value) ∈ entries := by
  induction entries with
  | nil => simp [lookupEntry] at h
  | cons e entries ih =>
    simp only [lookupEntry] at h
    split at h
    · next he =>
      simp only [Option.some.injEq] at h
      subst he h
      exact List.mem_cons_self
    · exact List.mem_cons_of_mem _ (ih h)

theorem isSome_lookupEntry {name : String} {entries : List (String × α)} :
    (lookupEntry name entries).isSome = true ↔ name ∈ entryNames entries := by
  induction entries with
  | nil => simp [lookupEntry, entryNames]
  | cons e entries ih =>
    simp only [lookupEntry, entryNames, List.map_cons, List.mem_cons]
    split
    · next he => simp [he]
    · next he =>
      rw [ih]
      simp [entryNames, Ne.symm he]

theorem lookupEntry_eq_none {name : String} {entries : List (String × α)} :
    lookupEntry name entries = none ↔ name ∉ entryNames entries := by
  rw [← isSome_lookupEntry, Option.not_isSome_iff_eq_none]

/-- If no name occurs twice, the value of every entry is found. -/
theorem lookupEntry_of_mem {name : String} {value : α} {entries : List (String × α)}
    (hn : (entryNames entries).Nodup) (h : (name, value) ∈ entries) :
    lookupEntry name entries = some value := by
  induction entries with
  | nil => simp at h
  | cons e entries ih =>
    simp only [entryNames, List.map_cons, List.nodup_cons] at hn
    rcases List.mem_cons.1 h with rfl | h
    · simp [lookupEntry]
    · have hne : e.1 ≠ name := fun he =>
        hn.1 (he ▸ List.mem_map.2 ⟨(name, value), h, rfl⟩)
      rw [lookupEntry, if_neg hne, ih hn.2 h]

theorem Table.contains_iff {t : Table α} {name : String} :
    t.contains name = true ↔ name ∈ entryNames t.toList := by
  rw [Table.contains, Table.find?_eq_lookupEntry, isSome_lookupEntry]

/-- A new name goes to the end of a table. -/
theorem Table.toList_insert_of_new {t : Table α} {name : String} (value : α)
    (h : name ∉ entryNames t.toList) :
    (t.insert name value).toList = t.toList ++ [(name, value)] := by
  refine Table.toList_insert_of_not_contains value ?_
  rw [← Bool.not_eq_true, Table.contains_iff]
  exact h

theorem Table.entryNames_insert_of_new {t : Table α} {name : String} (value : α)
    (h : name ∉ entryNames t.toList) :
    entryNames (t.insert name value).toList = entryNames t.toList ++ [name] := by
  rw [Table.toList_insert_of_new value h, entryNames, List.map_append]
  rfl

theorem Table.nodup_insert_of_new {t : Table α} {name : String} (value : α)
    (hn : (entryNames t.toList).Nodup) (h : name ∉ entryNames t.toList) :
    (entryNames (t.insert name value).toList).Nodup := by
  rw [Table.entryNames_insert_of_new value h, List.nodup_append]
  refine ⟨hn, by simp, ?_⟩
  rintro a ha b hb rfl
  exact h (List.mem_singleton.1 hb ▸ ha)

/-- New names that are all different go to the end of a table, in order. -/
theorem Table.toList_foldl_insert {β : Type} (f : β → α) (entries : List (String × β)) (t : Table α)
    (hn : (entryNames t.toList ++ entryNames entries).Nodup) :
    (entries.foldl (fun t e => t.insert e.1 (f e.2)) t).toList =
      t.toList ++ entries.map fun e => (e.1, f e.2) := by
  induction entries generalizing t with
  | nil => simp
  | cons e entries ih =>
    have hnew : e.1 ∉ entryNames t.toList := by
      intro hmem
      exact (List.nodup_append.1 hn).2.2 e.1 hmem e.1 List.mem_cons_self rfl
    have hlist := Table.toList_insert_of_new (f e.2) hnew
    rw [List.foldl_cons, ih]
    · rw [hlist, List.append_assoc]
      rfl
    · rw [hlist]
      simpa [entryNames] using hn

/-- The table of a list of entries with different names has just these entries. -/
theorem Table.toList_ofList {entries : List (String × α)} (hn : (entryNames entries).Nodup) :
    (Table.ofList entries).toList = entries := by
  have h := Table.toList_foldl_insert id entries (Table.empty : Table α)
    (by simpa [Table.toList_empty, entryNames] using hn)
  simpa [Table.toList_empty, Table.ofList] using h

end HackToolchain
