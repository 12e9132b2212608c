import Std.Data.HashMap

/-!
# Tables in order of entry

A table gives a value to each of its names and remembers the order in which the names came. Storing
a value under a name that is there already changes the value and not the order.

The order is kept in an array and the values, for fast access, in a hash map as well; that the two
agree is part of the type. Statements about a table are made through `find?` and `toList`.
-/

set_option autoImplicit false

namespace HackToolchain

/-- The value under a name in a list of entries, the first one if there are several. -/
def lookupEntry {α : Type} (name : String) : List (String × α) → Option α
  | [] => none
  | e :: rest => if e.1 = name then some e.2 else lookupEntry name rest

theorem lookupEntry_append {α : Type} (name : String) (xs ys : List (String × α)) :
    lookupEntry name (xs ++ ys) = (lookupEntry name xs).or (lookupEntry name ys) := by
  induction xs with
  | nil => simp [lookupEntry]
  | cons e xs ih => by_cases h : e.1 = name <;> simp [lookupEntry, h, ih]

def replaceEntry {α : Type} (name : String) (value : α) (e : String × α) : String × α :=
  if e.1 = name then (name, value) else e

theorem lookupEntry_map_replaceEntry {α : Type} (name other : String) (value : α)
    (xs : List (String × α)) :
    lookupEntry other (xs.map (replaceEntry name value)) =
      if name = other then (lookupEntry other xs).map fun _ => value
      else lookupEntry other xs := by
  induction xs with
  | nil => simp [lookupEntry]
  | cons e xs ih =>
      simp only [lookupEntry, List.map_cons, replaceEntry, ih]
      by_cases he : e.1 = name
      · by_cases h : name = other <;> simp [he, h]
      · by_cases h : name = other
        · subst h
          simp [he]
        · simp [he, h]

/-- A table of names with values, in the order in which the names were entered. -/
structure Table (α : Type) where
  entries : Array (String × α) := #[]
  index : Std.HashMap String α := {}
  index_eq : ∀ name, index[name]? = lookupEntry name entries.toList := by simp [lookupEntry]

namespace Table

variable {α : Type}

/-- The table without names. -/
def empty : Table α := {}

instance : Inhabited (Table α) := ⟨empty⟩

/-- The entries in order. -/
def toList (t : Table α) : List (String × α) := t.entries.toList

/-- The number of names. -/
def size (t : Table α) : Nat := t.entries.size

/-- The value under a name. -/
def find? (t : Table α) (name : String) : Option α := t.index[name]?

def contains (t : Table α) (name : String) : Bool := (t.find? name).isSome

theorem find?_eq_lookupEntry (t : Table α) (name : String) :
    t.find? name = lookupEntry name t.toList := t.index_eq name

/-- Stores a value under a name, in the name's place or at the end. -/
def insert (t : Table α) (name : String) (value : α) : Table α :=
  if h : t.contains name then
    { entries := t.entries.map (replaceEntry name value)
      index := t.index.insert name value
      index_eq := fun other => by
        have ht := t.index_eq other
        simp only [contains, find?, t.index_eq name] at h
        rw [Std.HashMap.getElem?_insert, Array.toList_map, lookupEntry_map_replaceEntry, ht]
        by_cases hn : name = other
        · subst hn
          obtain ⟨v, hv⟩ := Option.isSome_iff_exists.1 h
          simp [hv]
        · simp [hn] }
  else
    { entries := t.entries.push (name, value)
      index := t.index.insert name value
      index_eq := fun other => by
        have ht := t.index_eq other
        simp only [contains, find?, t.index_eq name, Option.not_isSome_iff_eq_none] at h
        rw [Std.HashMap.getElem?_insert, Array.toList_push, lookupEntry_append, ht]
        by_cases hn : name = other
        · subst hn
          simp [lookupEntry, h]
        · simp [hn, lookupEntry] }

/-- The table of a list of entries; of several entries of one name the first gives the place and the
last the value. -/
def ofList (entries : List (String × α)) : Table α :=
  entries.foldl (fun t e => t.insert e.1 e.2) empty

@[simp] theorem find?_empty (name : String) : (empty : Table α).find? name = none := by
  simp [find?, empty]

theorem toList_empty : (empty : Table α).toList = [] := rfl

theorem find?_insert (t : Table α) (name other : String) (value : α) :
    (t.insert name value).find? other = if name = other then some value else t.find? other := by
  unfold insert find?
  split <;> simp [Std.HashMap.getElem?_insert]

theorem toList_insert_of_contains {t : Table α} {name : String} (value : α)
    (h : t.contains name = true) :
    (t.insert name value).toList = t.toList.map (replaceEntry name value) := by
  simp [insert, h, toList]

theorem toList_insert_of_not_contains {t : Table α} {name : String} (value : α)
    (h : t.contains name = false) :
    (t.insert name value).toList = t.toList ++ [(name, value)] := by
  simp [insert, h, toList]

end Table

end HackToolchain
