import HackToolchain.Asm.Assembly
import HackToolchain.Proofs.Entries
import Mathlib.Data.List.Forall2
import Mathlib.Data.Set.Function

/-!
# Two passes under other names

The same statements with other names, side by side: as long as no two names become one, no name
becomes a number and the machine's names keep apart from the others (`Renaming`), both passes do the
same to both. A label is bound on one side if it is bound on the other, a variable gets its number
on both at once, and the tables differ by their names only (`assembleStatements_renamed`).
-/

set_option autoImplicit false

namespace HackToolchain

/-! ## Tables -/

section Tables

variable {α : Type} {f : String → String} {own : Set String}

/-- One table has the entries of another in the same order, under names that are changed. -/
structure Table.Renamed (f : String → String) (own : Set String) (t u : Table α) : Prop where
  entries : u.toList = t.toList.map fun e => (f e.1, e.2)
  mem : ∀ e ∈ t.toList, e.1 ∈ own

theorem lookupEntry_map_name (hf : Set.InjOn f own) {entries : List (String × α)} {name : String}
    (hentries : ∀ e ∈ entries, e.1 ∈ own) (hname : name ∈ own) :
    lookupEntry (f name) (entries.map fun e => (f e.1, e.2)) = lookupEntry name entries := by
  induction entries with
  | nil => rfl
  | cons e entries ih =>
    have hfirst : f e.1 = f name ↔ e.1 = name :=
      hf.eq_iff (hentries e List.mem_cons_self) hname
    simp only [List.map_cons, lookupEntry, hfirst,
      ih fun d hd => hentries d (List.mem_cons_of_mem _ hd)]

namespace Table.Renamed

variable {t u : Table α} {name : String}

theorem empty : Table.Renamed f own (.empty : Table α) .empty := ⟨rfl, by simp [toList_empty]⟩

theorem find?_eq (h : t.Renamed f own u) (hf : Set.InjOn f own) (hname : name ∈ own) :
    u.find? (f name) = t.find? name := by
  rw [find?_eq_lookupEntry, find?_eq_lookupEntry, h.entries]
  exact lookupEntry_map_name hf h.mem hname

theorem contains_eq (h : t.Renamed f own u) (hf : Set.InjOn f own) (hname : name ∈ own) :
    u.contains (f name) = t.contains name := by
  rw [contains, contains, h.find?_eq hf hname]

theorem size_eq (h : t.Renamed f own u) : u.size = t.size := by
  have hlength := congrArg List.length h.entries
  simpa [Table.size, Table.toList] using hlength

/-- A name that is new to one table is new to the other, and goes to the end of both. -/
theorem insert (h : t.Renamed f own u) (hf : Set.InjOn f own) (hname : name ∈ own)
    (hnew : t.contains name = false) (value : α) :
    (t.insert name value).Renamed f own (u.insert (f name) value) := by
  have hnew' : u.contains (f name) = false := (h.contains_eq hf hname).trans hnew
  refine ⟨?_, ?_⟩
  · rw [toList_insert_of_not_contains value hnew, toList_insert_of_not_contains value hnew',
      h.entries, List.map_append]
    rfl
  · rw [toList_insert_of_not_contains value hnew]
    intro e he
    rcases List.mem_append.1 he with he | he
    · exact h.mem e he
    · rw [List.mem_singleton.1 he]
      exact hname

end Table.Renamed

end Tables

namespace Asm

open Text Machine

/-! ## Statements -/

/-- The symbol that a statement brings in: it is no number, and no name of the machine. -/
def Statement.symbol? : Statement → Option String
  | .label name => if (predefined? name).isSome then none else some name
  | .load operand =>
    if Decimal.isNumeral operand.toList || (predefined? operand).isSome then none else some operand
  | .compute _ _ => none

theorem Statement.symbol?_label {name symbol : String} :
    (Statement.label name).symbol? = some symbol ↔ name = symbol ∧ predefined? name = none := by
  cases h : predefined? name <;> simp [symbol?, h]

theorem Statement.symbol?_load {operand symbol : String} :
    (Statement.load operand).symbol? = some symbol ↔
      operand = symbol ∧ Decimal.isNumeral operand.toList = false ∧ predefined? operand = none := by
  cases h : predefined? operand <;> cases hnum : Decimal.isNumeral operand.toList <;>
    simp [symbol?, h, hnum]

/-- Other names for symbols that are not the machine's: no two of them become one, and none becomes
a number or one of the machine's. -/
structure Renaming (f : String → String) (own : Set String) : Prop where
  injOn : Set.InjOn f own
  symbol : ∀ name ∈ own, Decimal.isNumeral name.toList = false ∧ predefined? name = none
  image : ∀ name ∈ own, Decimal.isNumeral (f name).toList = false ∧ predefined? (f name) = none

/-- A statement has its symbol under the other name, or brings in none and is kept. -/
inductive Statement.Renamed (f : String → String) (own : Set String) : Statement → Statement → Prop
  | label {name : String} (h : name ∈ own) : Renamed f own (.label name) (.label (f name))
  | load {name : String} (h : name ∈ own) : Renamed f own (.load name) (.load (f name))
  | keep {s : Statement} (h : s.symbol? = none) : Renamed f own s s

/-- The same of a statement that keeps its place. -/
structure LocatedStatement.Renamed (f : String → String) (own : Set String)
    (s t : LocatedStatement) : Prop where
  statement : s.statement.Renamed f own t.statement
  location : t.location = s.location

/-- Two runs come out alike: both fail, or both end with results that are related. -/
inductive Together {α β : Type} (r : α → β → Prop) : Except Fault α → Except Fault β → Prop
  | ok {a : α} {b : β} (h : r a b) : Together r (.ok a) (.ok b)
  | error (e e' : Fault) : Together r (.error e) (.error e')

theorem Together.isOk_iff {α β : Type} {r : α → β → Prop} {x : Except Fault α} {y : Except Fault β}
    (h : Together r x y) : (∃ b, y = .ok b) ↔ ∃ a, x = .ok a := by
  cases h with
  | ok h => exact ⟨fun _ => ⟨_, rfl⟩, fun _ => ⟨_, rfl⟩⟩
  | error e e' =>
    constructor
    · rintro ⟨b, hb⟩
      cases hb
    · rintro ⟨a, ha⟩
      cases ha

variable {f : String → String} {own : Set String}

/-! ## The first pass -/

theorem bindLabelsFrom_renamed (hf : Renaming f own) {statements others : List LocatedStatement}
    (h : List.Forall₂ (LocatedStatement.Renamed f own) statements others)
    (all all' : List LocatedStatement) (address : Nat) {labels labels' : Table Nat}
    (hlabels : labels.Renamed f own labels') :
    Together (Table.Renamed f own) (bindLabelsFrom all address labels statements)
      (bindLabelsFrom all' address labels' others) := by
  induction h generalizing address labels labels' with
  | nil => exact .ok hlabels
  | @cons s t statements others hfirst hrest ih =>
    obtain ⟨statement, location, sourceLine⟩ := s
    obtain ⟨statement', location', sourceLine'⟩ := t
    have hstatement : statement.Renamed f own statement' := hfirst.statement
    cases hstatement with
    | load hname => exact ih (address + 1) hlabels
    | @label name hname =>
      have hfree := (hf.symbol name hname).2
      have hfree' := (hf.image name hname).2
      simp only [bindLabelsFrom, hlabels.contains_eq hf.injOn hname, hfree, hfree']
      cases hnew : labels.contains name with
      | true => exact .error _ _
      | false => exact ih address (hlabels.insert hf.injOn hname hnew address)
    | keep hkept =>
      cases statement with
      | load operand => exact ih (address + 1) hlabels
      | compute spelling action => exact ih (address + 1) hlabels
      | label name =>
        -- The name is the machine's, so it is refused whether or not it is in the tables.
        have hpre : (predefined? name).isSome = true := by
          by_contra hnot
          simp [Statement.symbol?, hnot] at hkept
        simp only [bindLabelsFrom, hpre, if_true]
        split <;> split <;> exact .error _ _

/-! ## The second pass -/

namespace Assembly

/-- One program has the words and the places of another, and its names are changed. -/
structure Renamed (f : String → String) (own : Set String) (p q : Assembly) : Prop where
  words : q.words = p.words
  sourceMap : q.sourceMap = p.sourceMap
  labels : p.labels.Renamed f own q.labels
  vars : p.vars.Renamed f own q.vars

/-- A symbol under its other name stands for the same number, and is a new variable on both sides or
on neither. -/
theorem resolve_renamed (hf : Renaming f own) {labels labels' : Table Nat} {vars vars' : Table Int}
    (hlabels : labels.Renamed f own labels') (hvars : vars.Renamed f own vars') (base : Int)
    {name : String} (hname : name ∈ own) :
    (resolve labels' base vars' (f name)).1 = (resolve labels base vars name).1 ∧
      (resolve labels base vars name).2.Renamed f own (resolve labels' base vars' (f name)).2 := by
  obtain ⟨hnum, hfree⟩ := hf.symbol name hname
  obtain ⟨hnum', hfree'⟩ := hf.image name hname
  simp only [resolve, hnum, hnum', hfree, hfree', hlabels.find?_eq hf.injOn hname,
    hvars.find?_eq hf.injOn hname, hvars.size_eq, Bool.false_eq_true, if_false]
  cases hlab : labels.find? name with
  | some n => exact ⟨rfl, hvars⟩
  | none =>
    cases hvar : vars.find? name with
    | some n => exact ⟨rfl, hvars⟩
    | none =>
      have hnew : vars.contains name = false := by
        rw [Table.contains, hvar]
        rfl
      exact ⟨rfl, hvars.insert hf.injOn hname hnew _⟩

/-- What a kept operand stands for has nothing to do with the tables, and adds no variable. -/
theorem exists_resolve {operand : String} (h : (Statement.load operand).symbol? = none)
    (base : Int) :
    ∃ n : Int, ∀ (labels : Table Nat) (vars : Table Int),
      resolve labels base vars operand = (n, vars) := by
  by_cases hnum : Decimal.isNumeral operand.toList = true
  · exact ⟨Decimal.value operand.toList, fun labels vars => if_pos hnum⟩
  · cases hpre : predefined? operand with
    | none => simp [Statement.symbol?, hnum, hpre] at h
    | some n => exact ⟨n, fun labels vars => by rw [resolve, if_neg hnum, hpre]⟩

/-- A statement adds the same to both programs. -/
theorem add_renamed (hf : Renaming f own) {p q : Assembly} (hp : p.Renamed f own q) (base : Int)
    {s t : LocatedStatement} (hs : s.Renamed f own t) :
    (p.add base s).Renamed f own (q.add base t) := by
  obtain ⟨statement, location, sourceLine⟩ := s
  obtain ⟨statement', location', sourceLine'⟩ := t
  obtain rfl : location' = location := hs.location
  have hstatement : statement.Renamed f own statement' := hs.statement
  have hplaces (l : Location) : q.sourceMap.push l = p.sourceMap.push l :=
    congrArg (·.push l) hp.sourceMap
  have hwords (w : Word) : q.words.push w = p.words.push w := congrArg (·.push w) hp.words
  cases hstatement with
  | label hname => exact hp
  | load hname =>
    obtain ⟨hvalue, hvars⟩ := resolve_renamed hf hp.labels hp.vars base hname
    exact ⟨by simp only [add, hvalue, hwords], hplaces _, hp.labels, hvars⟩
  | keep hkept =>
    cases statement with
    | label name => exact hp
    | compute spelling action => exact ⟨hwords _, hplaces _, hp.labels, hp.vars⟩
    | load operand =>
      obtain ⟨n, hn⟩ := exists_resolve hkept base
      simp only [add, hn]
      exact ⟨hwords _, hplaces _, hp.labels, hp.vars⟩

theorem foldl_add_renamed (hf : Renaming f own) (base : Int)
    {statements others : List LocatedStatement}
    (h : List.Forall₂ (LocatedStatement.Renamed f own) statements others) {p q : Assembly}
    (hp : p.Renamed f own q) :
    (statements.foldl (add base) p).Renamed f own (others.foldl (add base) q) := by
  induction h generalizing p q with
  | nil => exact hp
  | cons hfirst _ ih => exact ih (add_renamed hf hp base hfirst)

end Assembly

/-! ## Both passes -/

/-- Statements under other names are assembled exactly if the statements are, and to a program that
differs from theirs by its names only. -/
theorem assembleStatements_renamed (hf : Renaming f own)
    {statements others : List LocatedStatement}
    (h : List.Forall₂ (LocatedStatement.Renamed f own) statements others) (base : Int) :
    Together (Assembly.Renamed f own) (assembleStatements statements base)
      (assembleStatements others base) := by
  have hbind : Together (Table.Renamed f own) (bindLabels statements) (bindLabels others) :=
    bindLabelsFrom_renamed hf h statements others 0 .empty
  unfold assembleStatements
  generalize bindLabels statements = bound at hbind ⊢
  generalize bindLabels others = bound' at hbind ⊢
  cases hbind with
  | error e e' => exact .error e e'
  | ok hlabels => exact .ok (Assembly.foldl_add_renamed hf base h ⟨rfl, rfl, hlabels, .empty⟩)

end Asm

end HackToolchain
