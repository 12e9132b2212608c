import HackToolchain.Asm.Assembly
import HackToolchain.Proofs.Asm.Reading
import HackToolchain.Proofs.Entries

/-!
# The two passes

What an assembled program is, said of its statements as a whole (`Assembled`): every label has the
address of the instruction that follows it, every word encodes its statement with the final tables,
and the variables are numbered in the order of their first use. Assembling gives such a program, and
succeeds when no label is defined twice or by the machine.
-/

set_option autoImplicit false

namespace HackToolchain.Asm

open Text Machine

/-! ## First pass -/

def Statement.label? : Statement → Option String
  | .label name => some name
  | _ => none

def labelNames (statements : List Statement) : List String := statements.filterMap Statement.label?

def instructionCount (statements : List Statement) : Nat :=
  statements.countP fun s => s.label?.isNone

/-- The labels of statements that start at an address, with the addresses that follow them. -/
def labelAddresses (address : Nat) : List Statement → List (String × Nat)
  | [] => []
  | s :: rest =>
    match s.label? with
    | some name => (name, address) :: labelAddresses address rest
    | none => labelAddresses (address + 1) rest

theorem labelAddresses_append (address : Nat) (xs ys : List Statement) :
    labelAddresses address (xs ++ ys) =
      labelAddresses address xs ++ labelAddresses (address + instructionCount xs) ys := by
  induction xs generalizing address with
  | nil => simp [labelAddresses, instructionCount]
  | cons s xs ih =>
    simp only [List.cons_append, labelAddresses, instructionCount, List.countP_cons]
    cases hs : s.label? with
    | some name => simp [ih, instructionCount]
    | none =>
      simp only [ih, instructionCount, Option.isNone_none, if_true]
      rw [Nat.add_right_comm, Nat.add_assoc]

theorem entryNames_labelAddresses (address : Nat) (statements : List Statement) :
    entryNames (labelAddresses address statements) = labelNames statements := by
  induction statements generalizing address with
  | nil => rfl
  | cons s rest ih =>
    simp only [labelAddresses, labelNames, List.filterMap_cons]
    cases hs : s.label? with
    | some name =>
      have := ih address
      simp only [entryNames, labelNames] at this ⊢
      simp [this]
    | none => exact ih (address + 1)

theorem bindLabelsFrom_cons (all : List LocatedStatement) (address : Nat) (labels : Table Nat)
    (s : LocatedStatement) (rest : List LocatedStatement) (t : Table Nat) :
    bindLabelsFrom all address labels (s :: rest) = .ok t ↔
      match s.statement.label? with
      | some name =>
        name ∉ entryNames labels.toList ∧ predefined? name = none ∧
          bindLabelsFrom all address (labels.insert name address) rest = .ok t
      | none => bindLabelsFrom all (address + 1) labels rest = .ok t := by
  cases hs : s.statement with
  | label name =>
    simp only [bindLabelsFrom, hs, Statement.label?]
    rw [← Table.contains_iff]
    cases hc : labels.contains name <;> cases hp : predefined? name <;> simp
  | load operand => simp [bindLabelsFrom, hs, Statement.label?]
  | compute spelling action => simp [bindLabelsFrom, hs, Statement.label?]

/-- Labels are bound in order, each to the address that follows it, and no two are the same. -/
theorem bindLabelsFrom_eq_ok {all : List LocatedStatement} {address : Nat} {labels t : Table Nat}
    {statements : List LocatedStatement} (hn : (entryNames labels.toList).Nodup)
    (h : bindLabelsFrom all address labels statements = .ok t) :
    t.toList = labels.toList ++ labelAddresses address (bare statements) ∧
      (entryNames t.toList).Nodup ∧
      ∀ name ∈ labelNames (bare statements), predefined? name = none := by
  induction statements generalizing address labels with
  | nil =>
    simp only [bindLabelsFrom, Except.ok.injEq] at h
    subst h
    exact ⟨by simp [bare, labelAddresses], hn, by simp [bare, labelNames]⟩
  | cons s rest ih =>
    rw [bindLabelsFrom_cons] at h
    simp only [bare, List.map_cons, labelAddresses, labelNames, List.filterMap_cons] at ih ⊢
    cases hs : s.statement.label? with
    | none =>
      simp only [hs] at h ⊢
      exact ih hn h
    | some name =>
      simp only [hs] at h ⊢
      obtain ⟨hnew, hp, h⟩ := h
      have hlist := Table.toList_insert_of_new address hnew
      have hn' := Table.nodup_insert_of_new address hn hnew
      obtain ⟨ht, hnodup, hfree⟩ := ih hn' h
      refine ⟨by rw [ht, hlist]; simp, hnodup, ?_⟩
      intro other hother
      rcases List.mem_cons.1 hother with rfl | hother
      · exact hp
      · exact hfree other hother

/-- Labels that are new and different, and none of them the machine's, are bound. -/
theorem exists_bindLabelsFrom (all : List LocatedStatement) (address : Nat) (labels : Table Nat)
    (statements : List LocatedStatement)
    (hn : (entryNames labels.toList ++ labelNames (bare statements)).Nodup)
    (hp : ∀ name ∈ labelNames (bare statements), predefined? name = none) :
    ∃ t, bindLabelsFrom all address labels statements = .ok t := by
  induction statements generalizing address labels with
  | nil => exact ⟨labels, rfl⟩
  | cons s rest ih =>
    simp only [bindLabelsFrom_cons]
    simp only [bare, List.map_cons, labelNames, List.filterMap_cons] at hn hp ih
    cases hs : s.statement.label? with
    | none =>
      simp only [hs] at hn hp
      exact ih (address + 1) labels hn hp
    | some name =>
      simp only [hs] at hn hp
      have hnew : name ∉ entryNames labels.toList := by
        intro hmem
        exact (List.nodup_append.1 hn).2.2 name hmem name List.mem_cons_self rfl
      obtain ⟨t, ht⟩ := ih address (labels.insert name address)
        (by
          rw [Table.toList_insert_of_new address hnew]
          simpa [entryNames] using hn)
        (fun other hother => hp other (List.mem_cons_of_mem _ hother))
      exact ⟨t, hnew, hp name List.mem_cons_self, ht⟩

/-! ## Second pass -/

namespace Assembly

/-- The number that an operand stands for in a program, if it is a number or a name of the
program. -/
def value? (p : Assembly) (operand : String) : Option Int :=
  if Decimal.isNumeral operand.toList then some (Decimal.value operand.toList)
  else
    match predefined? operand with
    | some n => some n
    | none =>
      match p.labels.find? operand with
      | some n => some n
      | none => p.vars.find? operand

/-- The word of a statement in a program; a label has none. -/
def wordOf (p : Assembly) : Statement → Option Word
  | .label _ => none
  | .load operand => some (encodeLoad ((p.value? operand).getD 0))
  | .compute _ action => some action.encode

/-- There are as many words as instructions. -/
theorem length_filterMap_wordOf (p : Assembly) (statements : List Statement) :
    (statements.filterMap p.wordOf).length = instructionCount statements := by
  induction statements with
  | nil => rfl
  | cons s rest ih =>
    rw [instructionCount, List.countP_cons, ← instructionCount, ← ih]
    cases s <;> simp [List.filterMap_cons, wordOf, Statement.label?]

/-- The variables of a program are numbered from a base on, no two have the same name, and no name
is that of something else. -/
structure Numbered (base : Int) (p : Assembly) : Prop where
  addresses : ∀ (i : Nat) (e : String × Int), p.vars.toList[i]? = some e → e.2 = base + i
  nodup : (entryNames p.vars.toList).Nodup
  free : ∀ name ∈ entryNames p.vars.toList,
    Decimal.isNumeral name.toList = false ∧ predefined? name = none ∧ p.labels.find? name = none

/-- A program goes on with the same labels and more variables. -/
structure Extends (p q : Assembly) : Prop where
  labels : q.labels = p.labels
  vars : ∃ more, q.vars.toList = p.vars.toList ++ more

theorem Extends.refl (p : Assembly) : Extends p p := ⟨rfl, [], by simp⟩

theorem Extends.trans {p q r : Assembly} (h : Extends p q) (g : Extends q r) : Extends p r := by
  obtain ⟨a, ha⟩ := h.vars
  obtain ⟨b, hb⟩ := g.vars
  exact ⟨g.labels.trans h.labels, a ++ b, by rw [hb, ha, List.append_assoc]⟩

theorem Extends.value? {p q : Assembly} (h : Extends p q) {operand : String} {n : Int}
    (hn : p.value? operand = some n) : q.value? operand = some n := by
  obtain ⟨more, hmore⟩ := h.vars
  unfold Assembly.value? at hn ⊢
  rw [h.labels]
  split
  · next hnum => rwa [if_pos hnum] at hn
  · next hnum =>
    rw [if_neg hnum] at hn
    revert hn
    split
    · exact id
    · split
      · exact id
      · intro hn
        rw [Table.find?_eq_lookupEntry] at hn ⊢
        rw [hmore, lookupEntry_append, hn]
        rfl

theorem Numbered.keep {base : Int} {p q : Assembly} (hp : Numbered base p) (name : String)
    (hlabels : q.labels = p.labels) (hvars : q.vars = p.vars) :
    Extends p q ∧ Numbered base q ∧
      ∀ other ∈ entryNames q.vars.toList, other ∈ entryNames p.vars.toList ∨ other = name := by
  refine ⟨⟨hlabels, [], by rw [hvars]; simp⟩, ⟨?_, ?_, ?_⟩, ?_⟩
  · rw [hvars]
    exact hp.addresses
  · rw [hvars]
    exact hp.nodup
  · rw [hvars, hlabels]
    exact hp.free
  · rw [hvars]
    exact fun other h => .inl h

theorem Numbered.insert {base : Int} {p q : Assembly} {name : String} (hp : Numbered base p)
    (hnum : Decimal.isNumeral name.toList = false) (hpre : predefined? name = none)
    (hlab : p.labels.find? name = none) (hnew : name ∉ entryNames p.vars.toList)
    (hlabels : q.labels = p.labels) (hvars : q.vars = p.vars.insert name (base + p.vars.size)) :
    Extends p q ∧ Numbered base q ∧
      ∀ other ∈ entryNames q.vars.toList, other ∈ entryNames p.vars.toList ∨ other = name := by
  have hlist := Table.toList_insert_of_new (base + (p.vars.size : Int)) hnew
  have hnames := Table.entryNames_insert_of_new (base + (p.vars.size : Int)) hnew
  have hmem (other : String) (h : other ∈ entryNames q.vars.toList) :
      other ∈ entryNames p.vars.toList ∨ other = name := by
    rw [hvars, hnames, List.mem_append, List.mem_singleton] at h
    exact h
  refine ⟨⟨hlabels, _, by rw [hvars, hlist]⟩, ⟨?_, ?_, ?_⟩, hmem⟩
  · intro i e he
    rw [hvars, hlist] at he
    by_cases hi : i < p.vars.toList.length
    · rw [List.getElem?_append_left hi] at he
      exact hp.addresses i e he
    · rw [List.getElem?_append_right (by omega), List.getElem?_singleton] at he
      have hsize : p.vars.size = p.vars.toList.length := by
        rw [Table.size, Table.toList, Array.length_toList]
      split at he
      · simp only [Option.some.injEq] at he
        subst he
        simp only
        omega
      · simp at he
  · rw [hvars]
    exact Table.nodup_insert_of_new _ hp.nodup hnew
  · intro other hother
    rw [hlabels]
    rcases hmem other hother with hother | rfl
    · exact hp.free other hother
    · exact ⟨hnum, hpre, hlab⟩

/-- What an operand is resolved to, it stands for afterwards. -/
theorem resolve_spec {base : Int} {p : Assembly} (hp : Numbered base p) (operand : String) :
    let r := resolve p.labels base p.vars operand
    ∀ q : Assembly, q.labels = p.labels → q.vars = r.2 →
      Extends p q ∧ Numbered base q ∧ q.value? operand = some r.1 ∧
        ∀ name ∈ entryNames q.vars.toList, name ∈ entryNames p.vars.toList ∨ name = operand := by
  intro r q hlabels hvars
  -- The cases are those in which an operand is looked up; only the last one adds a variable.
  by_cases hnum : Decimal.isNumeral operand.toList = true
  · have hr : r = (((Decimal.value operand.toList : Nat) : Int), p.vars) := by
      simp only [r, resolve, hnum, if_true]
    obtain ⟨he, hn, hnames⟩ := hp.keep operand hlabels (hvars.trans (congrArg Prod.snd hr))
    exact ⟨he, hn, by simp [Assembly.value?, hnum, hr], hnames⟩
  · cases hpre : predefined? operand with
    | some n =>
      have hr : r = ((n : Int), p.vars) := by simp [r, resolve, hnum, hpre]
      obtain ⟨he, hn, hnames⟩ := hp.keep operand hlabels (hvars.trans (congrArg Prod.snd hr))
      exact ⟨he, hn, by simp [Assembly.value?, hnum, hpre, hr], hnames⟩
    | none =>
      cases hlab : p.labels.find? operand with
      | some n =>
        have hr : r = ((n : Int), p.vars) := by simp [r, resolve, hnum, hpre, hlab]
        obtain ⟨he, hn, hnames⟩ := hp.keep operand hlabels (hvars.trans (congrArg Prod.snd hr))
        exact ⟨he, hn, by simp [Assembly.value?, hnum, hpre, hlabels, hlab, hr], hnames⟩
      | none =>
        cases hvar : p.vars.find? operand with
        | some n =>
          have hr : r = (n, p.vars) := by simp [r, resolve, hnum, hpre, hlab, hvar]
          obtain ⟨he, hn, hnames⟩ := hp.keep operand hlabels (hvars.trans (congrArg Prod.snd hr))
          refine ⟨he, hn, ?_, hnames⟩
          rw [hr] at hvars ⊢
          simp [Assembly.value?, hnum, hpre, hlabels, hlab, hvars, hvar]
        | none =>
          have hr : r = (base + p.vars.size, p.vars.insert operand (base + p.vars.size)) := by
            simp [r, resolve, hnum, hpre, hlab, hvar]
          have hnew : operand ∉ entryNames p.vars.toList := by
            rw [← lookupEntry_eq_none, ← Table.find?_eq_lookupEntry]
            exact hvar
          rw [hr] at hvars ⊢
          obtain ⟨he, hn, hnames⟩ :=
            hp.insert (by simpa using hnum) hpre hlab hnew hlabels hvars
          refine ⟨he, hn, ?_, hnames⟩
          simp [Assembly.value?, hnum, hpre, hlabels, hlab, hvars, Table.find?_insert]

theorem add_spec {base : Int} {p : Assembly} (hp : Numbered base p) (s : LocatedStatement) :
    let q := p.add base s
    Extends p q ∧ Numbered base q ∧
      q.words.toList = p.words.toList ++ (q.wordOf s.statement).toList ∧
      (∀ operand, s.statement = .load operand → (q.value? operand).isSome) ∧
      ∀ name ∈ entryNames q.vars.toList,
        name ∈ entryNames p.vars.toList ∨ s.statement = .load name := by
  cases hs : s.statement with
  | label name => simp [add, hs, Extends.refl, hp, wordOf]
  | compute spelling action =>
    simp only [add, hs, wordOf, Option.toList_some, Array.toList_push, reduceCtorEq, or_false]
    refine ⟨⟨rfl, [], by simp⟩, ⟨hp.addresses, hp.nodup, hp.free⟩, trivial, by simp, by simp⟩
  | load operand =>
    obtain ⟨he, hn, hv, hnames⟩ := resolve_spec hp operand (p.add base s)
      (by simp [add, hs]) (by simp [add, hs])
    refine ⟨he, hn, ?_, ?_, ?_⟩
    · rw [wordOf, hv]
      simp [add, hs]
    · rintro other h
      rw [← Statement.load.inj h, hv]
      rfl
    · intro name hname
      rcases hnames name hname with hname | rfl
      · exact .inl hname
      · exact .inr rfl

/-- Statements add their words to a program in order, each encoded with the final tables. -/
theorem foldl_add_spec {base : Int} {p : Assembly} (hp : Numbered base p)
    (statements : List LocatedStatement) :
    let q := statements.foldl (add base) p
    Extends p q ∧ Numbered base q ∧
      q.words.toList = p.words.toList ++ (bare statements).filterMap q.wordOf ∧
      (∀ operand, .load operand ∈ bare statements → (q.value? operand).isSome) ∧
      ∀ name ∈ entryNames q.vars.toList,
        name ∈ entryNames p.vars.toList ∨ .load name ∈ bare statements := by
  -- Over the statements, for every program so far: words that have been added stay right when there
  -- are more variables, since an operand that stands for something goes on standing for it.
  induction statements generalizing p with
  | nil => simp [Extends.refl, hp, bare]
  | cons s rest ih =>
    obtain ⟨he, hn, hw, hb, hnames⟩ := add_spec hp s
    obtain ⟨he', hn', hw', hb', hnames'⟩ := ih hn
    simp only [List.foldl_cons]
    generalize List.foldl (add base) (p.add base s) rest = q at *
    have hword : (p.add base s).wordOf s.statement = q.wordOf s.statement := by
      cases hs : s.statement with
      | label name => rfl
      | compute spelling action => rfl
      | load operand =>
        obtain ⟨n, hv⟩ := Option.isSome_iff_exists.1 (hb operand hs)
        rw [wordOf, wordOf, hv, he'.value? hv]
    refine ⟨he.trans he', hn', ?_, ?_, ?_⟩
    · rw [hw', hw, hword]
      cases hq : q.wordOf s.statement <;> simp [bare, hq]
    · intro operand hmem
      rcases List.mem_cons.1 hmem with hs | hmem
      · obtain ⟨n, hv⟩ := Option.isSome_iff_exists.1 (hb operand hs.symm)
        rw [he'.value? hv]
        rfl
      · exact hb' operand hmem
    · intro name hname
      rcases hnames' name hname with hname | hname
      · rcases hnames name hname with hname | hs
        · exact .inl hname
        · exact .inr (List.mem_cons.2 (.inl hs.symm))
      · exact .inr (List.mem_cons_of_mem _ hname)

end Assembly

/-! ## Both passes -/

/-- A program is what its statements are assembled to. -/
structure Assembled (base : Int) (statements : List Statement) (p : Assembly) : Prop where
  /-- Every word encodes its statement. -/
  words : p.words.toList = statements.filterMap p.wordOf
  /-- Every label has the address of the instruction that follows it. -/
  labels : p.labels.toList = labelAddresses 0 statements
  /-- No label is defined twice. -/
  nodup : (labelNames statements).Nodup
  /-- No label is the machine's. -/
  free : ∀ name ∈ labelNames statements, predefined? name = none
  /-- The variables are numbered. -/
  numbered : Assembly.Numbered base p
  /-- Every operand stands for something. -/
  bound : ∀ operand, .load operand ∈ statements → (p.value? operand).isSome
  /-- Every variable is loaded somewhere. -/
  loaded : ∀ name ∈ entryNames p.vars.toList, .load name ∈ statements

/-- Assembling statements gives what they are assembled to. -/
theorem assembled_of_assembleStatements {statements : List LocatedStatement} {base : Int}
    {p : Assembly} (h : assembleStatements statements base = .ok p) :
    Assembled base (bare statements) p := by
  unfold assembleStatements at h
  cases hl : bindLabels statements with
  | error f => simp [hl] at h
  | ok labels =>
    simp only [hl, Except.ok.injEq] at h
    subst h
    have hstart : Assembly.Numbered base { labels } :=
      ⟨by simp [Table.toList_empty], by simp [Table.toList_empty, entryNames],
        by simp [Table.toList_empty, entryNames]⟩
    obtain ⟨hlist, hn, hfree⟩ :=
      bindLabelsFrom_eq_ok (by simp [Table.toList_empty, entryNames]) hl
    obtain ⟨he, hnumbered, hw, hb, hnames⟩ := Assembly.foldl_add_spec hstart statements
    rw [Table.toList_empty, List.nil_append] at hlist
    refine ⟨by simpa using hw, ?_, ?_, hfree, hnumbered, hb, ?_⟩
    · rw [he.labels, hlist]
    · rwa [hlist, entryNames_labelAddresses] at hn
    · intro name hname
      exact (hnames name hname).resolve_left (by simp [Table.toList_empty, entryNames])

theorem exists_assembled {source file : String} {base : Int} {p : Assembly}
    (h : assemble source file base = .ok p) :
    ∃ statements, readRows (rows source.toList) = some statements ∧
      Assembled base statements p := by
  unfold assemble at h
  cases hr : readSource source file with
  | error f => simp [hr] at h
  | ok statements =>
    rw [hr] at h
    exact ⟨_, readRows_of_readSource hr, assembled_of_assembleStatements h⟩

theorem exists_assembleStatements {located : List LocatedStatement}
    (hn : (labelNames (bare located)).Nodup)
    (hp : ∀ name ∈ labelNames (bare located), predefined? name = none) (base : Int) :
    ∃ p, assembleStatements located base = .ok p := by
  obtain ⟨labels, hl⟩ := exists_bindLabelsFrom located 0 .empty located
    (by simpa [Table.toList_empty, entryNames] using hn) hp
  exact ⟨located.foldl (Assembly.add base) { labels }, by
    simp only [assembleStatements, bindLabels, hl]⟩

/-- A source that can be read is assembled unless a label of it is defined twice or the
machine's. -/
theorem exists_assemble {source : String} {statements : List Statement}
    (h : readRows (rows source.toList) = some statements) (hn : (labelNames statements).Nodup)
    (hp : ∀ name ∈ labelNames statements, predefined? name = none) (file : String) (base : Int) :
    ∃ p, assemble source file base = .ok p := by
  obtain ⟨located, hr, rfl⟩ := exists_readSource h file
  obtain ⟨p, ha⟩ := exists_assembleStatements hn hp base
  exact ⟨p, by simp only [assemble, hr, ha]⟩

theorem isDuplicate_of_assemble {source file : String} {base : Int} {f : Fault}
    (h : assemble source file base = .error f)
    (hlabels : ∀ statements, readRows (rows source.toList) = some statements →
      (labelNames statements).Nodup ∧ ∀ name ∈ labelNames statements, predefined? name = none) :
    f.isDuplicate = false := by
  unfold assemble at h
  cases hr : readSource source file with
  | error e =>
    rw [hr] at h
    exact Except.error.inj h ▸ isDuplicate_of_readSource hr
  | ok located =>
    obtain ⟨hn, hp⟩ := hlabels _ (readRows_of_readSource hr)
    obtain ⟨p, ha⟩ := exists_assembleStatements hn hp base
    simp [hr, ha] at h

theorem predefined?_of_sign {name : String} {c : Char} (h : c ∈ name.toList)
    (hc : c = '.' ∨ c = '$' ∨ c = '_') : predefined? name = none := by
  rw [predefined?, lookupEntry_eq_none]
  have hall : ∀ other ∈ entryNames predefined, '.' ∉ other.toList ∧ '$' ∉ other.toList ∧
      '_' ∉ other.toList := by decide
  intro hmem
  obtain ⟨hdot, hdollar, hlow⟩ := hall name hmem
  rcases hc with rfl | rfl | rfl
  · exact hdot h
  · exact hdollar h
  · exact hlow h

namespace Assembled

variable {base : Int} {statements pre post : List Statement} {p : Assembly}

theorem find?_label {name : String} (h : Assembled base (pre ++ .label name :: post) p) :
    p.labels.find? name = some (instructionCount pre) := by
  rw [Table.find?_eq_lookupEntry, h.labels]
  refine lookupEntry_of_mem ?_ ?_
  · rw [entryNames_labelAddresses]
    exact h.nodup
  · rw [labelAddresses_append, Nat.zero_add]
    exact List.mem_append_right _ List.mem_cons_self

theorem find?_eq_none (h : Assembled base statements p) {name : String} :
    p.labels.find? name = none ↔ name ∉ labelNames statements := by
  rw [Table.find?_eq_lookupEntry, h.labels, lookupEntry_eq_none, entryNames_labelAddresses]

theorem value?_label {name : String} (h : Assembled base (pre ++ .label name :: post) p)
    (hs : isSymbol name.toList = true) : p.value? name = some (instructionCount pre) := by
  have hfree : predefined? name = none := by
    refine h.free name ?_
    rw [labelNames, List.filterMap_append]
    exact List.mem_append_right _ List.mem_cons_self
  simp [Assembly.value?, isNumeral_of_isSymbol hs, hfree, h.find?_label]

theorem value?_var (h : Assembled base statements p) {name : String} {n : Int}
    (hn : p.vars.find? name = some n) : p.value? name = some n := by
  have hmem : name ∈ entryNames p.vars.toList := by
    rw [← isSome_lookupEntry, ← Table.find?_eq_lookupEntry, hn]
    rfl
  obtain ⟨hnum, hpre, hlab⟩ := h.numbered.free name hmem
  simp [Assembly.value?, hnum, hpre, hlab, hn]

theorem size_words (h : Assembled base statements p) :
    p.words.size = instructionCount statements := by
  rw [← Array.length_toList, h.words, p.length_filterMap_wordOf]

end Assembled

end HackToolchain.Asm
