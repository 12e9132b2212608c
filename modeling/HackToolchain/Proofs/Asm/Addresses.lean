import HackToolchain.Proofs.Asm.Reference

/-!
# Addresses in words

A word that loads a symbol keeps the low fifteen bits of the symbol's address, whatever the address
is, and no address makes the assembler refuse a source. So a word is the address of its symbol
exactly if the address is a number of fifteen bits, and in `symbols_exact_iff` this is said of whole
programs: no loaded label is past the first 32768 instructions, and the cells of the variables are
all below 32768 and none is negative.
-/

set_option autoImplicit false

namespace HackToolchain.Asm

open Text Machine

/-- A program has an address for a name: the machine's, that of a label or that of a variable. -/
def Assembly.Reports (p : Assembly) (name : String) (n : Int) : Prop :=
  (∃ k : Nat, predefined? name = some k ∧ n = k) ∨
    (∃ k : Nat, p.labels.find? name = some k ∧ n = k) ∨ p.vars.find? name = some n

/-- The instruction with a number loads a symbol. -/
def LoadsAt (statements : List LocatedStatement) (i : Nat) (name : String) : Prop :=
  Decimal.isNumeral name.toList = false ∧
    ∃ s, (instructions statements)[i]? = some s ∧ s.statement = .load name

/-- Every word that loads a symbol is the address that the program has for the symbol. -/
def Assembly.Exact (p : Assembly) (statements : List LocatedStatement) : Prop :=
  ∀ i name n w, LoadsAt statements i name → p.Reports name n → p.words[i]? = some w →
    (w.toNat : Int) = n

theorem predefined?_lt {name : String} {k : Nat} (h : predefined? name = some k) : k < 32768 := by
  have hall : ∀ e ∈ predefined, e.2 < 32768 := by decide
  exact hall _ (mem_of_lookupEntry h)

theorem toNat_encodeLoad_eq_iff (n : Int) :
    ((encodeLoad n).toNat : Int) = n ↔ 0 ≤ n ∧ n < 32768 := by
  rw [toNat_encodeLoad]
  omega

namespace Assembled

variable {base : Int} {p : Assembly}

/-- What a symbol stands for is its address, and it has no other. -/
theorem value?_eq_some_iff {statements : List Statement} (h : Assembled base statements p)
    {name : String} (hnum : Decimal.isNumeral name.toList = false) (n : Int) :
    p.value? name = some n ↔ p.Reports name n := by
  have hlabel {k : Nat} (hk : p.labels.find? name = some k) : predefined? name = none := by
    by_contra hpre
    have hmem : name ∈ labelNames statements := by
      by_contra hnot
      rw [h.find?_eq_none.2 hnot] at hk
      cases hk
    exact hpre (h.free name hmem)
  constructor
  · intro hvalue
    rw [Assembly.value?, hnum, if_neg Bool.false_ne_true] at hvalue
    cases hpre : predefined? name with
    | some k =>
      rw [hpre] at hvalue
      exact .inl ⟨k, hpre, (Option.some.inj hvalue).symm⟩
    | none =>
      rw [hpre] at hvalue
      cases hlab : p.labels.find? name with
      | some k =>
        rw [hlab] at hvalue
        exact .inr (.inl ⟨k, hlab, (Option.some.inj hvalue).symm⟩)
      | none =>
        rw [hlab] at hvalue
        exact .inr (.inr hvalue)
  · rintro (⟨k, hpre, rfl⟩ | ⟨k, hlab, rfl⟩ | hvar)
    · simp [Assembly.value?, hnum, hpre]
    · simp [Assembly.value?, hnum, hlabel hlab, hlab]
    · exact h.value?_var hvar

theorem getElem?_words {statements : List LocatedStatement}
    (h : Assembled base (bare statements) p) {i : Nat} {s : LocatedStatement}
    (hi : (instructions statements)[i]? = some s) : p.words[i]? = p.wordOf s.statement := by
  have hwords := map_some_words (f := p.wordOf) (fun name => rfl) ?_ statements
  · have hat := congrArg (fun l => l[i]?) hwords
    simp only [← h.words, List.getElem?_map, hi, Option.map_some, Array.getElem?_toList] at hat
    obtain ⟨w, hw, hword⟩ := Option.map_eq_some_iff.1 hat
    exact hw.trans hword
  · intro s hs
    cases s with
    | label name => cases hs
    | load operand => rfl
    | compute spelling action => rfl

variable {statements : List LocatedStatement}

/-- A symbol that is loaded has one address, and the word is its low fifteen bits. -/
theorem word_of_loadsAt (h : Assembled base (bare statements) p) {i : Nat} {name : String}
    (hload : LoadsAt statements i name) :
    ∃ n, p.Reports name n ∧ (∀ m, p.Reports name m → m = n) ∧
      p.words[i]? = some (encodeLoad n) := by
  obtain ⟨hnum, s, hi, hs⟩ := hload
  have hmem : .load name ∈ bare statements :=
    hs ▸ List.mem_map_of_mem (List.mem_of_mem_filter (List.mem_of_getElem? hi))
  obtain ⟨n, hn⟩ := Option.isSome_iff_exists.1 (h.bound name hmem)
  refine ⟨n, (h.value?_eq_some_iff hnum n).1 hn, ?_, ?_⟩
  · intro m hm
    exact Option.some.inj (((h.value?_eq_some_iff hnum m).2 hm).symm.trans hn)
  · rw [h.getElem?_words hi, hs, Assembly.wordOf, hn, Option.getD_some]

theorem exists_loadsAt (h : Assembled base (bare statements) p) {name : String} {n : Int}
    (hvar : p.vars.find? name = some n) : ∃ i, LoadsAt statements i name := by
  have hmem : name ∈ entryNames p.vars.toList := by
    rw [← isSome_lookupEntry, ← Table.find?_eq_lookupEntry, hvar]
    rfl
  obtain ⟨s, hs, hload⟩ := List.mem_map.1 (h.loaded name hmem)
  have hinstruction : s ∈ instructions statements := by
    refine List.mem_filter.2 ⟨hs, ?_⟩
    rw [hload]
    rfl
  obtain ⟨i, hi, hget⟩ := List.getElem_of_mem hinstruction
  exact ⟨i, (h.numbered.free name hmem).1, s, hget ▸ List.getElem?_eq_getElem hi, hload⟩

/-- The variable with a number is in the table under its address. -/
theorem exists_var (h : Assembled base (bare statements) p) {i : Nat} (hi : i < p.vars.size) :
    ∃ name, p.vars.find? name = some (base + i) := by
  have hlength : i < p.vars.toList.length := by simpa [Table.size, Table.toList] using hi
  have hget := List.getElem?_eq_getElem hlength
  refine ⟨(p.vars.toList[i]).1, ?_⟩
  rw [Table.find?_eq_lookupEntry, ← h.numbered.addresses i _ hget]
  exact lookupEntry_of_mem h.numbered.nodup (List.getElem_mem hlength)

/-- A program that is exact has the addresses of what it loads within fifteen bits. -/
theorem bounds_of_exact (h : Assembled base (bare statements) p) (hexact : p.Exact statements)
    {i : Nat} {name : String} {n : Int} (hload : LoadsAt statements i name)
    (hn : p.Reports name n) : 0 ≤ n ∧ n < 32768 := by
  obtain ⟨m, -, honly, hword⟩ := h.word_of_loadsAt hload
  obtain rfl := honly n hn
  exact (toNat_encodeLoad_eq_iff n).1 (hexact i name n _ hload hn hword)

theorem exact_iff (h : Assembled base (bare statements) p) :
    p.Exact statements ↔
      (∀ i name k, LoadsAt statements i name → p.labels.find? name = some k → k < 32768) ∧
      (p.vars.size = 0 ∨ 0 ≤ base ∧ base + p.vars.size ≤ 32768) := by
  constructor
  · intro hexact
    have hvar (j : Nat) (hj : j < p.vars.size) : 0 ≤ base + j ∧ base + j < 32768 := by
      obtain ⟨name, hname⟩ := h.exists_var hj
      obtain ⟨i, hload⟩ := h.exists_loadsAt hname
      exact h.bounds_of_exact hexact hload (.inr (.inr hname))
    refine ⟨?_, ?_⟩
    · intro i name k hload hk
      have hbounds := h.bounds_of_exact hexact hload (.inr (.inl ⟨k, hk, rfl⟩))
      omega
    -- The first variable is at the base, and the last one below the end of the addresses.
    · by_cases hnone : p.vars.size = 0
      · exact .inl hnone
      · have hfirst := hvar 0 (by omega)
        have hlast := hvar (p.vars.size - 1) (by omega)
        exact .inr ⟨by omega, by omega⟩
  · rintro ⟨hlabels, hvars⟩ i name n w hload hn hw
    obtain ⟨m, -, honly, hword⟩ := h.word_of_loadsAt hload
    obtain rfl := honly n hn
    obtain rfl : encodeLoad n = w := Option.some.inj (hword.symm.trans hw)
    apply (toNat_encodeLoad_eq_iff n).2
    obtain ⟨k, hk, rfl⟩ | ⟨k, hk, rfl⟩ | hvar := hn
    · have := predefined?_lt hk
      omega
    · have := hlabels i name k hload hk
      omega
    · obtain ⟨j, hj, rfl, -⟩ := h.exists_place hvar
      omega

end Assembled

/-- Whatever their addresses, symbols are assembled: that a source is assembled does not depend on
the first address of the variables. Every symbol that is loaded has one address among those of the
machine, of the labels and of the variables, and its word is the address modulo 32768. All these
words are the addresses themselves exactly if no label that is loaded has an address above 32767 and
the cells of the variables are within the first 32768. -/
theorem symbols_exact_iff {source file : String} {base : Int} {p : Assembly}
    (h : assemble source file base = .ok p) :
    (∀ base', ∃ p', assemble source file base' = .ok p') ∧
    ∃ statements, readSource source file = .ok statements ∧
      (∀ i name, LoadsAt statements i name → ∃ n, p.Reports name n ∧
        (∀ m, p.Reports name m → m = n) ∧
        ∃ w, p.words[i]? = some w ∧ (w.toNat : Int) = n % 32768) ∧
      (p.Exact statements ↔
        (∀ i name k, LoadsAt statements i name → p.labels.find? name = some k → k < 32768) ∧
        (p.vars.size = 0 ∨ 0 ≤ base ∧ base + p.vars.size ≤ 32768)) := by
  rw [assemble] at h
  cases hread : readSource source file with
  | error f =>
    rw [hread] at h
    cases h
  | ok statements =>
    rw [hread] at h
    have hassembled := assembled_of_assembleStatements h
    refine ⟨?_, statements, rfl, ?_, hassembled.exact_iff⟩
    · intro base'
      obtain ⟨p', hp'⟩ := exists_assembleStatements hassembled.nodup hassembled.free base'
      exact ⟨p', by simp only [assemble, hread, hp']⟩
    · intro i name hload
      obtain ⟨n, hn, honly, hword⟩ := hassembled.word_of_loadsAt hload
      refine ⟨n, hn, honly, _, hword, ?_⟩
      rw [toNat_encodeLoad]
      omega

/-- A variable at 32768 is assembled to the word that loads 0. -/
theorem symbols_exact_iff_highBase :
    ∃ p statements, assemble "@x\n" "<input>" 32768 = .ok p ∧
      readSource "@x\n" "<input>" = .ok statements ∧ p.vars.toList = [("x", 32768)] ∧
      (∃ w, p.words[0]? = some w ∧ w.toNat = 0) ∧ ¬p.Exact statements := by
  have hrows : readRows (rows "@x\n".toList) = some [.load "x"] := by decide +kernel
  obtain ⟨p, hp⟩ := exists_assemble hrows (by decide) (by decide) "<input>" 32768
  obtain ⟨-, statements, hread, hwords, hexact⟩ := symbols_exact_iff hp
  have hbare : bare statements = [.load "x"] :=
    Option.some.inj ((readRows_of_readSource hread).symm.trans hrows)
  have hstatements : assembleStatements statements 32768 = .ok p := by
    simpa only [assemble, hread] using hp
  have hvars : p.vars.toList = [("x", 32768)] := by
    rw [(assembled_of_assembleStatements hstatements).vars_eq
      (names_of_assembleStatements hstatements).1, hbare]
    decide +kernel
  have hfind : p.vars.find? "x" = some 32768 := by
    rw [Table.find?_eq_lookupEntry, hvars]
    rfl
  have hload : LoadsAt statements 0 "x" := by
    obtain ⟨s, rfl, hs⟩ := List.map_eq_singleton_iff.1 hbare
    refine ⟨by decide, s, ?_, hs⟩
    simp [instructions, hs, Statement.label?]
  obtain ⟨n, -, honly, w, hw, hmod⟩ := hwords 0 "x" hload
  have hn := honly 32768 (.inr (.inr hfind))
  refine ⟨p, statements, hp, hread, hvars, ⟨w, hw, by omega⟩, ?_⟩
  intro h
  have hsize : p.vars.size = 1 := congrArg List.length hvars
  obtain ⟨-, hbounds⟩ := hexact.1 h
  omega

end HackToolchain.Asm
