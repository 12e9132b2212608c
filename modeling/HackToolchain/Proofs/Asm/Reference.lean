import HackToolchain.Proofs.Asm.Variables

/-!
# The reference for the two passes

What a program should be, said of its statements as a whole and without any table that is filled
step by step: a label stands for the number of instructions before it, the variables are the names
that stand for nothing else in the order of their first use, and every instruction is encoded on its
own (`TwoPass`). Assembling computes just that, and it fails for a label that is defined already
exactly if there is one (`assemble_eq_reference`).
-/

set_option autoImplicit false

namespace HackToolchain.Asm

open Text Machine

/-! ## Variables in the order of their first use -/

/-- A name stands for a variable: it is no number, and no name of the machine or of a label. -/
def isVariable (statements : List Statement) (name : String) : Bool :=
  !Decimal.isNumeral name.toList && (predefined? name).isNone &&
    !(labelNames statements).contains name

/-- The variables of statements in the order of their first use. -/
def variableNames (statements : List Statement) : List String :=
  ((statements.filterMap Statement.operand?).filter (isVariable statements)).eraseDups

/-- The instructions among statements. -/
def instructions (statements : List LocatedStatement) : List LocatedStatement :=
  statements.filter fun s => s.statement.label?.isNone

theorem bare_cons (s : LocatedStatement) (rest : List LocatedStatement) :
    bare (s :: rest) = s.statement :: bare rest := rfl

theorem instructions_cons (s : LocatedStatement) (rest : List LocatedStatement) :
    instructions (s :: rest) =
      if s.statement.label?.isNone then s :: instructions rest else instructions rest :=
  List.filter_cons

namespace Assembly

variable {base : Int} {p : Assembly} {all : List Statement}

/-- The labels of a program are those of statements. -/
def Binds (p : Assembly) (all : List Statement) : Prop :=
  ∀ name, p.labels.find? name = none ↔ name ∉ labelNames all

theorem labels_add (base : Int) (p : Assembly) (s : LocatedStatement) :
    (p.add base s).labels = p.labels := by
  unfold add
  cases s.statement <;> rfl

/-- A load adds its operand to the variables if it is a variable and a new one. -/
theorem entryNames_vars_add (hp : p.Binds all) {s : LocatedStatement} {operand : String}
    (hs : s.statement = .load operand) :
    entryNames (p.add base s).vars.toList =
      if isVariable all operand = true ∧ operand ∉ entryNames p.vars.toList then
        entryNames p.vars.toList ++ [operand]
      else entryNames p.vars.toList := by
  have hvars : (p.add base s).vars = (resolve p.labels base p.vars operand).2 := by
    simp only [add, hs]
  have hknown : p.vars.find? operand = none ↔ operand ∉ entryNames p.vars.toList := by
    rw [Table.find?_eq_lookupEntry, lookupEntry_eq_none]
  rw [hvars]
  unfold resolve isVariable
  by_cases hnum : Decimal.isNumeral operand.toList = true
  · simp [hnum]
  cases hpre : predefined? operand with
  | some n => simp [hnum]
  | none =>
    cases hlab : p.labels.find? operand with
    | some n =>
      have hmem : operand ∈ labelNames all := by
        by_contra hnot
        simp [(hp operand).2 hnot] at hlab
      simp [hnum, hmem]
    | none =>
      have hnot := (hp operand).1 hlab
      cases hvar : p.vars.find? operand with
      | some n =>
        have hold : operand ∈ entryNames p.vars.toList := by
          by_contra hnew
          simp [hknown.2 hnew] at hvar
        simp [hnum, hold]
      | none =>
        have hnew := hknown.1 hvar
        simp [hnum, hnew, hnot, Table.entryNames_insert_of_new]

theorem entryNames_vars_foldl (hp : p.Binds all) (statements : List LocatedStatement)
    (hfirst : (entryNames p.vars.toList).eraseDups = entryNames p.vars.toList) :
    entryNames (statements.foldl (add base) p).vars.toList =
      (entryNames p.vars.toList ++
        ((bare statements).filterMap Statement.operand?).filter (isVariable all)).eraseDups := by
  induction statements generalizing p with
  | nil => simpa [bare] using hfirst.symm
  | cons s rest ih =>
    have hp' : (p.add base s).Binds all := by
      intro name
      rw [labels_add]
      exact hp name
    rw [List.foldl_cons]
    cases hs : s.statement with
    | label name =>
      have hadd : p.add base s = p := by simp [add, hs]
      rw [hadd, ih hp hfirst]
      simp [bare_cons, hs, Statement.operand?, List.filterMap_cons]
    | compute spelling action =>
      have hadd : (p.add base s).vars = p.vars := by simp [add, hs]
      rw [ih hp' (by rw [hadd]; exact hfirst), hadd]
      simp [bare_cons, hs, Statement.operand?, List.filterMap_cons]
    | load operand =>
      have hadd : entryNames (p.add base s).vars.toList = _ := entryNames_vars_add hp hs
      have hoperands : (bare (s :: rest)).filterMap Statement.operand? =
          operand :: (bare rest).filterMap Statement.operand? := by
        simp [bare_cons, hs, Statement.operand?]
      rw [hoperands, List.filter_cons]
      by_cases hvar : isVariable all operand = true
      -- A variable that is known already falls away here as a later occurrence does there.
      · rw [if_pos hvar]
        by_cases hnew : operand ∈ entryNames p.vars.toList
        · rw [if_neg (by simp [hnew])] at hadd
          rw [ih hp' (by rw [hadd]; exact hfirst), hadd, List.eraseDups_append,
            List.eraseDups_append, List.cons_removeAll, if_neg (by simp [hnew])]
        · rw [if_pos ⟨hvar, hnew⟩] at hadd
          have hfirst' : (entryNames p.vars.toList ++ [operand]).eraseDups =
              entryNames p.vars.toList ++ [operand] := by
            rw [List.eraseDups_append, hfirst, List.cons_removeAll, if_pos (by simp [hnew])]
            simp [List.eraseDups_cons]
          rw [ih hp' (by rw [hadd]; exact hfirst'), hadd, List.append_assoc, List.singleton_append]
      · rw [if_neg hvar]
        rw [if_neg (by simp [hvar])] at hadd
        rw [ih hp' (by rw [hadd]; exact hfirst), hadd]

theorem sourceMap_foldl (base : Int) (p : Assembly) (statements : List LocatedStatement) :
    (statements.foldl (add base) p).sourceMap.toList =
      p.sourceMap.toList ++ (instructions statements).map (·.location) := by
  induction statements generalizing p with
  | nil => simp [instructions]
  | cons s rest ih =>
    rw [List.foldl_cons, ih, instructions_cons]
    cases hs : s.statement <;> simp [add, hs, Statement.label?]

end Assembly

/-! ## Places -/

theorem pairwise_of_readLines {file : String} {number : Nat} {out result : Array LocatedStatement}
    {lines : List (List Char)} (h : readLines file number out lines = .ok result)
    (hout : (out.toList.map (·.location.line)).Pairwise (· < ·))
    (hlt : ∀ s ∈ out.toList, s.location.line < number) :
    (result.toList.map (·.location.line)).Pairwise (· < ·) := by
  induction lines generalizing number out with
  | nil =>
    simp only [readLines, Except.ok.injEq] at h
    subst h
    exact hout
  | cons line lines ih =>
    simp only [readLines] at h
    cases hl : readLine file number line with
    | error f => simp [hl] at h
    | ok found =>
      rw [hl] at h
      cases found with
      | none => exact ih h hout fun s hs => Int.lt_trans (hlt s hs) (by omega)
      | some s =>
        have hline : s.location.line = number := by
          unfold readLine at hl
          split at hl
          · simp at hl
          · simp only at hl
            split at hl
            · obtain rfl := Option.some.inj (Except.ok.inj hl)
              rfl
            · split at hl <;> simp at hl
        refine ih h ?_ ?_
        · rw [Array.toList_push, List.map_append, List.pairwise_append]
          refine ⟨hout, by simp, ?_⟩
          intro m hm n hn
          obtain ⟨t, ht, rfl⟩ := List.mem_map.1 hm
          rw [List.map_singleton, List.mem_singleton] at hn
          rw [hn, hline]
          exact hlt t ht
        · intro t ht
          rw [Array.toList_push, List.mem_append, List.mem_singleton] at ht
          rcases ht with ht | rfl
          · exact Int.lt_trans (hlt t ht) (by omega)
          · rw [hline]
            omega

theorem pairwise_of_readSource {source file : String} {statements : List LocatedStatement}
    (h : readSource source file = .ok statements) :
    (statements.map (·.location.line)).Pairwise (· < ·) := by
  unfold readSource at h
  cases hl : readLines file 1 #[] (rows source.toList) with
  | error f => simp [hl, Except.map] at h
  | ok result =>
    simp only [hl, Except.map, Except.ok.injEq] at h
    subst h
    exact pairwise_of_readLines hl (by simp) (by simp)

/-! ## The reference -/

/-- What an operand stands for: a number, the address of a name of the machine, the number of
instructions before a label, or the cell of a variable. -/
def referenceValue (base : Int) (statements : List Statement) (operand : String) : Int :=
  if Decimal.isNumeral operand.toList then Decimal.value operand.toList
  else
    match predefined? operand with
    | some n => n
    | none =>
      match lookupEntry operand (labelAddresses 0 statements) with
      | some n => n
      | none => base + (variableNames statements).idxOf operand

/-- The word of an instruction: the low fifteen bits of what its operand stands for, or three ones
and the codes of its computation, its destination and its jump. -/
def referenceWord (base : Int) (statements : List Statement) : Statement → Option Word
  | .label _ => none
  | .load operand =>
    some ((0 : BitVec 1) ++ BitVec.ofInt 15 (referenceValue base statements operand))
  | .compute spelling _ =>
    match spelling.read with
    | .error _ => none
    | .ok action =>
      some ((0b111 : BitVec 3) ++ action.computation.bits ++ action.destination.bits ++
        action.jumpBits)

/-- A program is what the reference says of its statements. -/
structure TwoPass (base : Int) (statements : List LocatedStatement) (p : Assembly) : Prop where
  /-- There is a word and a place for every instruction, in order. -/
  count : p.words.size = (instructions statements).length ∧
    p.sourceMap.size = (instructions statements).length
  words : ∀ (i : Nat) (s : LocatedStatement), (instructions statements)[i]? = some s →
    p.words[i]? = referenceWord base (bare statements) s.statement ∧
      p.sourceMap[i]? = some s.location
  lines : (p.sourceMap.toList.map (·.line)).Pairwise (· < ·)
  /-- A label stands for the number of instructions before it. -/
  addresses : ∀ pre name post, bare statements = pre ++ .label name :: post →
    p.labels.find? name = some (instructionCount pre)
  labels : entryNames p.labels.toList = labelNames (bare statements)
  /-- The variables are numbered in the order of their first use. -/
  vars : p.vars.toList =
    (variableNames (bare statements)).mapIdx fun (i : Nat) name => (name, base + i)
  /-- No name stands for two things. -/
  disjoint : (entryNames p.labels.toList).Disjoint (entryNames p.vars.toList) ∧
    (entryNames p.labels.toList).Disjoint (entryNames predefined) ∧
    (entryNames p.vars.toList).Disjoint (entryNames predefined)

namespace Assembled

variable {base : Int} {statements : List Statement} {p : Assembly}

/-- If the names of the variables are in the order of their first use, so are their numbers. -/
theorem vars_eq (h : Assembled base statements p)
    (hnames : entryNames p.vars.toList = variableNames statements) :
    p.vars.toList = (variableNames statements).mapIdx fun (i : Nat) name => (name, base + i) := by
  rw [← hnames]
  apply List.ext_getElem?
  intro i
  rw [List.getElem?_mapIdx, entryNames, List.getElem?_map]
  cases he : p.vars.toList[i]? with
  | none => rfl
  | some e =>
    have hnumber := h.numbered.addresses i e he
    simp [← hnumber]

theorem value?_eq_reference (h : Assembled base statements p)
    (hnames : entryNames p.vars.toList = variableNames statements) {operand : String}
    (hload : .load operand ∈ statements) :
    p.value? operand = some (referenceValue base statements operand) := by
  obtain ⟨n, hn⟩ := Option.isSome_iff_exists.1 (h.bound operand hload)
  rw [hn]
  unfold Assembly.value? at hn
  unfold referenceValue
  rw [Table.find?_eq_lookupEntry, h.labels] at hn
  by_cases hnum : Decimal.isNumeral operand.toList = true
  · rw [if_pos hnum] at hn ⊢
    exact hn.symm
  · rw [if_neg hnum] at hn ⊢
    cases hpre : predefined? operand with
    | some m =>
      rw [hpre] at hn
      exact hn.symm
    | none =>
      rw [hpre] at hn
      cases hlab : lookupEntry operand (labelAddresses 0 statements) with
      | some m =>
        rw [hlab] at hn
        exact hn.symm
      | none =>
        rw [hlab] at hn
        obtain ⟨i, hi, rfl, hplace⟩ := h.exists_place hn
        have hname : (variableNames statements)[i]? = some operand := by
          rw [← hnames, entryNames, List.getElem?_map, hplace]
          rfl
        -- The place of a variable in the table is its place in the order of first use.
        have hnodup : (variableNames statements).Nodup := hnames ▸ h.numbered.nodup
        obtain ⟨hlt, hget⟩ := List.getElem?_eq_some_iff.1 hname
        have hindex := hnodup.idxOf_getElem i hlt
        rw [hget] at hindex
        simp only [hindex]

theorem wordOf_eq_reference (h : Assembled base statements p)
    (hnames : entryNames p.vars.toList = variableNames statements)
    (hread : ∀ s ∈ statements, s.WellFormed) :
    ∀ s ∈ statements, p.wordOf s = referenceWord base statements s := by
  intro s hs
  cases s with
  | label name => rfl
  | compute spelling action =>
    have haction : spelling.read = .ok action := hread _ hs
    simp only [referenceWord, haction]
    rfl
  | load operand =>
    rw [Assembly.wordOf, h.value?_eq_reference hnames hs]
    rfl

end Assembled

theorem map_some_words {f : Statement → Option Word} (hlabel : ∀ name, f (.label name) = none)
    (hword : ∀ s : Statement, s.label? = none → (f s).isSome) (statements : List LocatedStatement) :
    ((bare statements).filterMap f).map some =
      (instructions statements).map fun s => f s.statement := by
  induction statements with
  | nil => rfl
  | cons s rest ih =>
    rw [bare_cons, instructions_cons, List.filterMap_cons]
    cases hs : s.statement.label? with
    | some name =>
      have hname : s.statement = .label name := by
        cases h : s.statement <;> simp_all [Statement.label?]
      rw [hname, hlabel]
      exact ih
    | none =>
      obtain ⟨w, hw⟩ := Option.isSome_iff_exists.1 (hword _ hs)
      rw [hw]
      simp [ih, hw]

/-- Assembling statements adds their variables in the order of their first use, and the place of
every instruction. -/
theorem names_of_assembleStatements {statements : List LocatedStatement} {base : Int} {p : Assembly}
    (h : assembleStatements statements base = .ok p) :
    entryNames p.vars.toList = variableNames (bare statements) ∧
      p.sourceMap.toList = (instructions statements).map (·.location) := by
  unfold assembleStatements at h
  cases hl : bindLabels statements with
  | error f => simp [hl] at h
  | ok labels =>
    simp only [hl, Except.ok.injEq] at h
    have hbinds : Assembly.Binds { labels } (bare statements) := by
      obtain ⟨hlist, -, -⟩ := bindLabelsFrom_eq_ok (by simp [Table.toList_empty, entryNames]) hl
      intro name
      rw [Table.find?_eq_lookupEntry, lookupEntry_eq_none, hlist, Table.toList_empty,
        List.nil_append, entryNames_labelAddresses]
    subst h
    refine ⟨?_, ?_⟩
    · rw [Assembly.entryNames_vars_foldl hbinds statements rfl]
      rfl
    · rw [Assembly.sourceMap_foldl]
      rfl

/-- What statements are assembled to is what the reference says. -/
theorem twoPass_of_assembleStatements {statements : List LocatedStatement} {base : Int}
    {p : Assembly} (hlines : (statements.map (·.location.line)).Pairwise (· < ·))
    (hread : ∀ s ∈ bare statements, s.WellFormed) (h : assembleStatements statements base = .ok p) :
    TwoPass base statements p := by
  have ha := assembled_of_assembleStatements h
  obtain ⟨hnames, hmap⟩ := names_of_assembleStatements h
  have hword := ha.wordOf_eq_reference hnames hread
  have hwords : p.words.toList.map some =
      (instructions statements).map fun s => referenceWord base (bare statements) s.statement := by
    have hinstruction : ∀ s ∈ instructions statements,
        p.wordOf s.statement = referenceWord base (bare statements) s.statement :=
      fun s hs => hword _ (List.mem_map_of_mem (List.mem_of_mem_filter hs))
    rw [ha.words, map_some_words (fun name => rfl) ?_ statements, List.map_congr_left hinstruction]
    intro s hs
    cases s with
    | label name => simp [Statement.label?] at hs
    | load operand => rfl
    | compute spelling action => rfl
  have hnone : ∀ name ∈ entryNames predefined, predefined? name ≠ none := by
    intro name hname hnot
    exact lookupEntry_eq_none.1 hnot hname
  refine
    { count := ⟨?_, ?_⟩
      words := ?_
      lines := ?_
      addresses := ?_
      labels := ?_
      vars := ha.vars_eq hnames
      disjoint := ⟨?_, ?_, ?_⟩ }
  · have hlength := congrArg List.length hwords
    simpa using hlength
  · have hlength := congrArg List.length hmap
    simpa using hlength
  · intro i s hs
    have hi := congrArg (fun l => l[i]?) hwords
    have hi' := congrArg (fun l => l[i]?) hmap
    simp only [List.getElem?_map, hs, Option.map_some, Array.getElem?_toList] at hi hi'
    obtain ⟨w, hw, hword⟩ := Option.map_eq_some_iff.1 hi
    exact ⟨hw.trans hword, hi'⟩
  · rw [hmap, List.map_map]
    exact (hlines.sublist ((List.filter_sublist).map _))
  · intro pre name post hsplit
    rw [hsplit] at ha
    exact ha.find?_label
  · rw [ha.labels, entryNames_labelAddresses]
  · rw [ha.labels, entryNames_labelAddresses]
    intro name hname hvar
    obtain ⟨-, -, hlab⟩ := ha.numbered.free name hvar
    exact ha.find?_eq_none.1 hlab hname
  · rw [ha.labels, entryNames_labelAddresses]
    intro name hname hpre
    exact hnone name hpre (ha.free name hname)
  · intro name hvar hpre
    obtain ⟨-, hfree, -⟩ := ha.numbered.free name hvar
    exact hnone name hpre hfree

theorem isDuplicate_of_bindLabelsFrom {all : List LocatedStatement} {address : Nat}
    {labels : Table Nat} {statements : List LocatedStatement} {f : Fault}
    (h : bindLabelsFrom all address labels statements = .error f) : f.isDuplicate = true := by
  induction statements generalizing address labels with
  | nil => simp [bindLabelsFrom] at h
  | cons s rest ih =>
    cases hs : s.statement with
    | load operand =>
      simp only [bindLabelsFrom, hs] at h
      exact ih h
    | compute spelling action =>
      simp only [bindLabelsFrom, hs] at h
      exact ih h
    | label name =>
      simp only [bindLabelsFrom, hs] at h
      split at h
      · obtain rfl := Except.error.inj h
        rfl
      · split at h
        · obtain rfl := Except.error.inj h
          rfl
        · exact ih h

/-- Assembling fails for a label that is defined already exactly if the source can be read and a
label in it is defined twice or the machine's. -/
theorem isDuplicate_iff {source file : String} {base : Int} :
    (∃ f, assemble source file base = .error f ∧ f.isDuplicate = true) ↔
      ∃ statements, readSource source file = .ok statements ∧
        ¬ ((labelNames (bare statements)).Nodup ∧
          ∀ name ∈ labelNames (bare statements), predefined? name = none) := by
  constructor
  · rintro ⟨f, hf, hdup⟩
    by_contra hnot
    have hfalse := isDuplicate_of_assemble hf fun statements hrows => by
      obtain ⟨located, hread, rfl⟩ := exists_readSource hrows file
      by_contra hlabels
      exact hnot ⟨located, hread, hlabels⟩
    rw [hfalse] at hdup
    exact absurd hdup (by decide)
  · rintro ⟨statements, hread, hlabels⟩
    cases hl : bindLabels statements with
    | error f =>
      refine ⟨f, ?_, isDuplicate_of_bindLabelsFrom hl⟩
      simp only [assemble, hread, assembleStatements, hl]
    | ok labels =>
      obtain ⟨hlist, hn, hfree⟩ :=
        bindLabelsFrom_eq_ok (by simp [Table.toList_empty, entryNames]) hl
      rw [hlist, Table.toList_empty, List.nil_append, entryNames_labelAddresses] at hn
      exact absurd ⟨hn, hfree⟩ hlabels

/-- Assembling computes the reference: what a source is assembled to is what the reference says of
its statements, and a source that can be read is refused for a label that is defined already exactly
if a label is defined twice or by the machine. -/
theorem assemble_eq_reference (source file : String) (base : Int) :
    (∀ p, assemble source file base = .ok p →
      ∃ statements, readSource source file = .ok statements ∧ TwoPass base statements p) ∧
    ((∃ f, assemble source file base = .error f ∧ f.isDuplicate = true) ↔
      ∃ statements, readSource source file = .ok statements ∧
        (¬ (labelNames (bare statements)).Nodup ∨
          ∃ name ∈ labelNames (bare statements), predefined? name ≠ none)) := by
  constructor
  · intro p hp
    unfold assemble at hp
    cases hr : readSource source file with
    | error f => simp [hr] at hp
    | ok statements =>
      rw [hr] at hp
      exact ⟨statements, rfl, twoPass_of_assembleStatements (pairwise_of_readSource hr)
        (wellFormed_of_readRows (readRows_of_readSource hr)) hp⟩
  · rw [isDuplicate_iff]
    simp only [not_and_or, not_forall, exists_prop]

/-- A label used before it is defined, two variables, and one of them used twice. -/
theorem assemble_eq_reference_forward :
    ∃ p statements, assemble "@END\n0;JMP\n@x\n@y\n@x\n(END)\n@R2\n" "<input>" 16 = .ok p ∧
      readSource "@END\n0;JMP\n@x\n@y\n@x\n(END)\n@R2\n" "<input>" = .ok statements ∧
      TwoPass 16 statements p ∧ p.labels.find? "END" = some 5 ∧
      p.vars.toList = [("x", 16), ("y", 17)] := by
  have hrows : readRows (rows "@END\n0;JMP\n@x\n@y\n@x\n(END)\n@R2\n".toList) =
      some [.load "END",
        .compute ⟨none, "0", some "JMP"⟩ { computation := .zero, jump := some .always },
        .load "x", .load "y", .load "x", .label "END", .load "R2"] := by
    decide +kernel
  obtain ⟨p, hp⟩ := exists_assemble hrows (by decide) (by decide) "<input>" 16
  obtain ⟨statements, hread, htwo⟩ := (assemble_eq_reference _ _ _).1 p hp
  have hbare := Option.some.inj ((readRows_of_readSource hread).symm.trans hrows)
  refine ⟨p, statements, hp, hread, htwo, ?_, ?_⟩
  · exact htwo.addresses [.load "END", .compute ⟨none, "0", some "JMP"⟩ _, .load "x", .load "y",
      .load "x"] "END" [.load "R2"] hbare
  · rw [htwo.vars, hbare]
    decide +kernel

end HackToolchain.Asm
