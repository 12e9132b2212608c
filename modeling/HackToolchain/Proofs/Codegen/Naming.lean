import HackToolchain.Proofs.Codegen.Labels

/-!
# Names of symbols

The names of all symbols end up in one space. What is kept apart by the sign between a module and a
name in it, and by the fixed beginnings of generated names, is kept apart for all names; the rest
depends on the names of functions and labels (`Hygienic`). Among symbols that are hygienic no two
have the same name (`Hygienic.name_injOn`).
-/

set_option autoImplicit false

namespace HackToolchain.Codegen

open Text Asm Vm

/-! ## Identifiers -/

/-- A name is an identifier: letters, digits and low lines, no digit first. -/
def isIdentifier (name : String) : Bool :=
  isSymbol name.toList && name.toList.all fun c => c != '.' && c != '$' && c != ':'

/-- A name may be that of a label or a function: an identifier with dots and colons. -/
def isProgramName (name : String) : Bool :=
  isSymbol name.toList && name.toList.all fun c => c != '$'

theorem toList_within_some (m x : String) :
    (Symbol.within (some m) x).toList = m.toList ++ '$' :: x.toList := by
  simp [Symbol.within, String.toList_append]

section

variable {m x : String}

theorem isSymbol_of_isIdentifier (h : isIdentifier m = true) : isSymbol m.toList = true := by
  rw [isIdentifier, Bool.and_eq_true] at h
  exact h.1

/-- An identifier has none of the signs that names are put together with, no blanks and no
slashes. -/
theorem of_isIdentifier (h : isIdentifier m = true) {c : Char} (hc : c ∈ m.toList) :
    c ≠ '.' ∧ c ≠ '$' ∧ isBlank c = false ∧ c ≠ '/' := by
  rw [isIdentifier, Bool.and_eq_true, List.all_eq_true] at h
  have hsigns := h.2 c hc
  simp only [Bool.and_eq_true, bne_iff_ne] at hsigns
  obtain ⟨hblank, hslash, -⟩ := isBlank_of_isSymbolRest (isSymbolRest_of_mem h.1 hc)
  exact ⟨hsigns.1.1, hsigns.1.2, hblank, hslash⟩

theorem isSymbol_of_isProgramName (h : isProgramName x = true) : isSymbol x.toList = true := by
  rw [isProgramName, Bool.and_eq_true] at h
  exact h.1

theorem not_mem_of_isProgramName (h : isProgramName x = true) : '$' ∉ x.toList := by
  rw [isProgramName, Bool.and_eq_true, List.all_eq_true] at h
  intro hc
  simpa using h.2 '$' hc

theorem isSymbol_append {s t : List Char} (hs : isSymbol s = true)
    (ht : ∀ c ∈ t, isSymbolRest c = true) : isSymbol (s ++ t) = true := by
  cases s with
  | nil => simp [isSymbol] at hs
  | cons c s =>
    simp only [isSymbol, Bool.and_eq_true, List.all_eq_true] at hs
    simp only [List.cons_append, isSymbol, Bool.and_eq_true, List.all_eq_true]
    exact ⟨hs.1, fun d hd => (List.mem_append.1 hd).elim (hs.2 d) (ht d)⟩

theorem isSymbol_append_render (hm : isSymbol m.toList = true) (n : Nat) :
    isSymbol (m ++ Decimal.render n).toList = true := by
  rw [String.toList_append, Decimal.toList_render_natCast]
  refine isSymbol_append hm fun c hc => ?_
  rw [isSymbolRest, Decimal.isDigit_of_mem_toDigits hc, Bool.or_true]

theorem isSymbol_within (hm : isSymbol m.toList = true)
    (hx : ∀ c ∈ x.toList, isSymbolRest c = true) :
    isSymbol (Symbol.within (some m) x).toList = true := by
  rw [toList_within_some]
  refine isSymbol_append hm fun c hc => ?_
  rcases List.mem_cons.1 hc with rfl | hc
  · decide
  · exact hx c hc

theorem tight_of_isSymbol {s : List Char} (h : isSymbol s = true) : Tight s :=
  tight_of_ne fun c hc => by
    obtain ⟨hblank, hslash, -⟩ := isBlank_of_isSymbolRest (isSymbolRest_of_mem h hc)
    exact ⟨hblank, hslash⟩

theorem moduleOfName?_of_isIdentifier (h : isIdentifier m = true) : moduleOfName? m = some m := by
  have hne : m.toList ≠ [] := by
    intro hnil
    have := isSymbol_of_isIdentifier h
    simp [hnil, isSymbol] at this
  have hdot : '.' ∉ m.toList := fun hc => (of_isIdentifier h hc).1 rfl
  have hstretches : stretches (· == '/') m.toList = [m.toList] :=
    stretches_eq_singleton hne fun c hc => beq_false_of_ne (of_isIdentifier h hc).2.2.2
  have hname : (Path.ofString m).name = m := by
    have hkeep : (m.toList != ['.']) = true := by
      rw [bne_iff_ne]
      rintro he
      exact hdot (he ▸ List.mem_singleton_self '.')
    simp [Path.ofString, Path.name, Path.namesOf, hstretches, hkeep]
  have hsuffix : (".vm".toList.isSuffixOf m.toList) = false := by
    cases hs : ".vm".toList.isSuffixOf m.toList with
    | false => rfl
    | true =>
      have := (List.isSuffixOf_iff_suffix.1 hs).mem (a := '.') (by decide)
      exact absurd this hdot
  simp only [moduleOfName?, hname, hsuffix, Bool.false_eq_true, if_false]
  rw [if_neg (by simpa using hne), String.ofList_toList]

/-! ## Names within modules -/

/-- What stands on both sides of the first sign of a kind is determined. -/
theorem append_cons_inj {a b s t : List Char} {sign : Char} (ha : sign ∉ a) (hb : sign ∉ b)
    (h : a ++ sign :: s = b ++ sign :: t) : a = b ∧ s = t := by
  induction a generalizing b with
  | nil =>
    cases b with
    | nil => exact ⟨rfl, (List.cons.inj h).2⟩
    | cons c b =>
      obtain ⟨rfl, -⟩ := List.cons.inj h
      exact absurd List.mem_cons_self hb
  | cons c a ih =>
    cases b with
    | nil =>
      obtain ⟨rfl, -⟩ := List.cons.inj h
      exact absurd List.mem_cons_self ha
    | cons d b =>
      obtain ⟨rfl, htail⟩ := List.cons.inj h
      obtain ⟨rfl, rfl⟩ := ih (fun hc => ha (List.mem_cons_of_mem _ hc))
        (fun hc => hb (List.mem_cons_of_mem _ hc)) htail
      exact ⟨rfl, rfl⟩

/-- Names within modules are the same only if the modules and the names are. -/
theorem within_inj {m m' x x' : String} (hm : '$' ∉ m.toList) (hm' : '$' ∉ m'.toList)
    (h : Symbol.within (some m) x = Symbol.within (some m') x') : m = m' ∧ x = x' := by
  have hl := congrArg String.toList h
  rw [toList_within_some, toList_within_some] at hl
  obtain ⟨hmodule, hname⟩ := append_cons_inj hm hm' hl
  exact ⟨String.toList_injective hmodule, String.toList_injective hname⟩

theorem append_render_inj {text : String} {n n' : Int}
    (h : text ++ Decimal.render n = text ++ Decimal.render n') : n = n' := by
  have hl := congrArg String.toList h
  rw [String.toList_append, String.toList_append, List.append_cancel_left_eq] at hl
  exact Decimal.render_injective (String.toList_injective hl)

theorem not_mem_render {c : Char} {n : Int} (hm : c ≠ '-') (hd : Decimal.isDigit c = false) :
    c ∉ (Decimal.render n).toList := by
  intro hc
  rcases Decimal.eq_or_isDigit_of_mem_render hc with rfl | h
  · exact hm rfl
  · exact absurd (h.symm.trans hd) (by decide)

/-- A number behind a dot at the end of a name is determined, and so is what stands in front. -/
theorem append_dot_render_inj {a b : List Char} {n n' : Int}
    (h : a ++ '.' :: (Decimal.render n).toList = b ++ '.' :: (Decimal.render n').toList) :
    a = b ∧ n = n' := by
  -- The dot is the last one, since no number has one.
  have hdot (n : Int) : '.' ∉ (Decimal.render n).toList.reverse := by
    intro hc
    exact not_mem_render (by decide) (by decide) (List.mem_reverse.1 hc)
  have hr := congrArg List.reverse h
  simp only [List.reverse_append, List.reverse_cons, List.append_assoc, List.singleton_append] at hr
  obtain ⟨hnumber, hfront⟩ := append_cons_inj (hdot n) (hdot n') hr
  exact ⟨List.reverse_injective hfront,
    Decimal.render_injective (String.toList_injective (List.reverse_injective hnumber))⟩

end

/-! ## Different symbols, different names -/

namespace Symbol

/-- The module and the name of a symbol within a module. -/
def parts? : Symbol → Option (String × String)
  | .label (some m) x => some (m, x)
  | .returnAddress (some m) n => some (m, "ret." ++ Decimal.render n)
  | _ => none

/-- A symbol that a program may define, with the sign between a module and a name only there. -/
def Proper : Symbol → Prop
  | .function f => '$' ∉ f.toList
  | .label (some m) _ | .returnAddress (some m) _ => '$' ∉ m.toList
  | .comparison _ _ | .returnAddress none _ => True
  | _ => False

theorem parts?_eq_some {s : Symbol} {m x : String} (h : s.parts? = some (m, x)) :
    s = .label (some m) x ∨
      ∃ n, s = .returnAddress (some m) n ∧ x = "ret." ++ Decimal.render n := by
  unfold parts? at h
  split at h
  · obtain ⟨rfl, rfl⟩ := Prod.mk.inj (Option.some.inj h)
    exact .inl rfl
  · next n =>
    obtain ⟨rfl, rfl⟩ := Prod.mk.inj (Option.some.inj h)
    exact .inr ⟨n, rfl, rfl⟩
  · simp at h

theorem name_of_parts? {s : Symbol} {m x : String} (h : s.parts? = some (m, x)) :
    s.name = within (some m) x := by
  rcases parts?_eq_some h with rfl | ⟨n, rfl, rfl⟩
  · rfl
  · rfl

theorem Proper.of_parts? {s : Symbol} (hs : s.Proper) {m x : String} (h : s.parts? = some (m, x)) :
    '$' ∉ m.toList := by
  rcases parts?_eq_some h with rfl | ⟨n, rfl, rfl⟩
  · exact hs
  · exact hs

theorem Proper.of_parts?_eq_none {s : Symbol} (hs : s.Proper) (h : s.parts? = none) :
    (∃ f, s = .function f) ∨ (∃ branch n, s = .comparison branch n) ∨
      ∃ n, s = .returnAddress none n := by
  cases s with
  | register r => exact absurd hs id
  | static m index => exact absurd hs id
  | function f => exact .inl ⟨f, rfl⟩
  | comparison branch n => exact .inr (.inl ⟨branch, n, rfl⟩)
  | label module x =>
    cases module with
    | none => exact absurd hs id
    | some m => simp [parts?] at h
  | returnAddress module n =>
    cases module with
    | none => exact .inr (.inr ⟨n, rfl⟩)
    | some m => simp [parts?] at h

theorem Proper.not_mem_name {s : Symbol} (hs : s.Proper) (h : s.parts? = none) :
    '$' ∉ s.name.toList := by
  have hrender (text : String) (n : Int) (ht : '$' ∉ text.toList) :
      '$' ∉ (text ++ Decimal.render n).toList := by
    rw [String.toList_append, List.mem_append, not_or]
    exact ⟨ht, not_mem_render (by decide) (by decide)⟩
  rcases hs.of_parts?_eq_none h with ⟨f, rfl⟩ | ⟨branch, n, rfl⟩ | ⟨n, rfl⟩
  · exact hs
  · cases branch with
    | holds => exact hrender _ n (by decide)
    | done => exact hrender _ n (by decide)
  · exact hrender _ n (by decide)

/-- Proper symbols of the same name are of the same module, or of none. -/
theorem parts?_eq_of_name_eq {s t : Symbol} (hs : s.Proper) (ht : t.Proper) (h : s.name = t.name) :
    s.parts? = t.parts? := by
  have hmem {u : Symbol} {m x : String} (hu : u.parts? = some (m, x)) : '$' ∈ u.name.toList := by
    rw [name_of_parts? hu, toList_within_some]
    exact List.mem_append_right _ List.mem_cons_self
  cases hsp : s.parts? with
  | none =>
    cases htp : t.parts? with
    | none => rfl
    | some mx => exact absurd (h ▸ hmem htp) (hs.not_mem_name hsp)
  | some mx =>
    cases htp : t.parts? with
    | none => exact absurd (h ▸ hmem hsp) (ht.not_mem_name htp)
    | some my =>
      rw [name_of_parts? hsp, name_of_parts? htp] at h
      obtain ⟨hm, hx⟩ := within_inj (hs.of_parts? hsp) (ht.of_parts? htp) h
      rw [Prod.ext hm hx]

theorem comparison_inj {branch branch' : Branch} {n n' : Int}
    (h : (comparison branch n).name = (comparison branch' n').name) :
    branch = branch' ∧ n = n' := by
  cases branch <;> cases branch'
  · exact ⟨rfl, append_render_inj h⟩
  · exact absurd (congrArg String.toList h) (by simp [name, String.toList_append])
  · exact absurd (congrArg String.toList h) (by simp [name, String.toList_append])
  · exact ⟨rfl, append_render_inj h⟩

/-- No comparison has the name of a return address outside of modules. -/
theorem comparison_ne_returnAddress (branch : Branch) (n n' : Int) :
    (comparison branch n).name ≠ (returnAddress none n').name := by
  intro h
  cases branch <;>
    exact absurd (congrArg String.toList h) (by simp [name, within, String.toList_append])

end Symbol

/-- Names of functions and labels keep out of the way of the machine's names and of generated names
among some symbols. -/
structure Hygienic (symbols : List Symbol) : Prop where
  registers : ∀ f, .function f ∈ symbols → predefined? f = none
  comparisons : ∀ f branch n, .function f ∈ symbols → .comparison branch n ∈ symbols →
    f ≠ (Symbol.comparison branch n).name
  bootstrap : ∀ f n, .function f ∈ symbols → .returnAddress none n ∈ symbols →
    f ≠ (Symbol.returnAddress none n).name
  returns : ∀ m x n, .label (some m) x ∈ symbols → .returnAddress (some m) n ∈ symbols →
    x ≠ "ret." ++ Decimal.render n

/-- Among hygienic symbols no two have the same name. -/
theorem Hygienic.name_injOn {symbols : List Symbol} (h : Hygienic symbols)
    (hproper : ∀ s ∈ symbols, s.Proper) {s t : Symbol} (hs : s ∈ symbols) (ht : t ∈ symbols)
    (hname : s.name = t.name) : s = t := by
  -- Either both stand within a module, the same, or neither does. Each kind of symbol is then told
  -- from each other kind by what it is to be hygienic.
  have hparts := Symbol.parts?_eq_of_name_eq (hproper s hs) (hproper t ht) hname
  cases hsp : s.parts? with
  | some mx =>
    obtain ⟨m, x⟩ := mx
    rw [hsp] at hparts
    rcases Symbol.parts?_eq_some hsp with rfl | ⟨n, rfl, rfl⟩
    · rcases Symbol.parts?_eq_some hparts.symm with rfl | ⟨n, rfl, hx⟩
      · rfl
      · exact absurd hx (h.returns m x n hs ht)
    · rcases Symbol.parts?_eq_some hparts.symm with rfl | ⟨n', rfl, hx⟩
      · exact absurd rfl (h.returns m _ n ht hs)
      · rw [append_render_inj hx]
  | none =>
    rcases (hproper s hs).of_parts?_eq_none hsp with ⟨f, rfl⟩ | ⟨branch, n, rfl⟩ | ⟨n, rfl⟩
    · rcases (hproper t ht).of_parts?_eq_none (hparts ▸ hsp) with
        ⟨f', rfl⟩ | ⟨branch', n', rfl⟩ | ⟨n', rfl⟩
      · rw [show f = f' from hname]
      · exact absurd hname (h.comparisons f branch' n' hs ht)
      · exact absurd hname (h.bootstrap f n' hs ht)
    · rcases (hproper t ht).of_parts?_eq_none (hparts ▸ hsp) with
        ⟨f', rfl⟩ | ⟨branch', n', rfl⟩ | ⟨n', rfl⟩
      · exact absurd hname.symm (h.comparisons f' branch n ht hs)
      · obtain ⟨rfl, rfl⟩ := Symbol.comparison_inj hname
        rfl
      · exact absurd hname (Symbol.comparison_ne_returnAddress branch n n')
    · rcases (hproper t ht).of_parts?_eq_none (hparts ▸ hsp) with
        ⟨f', rfl⟩ | ⟨branch', n', rfl⟩ | ⟨n', rfl⟩
      · exact absurd hname.symm (h.bootstrap f' n ht hs)
      · exact absurd hname.symm (Symbol.comparison_ne_returnAddress branch' n' n)
      · rw [append_render_inj hname]

end HackToolchain.Codegen
