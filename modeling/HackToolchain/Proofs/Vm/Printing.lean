import HackToolchain.Proofs.Text.Contents
import HackToolchain.Proofs.Text.Numerals
import HackToolchain.Proofs.Vm.Language

/-!
# Commands as text

The text of a command is its words with a space between them. A line that says this text, with
blanks around it and perhaps a comment behind it (`Says`), has the same words
(`Says.commandWords_eq`), so that it is read as the command (`Says.parseLine_eq`). From there
printing and reading are inverse to each other (`parseLine_inverts_render`): a command whose parts
can be written as words is read off its text, and what was read off a line is read off the text of
that line again.
-/

set_option autoImplicit false

namespace HackToolchain.Vm

open Text

/-! ## Words -/

/-- A word on a line: some characters, none of which is a blank or starts a comment. -/
structure IsWord (s : List Char) : Prop where
  ne_nil : s ≠ []
  isBlank : ∀ c ∈ s, Text.isBlank c = false
  no_comment : ¬['/', '/'] <:+: s

theorem IsWord.uncomment {s : List Char} (h : IsWord s) : Text.uncomment s = s :=
  uncomment_of_no_comment h.no_comment

theorem isWord_of_tight {s : List Char} (hne : s ≠ []) (h : Tight s) : IsWord s := by
  refine ⟨hne, h.isBlank, ?_⟩
  intro hcomment
  have hcut : Text.uncomment ['/', '/'] = ['/', '/'] := uncomment_of_infix hcomment h.uncomment
  rw [uncomment_slashes] at hcut
  exact absurd hcut (List.cons_ne_nil _ _).symm

theorem isWord_of_ne {s : List Char} (hne : s ≠ [])
    (h : ∀ c ∈ s, Text.isBlank c = false ∧ c ≠ '/') : IsWord s :=
  isWord_of_tight hne (tight_of_ne h)

theorem isWord_of_mem_commandWords {line word : String} (h : word ∈ commandWords line) :
    IsWord word.toList := by
  obtain ⟨w, hw, rfl⟩ := List.mem_map.1 h
  rw [String.toList_ofList]
  exact isWord_of_tight (of_mem_words hw).1 (tight_of_mem_words hw)

theorem isWord_keyword? {kind : CommandKind} {word : String} (h : kind.keyword? = some word) :
    IsWord word.toList := by
  suffices hword : word.toList ≠ [] ∧ ∀ c ∈ word.toList, Text.isBlank c = false ∧ c ≠ '/' from
    isWord_of_ne hword.1 hword.2
  cases kind with
  | arithmetic => cases h
  | _ =>
    obtain rfl := Option.some.inj h
    decide

theorem isWord_render (n : Int) : IsWord (Decimal.render n).toList := by
  apply isWord_of_ne
  · intro hnil
    cases n with
    | ofNat n =>
      have hnumeral := (Decimal.value_render n).1
      rw [Int.ofNat_eq_natCast] at hnil
      rw [hnil] at hnumeral
      cases hnumeral
    | negSucc n =>
      rw [Decimal.toList_render_negSucc] at hnil
      cases hnil
  · intro c hc
    exact ⟨Decimal.isBlank_of_mem_render hc, Decimal.ne_slash_of_mem_render hc⟩

/-! ## Lines that say a text -/

/-- A line says a text: blanks stand around it and, behind at least one blank, a comment. -/
inductive Says (text : String) : String → Prop where
  | blanks {before after : String} (hbefore : AllBlank before.toList)
      (hafter : AllBlank after.toList) : Says text (before ++ text ++ after)
  | comment {before after : String} (hbefore : AllBlank before.toList)
      (hafter : AllBlank after.toList) (hne : after ≠ "") (comment : String) :
      Says text (before ++ text ++ after ++ "//" ++ comment)

theorem Says.refl (text : String) : Says text text := by
  have hnone : AllBlank "".toList := by simp [AllBlank]
  have h : Says text ("" ++ text ++ "") := .blanks hnone hnone
  simpa using h

theorem not_mem_of_allBlank {s : List Char} (h : AllBlank s) : '/' ∉ s :=
  fun hc => absurd (h _ hc) (by decide)

/-- A text without a comment is what stands in front of the comment on a line that says it. -/
theorem Says.exists_uncomment {text line : String} (h : Says text line)
    (htext : Text.uncomment text.toList = text.toList) :
    ∃ before after, AllBlank before ∧ AllBlank after ∧
      Text.uncomment line.toList = before ++ text.toList ++ after := by
  have hcut (before after rest : List Char) (hbefore : AllBlank before) (hafter : AllBlank after)
      (hrest : after = [] → rest = []) :
      Text.uncomment (before ++ (text.toList ++ (after ++ rest))) =
        before ++ (text.toList ++ (after ++ Text.uncomment rest)) := by
    rw [uncomment_append (not_mem_of_allBlank hbefore)]
    -- Without a blank between them, a slash that ends the text would start a comment with the next
    -- one.
    cases after with
    | nil => simp [hrest rfl, htext, uncomment_nil]
    | cons b after =>
      have hb : b ≠ '/' := fun hb => not_mem_of_allBlank hafter (hb ▸ List.mem_cons_self)
      rw [List.cons_append, uncomment_append_cons htext hb, ← List.cons_append,
        uncomment_append (not_mem_of_allBlank hafter)]
  cases h with
  | @blanks before after hbefore hafter =>
    refine ⟨before.toList, after.toList, hbefore, hafter, ?_⟩
    have hline := hcut before.toList after.toList [] hbefore hafter fun _ => rfl
    simpa [uncomment_nil] using hline
  | @comment before after hbefore hafter hne comment =>
    refine ⟨before.toList, after.toList, hbefore, hafter, ?_⟩
    have hnil : after.toList ≠ [] := fun hnil => hne (String.toList_eq_nil_iff.1 hnil)
    have hline := hcut before.toList after.toList ('/' :: '/' :: comment.toList) hbefore hafter
      fun h => absurd h hnil
    simpa [uncomment_slashes] using hline

section Says

variable {ws : List String} {line : String} (hws : ∀ w ∈ ws, IsWord w.toList)
  (h : Says (" ".intercalate ws) line)

include hws h

/-- The words on a line that says some words are these. -/
theorem Says.commandWords_eq : commandWords line = ws := by
  have hmem : ∀ w ∈ ws.map String.toList, IsWord w := by
    intro w hw
    obtain ⟨word, hword, rfl⟩ := List.mem_map.1 hw
    exact hws word hword
  have htext : (" ".intercalate ws).toList = [' '].intercalate (ws.map String.toList) :=
    String.toList_intercalate
  have hcut : Text.uncomment (" ".intercalate ws).toList = (" ".intercalate ws).toList := by
    rw [htext]
    exact uncomment_intercalate fun w hw => (hmem w hw).uncomment
  obtain ⟨before, after, hbefore, hafter, hline⟩ := h.exists_uncomment hcut
  rw [commandWords, words_content, hline, words_append_right hafter, words_append_left hbefore,
    htext, words_intercalate fun w hw => ⟨(hmem w hw).ne_nil, (hmem w hw).isBlank⟩, List.map_map]
  simp [Function.comp_def]

/-- A line that says the words of a command is read as the command, with these words as its text. -/
theorem Says.parseLine_eq {c : Command} (hread : readWords ws = .ok (some c))
    (location : Option Location) :
    parseLine line location =
      .ok (some { command := c, location, text := " ".intercalate ws }) := by
  simp only [parseLine, h.commandWords_eq hws, hread]

end Says

/-! ## Commands that are printed -/

/-- The parts of a command can be told from each other in its text: its name is a word, and an
operator if the kind asks for one; its number is not negative and has no more digits than are
read. -/
structure Writable (kind : CommandKind) (name : Option String) (index : Option Int) : Prop where
  word : ∀ w ∈ name, IsWord w.toList
  operator : kind = .arithmetic → ∀ w ∈ name, w ∈ operatorWords
  number : ∀ n ∈ index, 0 ≤ n ∧ (Decimal.render n).toList.length ≤ Decimal.maxDigits

theorem parts_of_ofParts {kind : CommandKind} {name : Option String} {index : Option Int}
    {c : Command} (h : Command.ofParts kind name index = .ok c) :
    c.kind = kind ∧ c.name? = name ∧ c.index? = index := by
  unfold Command.ofParts at h
  split at h
  case h_10 => split at h <;> cases h
  all_goals
    obtain rfl := Except.ok.inj h
    exact ⟨rfl, rfl, rfl⟩

/-- The words of a command are words on a line. -/
theorem isWord_of_words {c : Command} {ws : List String} (h : c.words = .ok ws)
    (hname : ∀ w ∈ c.name?, IsWord w.toList) : ∀ w ∈ ws, IsWord w.toList := by
  have hleading : ∀ w ∈ c.leadingWords, IsWord w.toList := by
    intro w hw
    rw [Command.leadingWords, List.mem_append, Option.mem_toList, Option.mem_toList] at hw
    rcases hw with hw | hw
    · exact isWord_keyword? hw
    · exact hname w hw
  unfold Command.words at h
  split at h
  · obtain rfl := Except.ok.inj h
    exact hleading
  · next n _ =>
    unfold Decimal.write at h
    split at h
    · obtain rfl := Except.ok.inj h
      intro w hw
      rcases List.mem_append.1 hw with hw | hw
      · exact hleading w hw
      · rw [List.mem_singleton.1 hw]
        exact isWord_render n
    · cases h

/-- A command with a name and a number is read off its words. -/
theorem words_of_numbered {word name : String} {make : String → Int → Command} {n : Int}
    (hmake : (word, make) ∈ numbered)
    (hn : 0 ≤ n ∧ (Decimal.render n).toList.length ≤ Decimal.maxDigits) :
    (make name n).words = .ok [word, name, Decimal.render n] ∧
      readWords [word, name, Decimal.render n] = .ok (some (make name n)) := by
  obtain ⟨n, rfl⟩ := Int.eq_ofNat_of_zero_le hn.1
  have hwrite := Decimal.write_of_fits (Decimal.fits_iff_length_render_le.2 hn.2)
  obtain ⟨hnumeral, hvalue⟩ := Decimal.value_render n
  constructor
  · simp only [numbered, List.mem_cons, Prod.mk.injEq, List.not_mem_nil, or_false] at hmake
    rcases hmake with ⟨rfl, rfl⟩ | ⟨rfl, rfl⟩ | ⟨rfl, rfl⟩ | ⟨rfl, rfl⟩ <;>
      · simp only [Command.words, Command.index?, hwrite]
        rfl
  · rw [readWords_of_numbered hmake name hnumeral hn.2, numberOf, hvalue]

/-- A command is read off its words if its parts can be told from each other in them. -/
theorem readWords_words {c : Command} (h : Writable c.kind c.name? c.index?) :
    ∃ ws, c.words = .ok ws ∧ readWords ws = .ok (some c) := by
  obtain ⟨hpush, hpop, hfunction, hcall⟩ := mem_numbered
  cases c with
  | arithmetic word => exact ⟨[word], rfl, (readWords_of_operator (h.operator rfl word rfl)).1⟩
  | label name => exact ⟨["label", name], rfl, readWords_of_named (by simp [named])⟩
  | goto name => exact ⟨["goto", name], rfl, readWords_of_named (by simp [named])⟩
  | ifGoto name => exact ⟨["if-goto", name], rfl, readWords_of_named (by simp [named])⟩
  | push name n => exact ⟨_, words_of_numbered hpush (h.number n rfl)⟩
  | pop name n => exact ⟨_, words_of_numbered hpop (h.number n rfl)⟩
  | function name n => exact ⟨_, words_of_numbered hfunction (h.number n rfl)⟩
  | call name n => exact ⟨_, words_of_numbered hcall (h.number n rfl)⟩
  | «return» => exact ⟨["return"], rfl, by decide⟩

/-- A command that was made up from parts is read off its text, wherever it stands. -/
theorem parseLine_render {kind : CommandKind} {name : Option String} {index : Option Int}
    {c : Command} (hparts : Command.ofParts kind name index = .ok c)
    (h : Writable kind name index) (location : Option Location) :
    ∃ text, Instruction.render { command := c, location } = .ok text ∧
      ∀ location', ∃ i, parseLine text location' = .ok (some i) ∧
        i.command.kind = kind ∧ i.command.name? = name ∧ i.command.index? = index := by
  obtain ⟨rfl, rfl, rfl⟩ := parts_of_ofParts hparts
  obtain ⟨ws, hwords, hread⟩ := readWords_words h
  refine ⟨" ".intercalate ws, ?_, ?_⟩
  · rw [Instruction.render, if_pos rfl, Command.render, hwords]
    rfl
  · intro location'
    have hline := (Says.refl _).parseLine_eq (isWord_of_words hwords h.word) hread location'
    exact ⟨_, hline, rfl, rfl, rfl⟩

/-! ## Commands that were read -/

/-- What is read off a line is the command of its words, and these are its text. -/
theorem of_parseLine {line : String} {location : Option Location} {i : Instruction}
    (h : parseLine line location = .ok (some i)) :
    readWords (commandWords line) = .ok (some i.command) ∧
      i = { command := i.command, location, text := " ".intercalate (commandWords line) } := by
  simp only [parseLine] at h
  split at h
  · cases h
  · next c hread =>
    obtain rfl := Option.some.inj (Except.ok.inj h)
    exact ⟨hread, rfl⟩
  · cases h
  · cases h

/-- An instruction that was read has a text, and it is what was read. -/
theorem render_of_parseLine {line : String} {location : Option Location} {i : Instruction}
    (h : parseLine line location = .ok (some i)) :
    i.render = .ok (" ".intercalate (commandWords line)) := by
  obtain ⟨hread, hi⟩ := of_parseLine h
  rw [hi, Instruction.render, if_neg]
  intro hempty
  have hwords : commandWords "" = commandWords line := by
    apply Says.commandWords_eq (fun w hw => isWord_of_mem_commandWords hw)
    rw [show " ".intercalate (commandWords line) = "" from hempty]
    exact Says.refl ""
  have hnone : commandWords line = [] := hwords.symm.trans rfl
  rw [hnone] at hread
  cases hread

/-- Printing and reading are inverse. A command made up from parts that can be told from each other
is read off its text with the same parts. An instruction that was read has a text, and every line
that says this text, the text itself among them, is read as the same command with the same text. -/
theorem parseLine_inverts_render :
    (∀ kind name index c location, Command.ofParts kind name index = .ok c →
      Writable kind name index →
      ∃ text, Instruction.render { command := c, location } = .ok text ∧
        ∀ location', ∃ i, parseLine text location' = .ok (some i) ∧
          i.command.kind = kind ∧ i.command.name? = name ∧ i.command.index? = index) ∧
    ∀ line location i, parseLine line location = .ok (some i) →
      ∃ text, i.render = .ok text ∧ ∀ location',
        parseLine text location' = .ok (some { i with location := location' }) ∧
        ∀ line', Says text line' →
          parseLine line' location' = .ok (some { i with location := location' }) := by
  constructor
  · intro kind name index c location hparts h
    exact parseLine_render hparts h location
  · intro line location i h
    refine ⟨" ".intercalate (commandWords line), render_of_parseLine h, ?_⟩
    intro location'
    have hsaid : ∀ line', Says (" ".intercalate (commandWords line)) line' →
        parseLine line' location' = .ok (some { i with location := location' }) := by
      intro line' hsay
      obtain ⟨hread, hi⟩ := of_parseLine h
      have hwords : ∀ w ∈ commandWords line, IsWord w.toList := by
        intro w hw
        exact isWord_of_mem_commandWords hw
      rw [hsay.parseLine_eq hwords hread, hi]
    exact ⟨hsaid _ (Says.refl _), hsaid⟩

/-- The text of a call of a function with single slashes and a letter outside ASCII in its name, and
a push read off a line with leading zeros and a comment. -/
theorem parseLine_inverts_render_slashes :
    (Command.ofParts .call (some "a/b/é/") (some 2) = .ok (.call "a/b/é/" 2) ∧
      Writable .call (some "a/b/é/") (some 2) ∧
      ∃ text, Instruction.render { command := .call "a/b/é/" 2 } = .ok text ∧
        ∃ i, parseLine text = .ok (some i) ∧ i.command.kind = .call ∧
          i.command.name? = some "a/b/é/" ∧ i.command.index? = some 2) ∧
    parseLine "\tpush constant  007 // seven" =
      .ok (some { command := .push "constant" 7, text := "push constant 007" }) ∧
    parseLine " push constant 007 //" =
      .ok (some { command := .push "constant" 7, text := "push constant 007" }) := by
  have hparts : Command.ofParts .call (some "a/b/é/") (some 2) = .ok (.call "a/b/é/" 2) := rfl
  have hcall : Writable .call (some "a/b/é/") (some 2) := by
    refine ⟨?_, nofun, ?_⟩
    · rintro w ⟨⟩
      exact isWord_of_tight (by decide) ⟨by decide, by decide⟩
    · rintro n ⟨⟩
      decide
  have hpush : parseLine "\tpush constant  007 // seven" =
      .ok (some { command := .push "constant" 7, text := "push constant 007" }) := by decide
  obtain ⟨hprinted, hread⟩ := parseLine_inverts_render
  refine ⟨⟨hparts, hcall, ?_⟩, hpush, ?_⟩
  · obtain ⟨text, htext, hback⟩ := hprinted .call _ _ _ none hparts hcall
    exact ⟨text, htext, hback none⟩
  · obtain ⟨text, htext, hback⟩ := hread _ _ _ hpush
    obtain rfl := Except.ok.inj htext
    have hspace : AllBlank " ".toList := by
      unfold AllBlank
      decide
    have hsay : Says "push constant 007" (" " ++ "push constant 007" ++ " " ++ "//" ++ "") :=
      .comment hspace hspace (by decide) ""
    exact (hback none).2 _ hsay

end HackToolchain.Vm
