import HackToolchain.Vm.Line
import HackToolchain.Vm.Segment

/-!
# The language of commands

Which words on a line make a command, and what is wrong with words that do not: in `Sentence` and
`Offence` the vocabulary, the number of words, the segments and their limits are spelled out. Words
that are no sentence commit an offence (`sentence_or_offence`). The reader tells the offences that
can be seen without segments (`readWords_of_malformed`).
-/

set_option autoImplicit false

namespace HackToolchain.Vm

open Text

/-! ## Sentences and offences -/

def operatorWords : List String := ["add", "sub", "neg", "eq", "gt", "lt", "and", "or", "not"]

/-- The words that start a command, with the number of words in it. -/
def wordCounts : List (String × Nat) :=
  operatorWords.map (·, 1) ++
    [("return", 1), ("label", 2), ("goto", 2), ("if-goto", 2), ("function", 3), ("call", 3),
      ("push", 3), ("pop", 3)]

/-- The segments, with the largest index into each of them. -/
def segmentLimits : List (String × Nat) :=
  [("constant", 32767), ("local", 32767), ("argument", 32767), ("this", 32767), ("that", 32767),
    ("pointer", 1), ("temp", 7), ("static", 32767)]

/-- A word is a number, as it is written. -/
def IsNumber (token : String) : Prop := Decimal.isNumeral token.toList = true

def numberOf (token : String) : Nat := Decimal.value token.toList

/-- The words of a line that says something sensible, or nothing. -/
inductive Sentence : List String → Prop where
  | blank : Sentence []
  | operator {word : String} (hword : word ∈ operatorWords) : Sentence [word]
  | «return» : Sentence ["return"]
  | flow {word name : String} (hword : word ∈ ["label", "goto", "if-goto"]) : Sentence [word, name]
  | function {word name token : String} (hword : word ∈ ["function", "call"])
      (htoken : IsNumber token) : Sentence [word, name, token]
  | push {segment token : String} {limit : Nat} (hsegment : (segment, limit) ∈ segmentLimits)
      (htoken : IsNumber token) (hindex : numberOf token ≤ limit) :
      Sentence ["push", segment, token]
  | pop {segment token : String} {limit : Nat} (hsegment : (segment, limit) ∈ segmentLimits)
      (htoken : IsNumber token) (hindex : numberOf token ≤ limit)
      (hconstant : segment ≠ "constant") : Sentence ["pop", segment, token]

/-- What is wrong with words that can be seen without knowing the segments. -/
inductive Malformed : List String → Prop where
  | word {word : String} {args : List String} (hword : ∀ n, (word, n) ∉ wordCounts) :
      Malformed (word :: args)
  | count {word : String} {args : List String} {n : Nat} (hword : (word, n) ∈ wordCounts)
      (hcount : (word :: args).length ≠ n) : Malformed (word :: args)
  | token {word name token : String} (hword : (word, 3) ∈ wordCounts) (htoken : ¬IsNumber token) :
      Malformed [word, name, token]

/-- What is wrong with words that are no sentence, and the kind of error that it makes. -/
inductive Offence : List String → ErrorKind → Prop where
  | malformed {ws : List String} (h : Malformed ws) : Offence ws .malformedInstruction
  | segment {word segment token : String} (hword : word ∈ ["push", "pop"])
      (htoken : IsNumber token) (hsegment : ∀ limit, (segment, limit) ∉ segmentLimits) :
      Offence [word, segment, token] .unknownSegment
  | index {word segment token : String} {limit : Nat} (hword : word ∈ ["push", "pop"])
      (htoken : IsNumber token) (hsegment : (segment, limit) ∈ segmentLimits)
      (hindex : limit < numberOf token) : Offence [word, segment, token] .segmentRange
  | popConstant {token : String} (htoken : IsNumber token) (hindex : numberOf token ≤ 32767) :
      Offence ["pop", "constant", token] .unsupportedOperation

/-- The words have a number that is too long: it cannot be read, or it is the number of arguments of
a call and cannot be written together with the five cells that a call saves. -/
inductive Overlong : List String → Prop where
  | read {word name token : String} (hword : word ∈ ["push", "pop", "function", "call"])
      (htoken : IsNumber token) (hlong : Decimal.maxDigits < token.toList.length) :
      Overlong [word, name, token]
  | frame {name token : String} (htoken : IsNumber token)
      (hlarge : Decimal.tooLarge ≤ numberOf token + 5) : Overlong ["call", name, token]

theorem move_sentence_or_offence {word segment token : String} (hword : word ∈ ["push", "pop"])
    (htoken : IsNumber token) :
    Sentence [word, segment, token] ∨ ∃ kind, Offence [word, segment, token] kind := by
  by_cases hsegment : ∃ limit, (segment, limit) ∈ segmentLimits
  · obtain ⟨limit, hsegment⟩ := hsegment
    by_cases hindex : numberOf token ≤ limit
    · simp only [List.mem_cons, List.not_mem_nil, or_false] at hword
      rcases hword with rfl | rfl
      · exact .inl (.push hsegment htoken hindex)
      · by_cases hconstant : segment = "constant"
        · subst hconstant
          have hlimit : limit = 32767 := by simpa [segmentLimits] using hsegment
          exact .inr ⟨_, .popConstant htoken (hlimit ▸ hindex)⟩
        · exact .inl (.pop hsegment htoken hindex hconstant)
    · exact .inr ⟨_, .index hword htoken hsegment (Nat.lt_of_not_le hindex)⟩
  · exact .inr ⟨_, .segment hword htoken fun limit h => hsegment ⟨limit, h⟩⟩

/-- Words make a sentence or commit an offence. -/
theorem sentence_or_offence (ws : List String) : Sentence ws ∨ ∃ kind, Offence ws kind := by
  cases ws with
  | nil => exact .inl .blank
  | cons word args =>
    by_cases hword : ∃ n, (word, n) ∈ wordCounts
    · obtain ⟨n, hword⟩ := hword
      by_cases hcount : (word :: args).length = n
      · subst hcount
        rcases args with _ | ⟨name, _ | ⟨token, _ | ⟨other, args⟩⟩⟩
        · have hcases : word ∈ operatorWords ∨ word = "return" := by
            simpa [wordCounts, operatorWords, or_assoc] using hword
          rcases hcases with hcases | rfl
          · exact .inl (.operator hcases)
          · exact .inl .return
        · have hcases : word ∈ ["label", "goto", "if-goto"] := by
            simpa [wordCounts, operatorWords] using hword
          exact .inl (.flow hcases)
        · by_cases htoken : IsNumber token
          · have hcases : word ∈ ["function", "call"] ∨ word ∈ ["push", "pop"] := by
              simpa [wordCounts, operatorWords, or_assoc] using hword
            rcases hcases with hcases | hcases
            · exact .inl (.function hcases htoken)
            · exact move_sentence_or_offence hcases htoken
          · exact .inr ⟨_, .malformed (.token hword htoken)⟩
        · simp [wordCounts, operatorWords] at hword
      · exact .inr ⟨_, .malformed (.count hword hcount)⟩
    · exact .inr ⟨_, .malformed (.word fun n h => hword ⟨n, h⟩)⟩

/-! ## The reader -/

theorem ofName?_eq_some_iff {word : String} {op : Operator} :
    Operator.ofName? word = some op ↔ word = op.name :=
  ⟨fun h => (Operator.name_of_ofName? h).symm, fun h => h ▸ Operator.ofName?_name op⟩

/-- The words that start a command are those of the vocabulary, with as many words as are due. -/
theorem kindOfWord?_eq_some {word : String} {kind : CommandKind}
    (h : kindOfWord? word = some kind) :
    (word, kind.arity) ∈ wordCounts := by
  unfold kindOfWord? at h
  split at h
  · next op hop =>
    obtain rfl := ofName?_eq_some_iff.1 hop
    obtain rfl := Option.some.inj h
    cases op <;> decide
  · have hkeyword : kind.keyword? = some word := by simpa using List.find?_some h
    cases kind with
    | arithmetic => cases hkeyword
    | _ =>
      obtain rfl := Option.some.inj hkeyword
      decide

theorem exists_kindOfWord? {word : String} {n : Nat} (h : (word, n) ∈ wordCounts) :
    ∃ kind, kindOfWord? word = some kind ∧ kind.arity = n := by
  have hall : ∀ p ∈ wordCounts, (kindOfWord? p.1).any fun kind => kind.arity = p.2 := by decide
  obtain ⟨kind, hkind, harity⟩ := (Option.any_eq_true _ _).1 (hall _ h)
  exact ⟨kind, hkind, of_decide_eq_true harity⟩

theorem readArguments_of_length {kind : CommandKind} {word : String} {args : List String}
    (h : args.length + 1 ≠ kind.arity) : readArguments kind word args =
      .error (Cause.wrongArgumentCount word (kind.arity - 1) args.length).fault := by
  unfold readArguments
  split
  all_goals first | rfl | exact absurd rfl h

theorem readIndex_of_isNumber (word : String) {token : String} (h : IsNumber token)
    (hshort : token.toList.length ≤ Decimal.maxDigits) :
    readIndex word token = .ok (numberOf token) := by
  unfold IsNumber at h
  simp only [readIndex, h, Decimal.read, hshort, if_true, numberOf]

theorem readIndex_of_long (word : String) {token : String} (h : IsNumber token)
    (hlong : Decimal.maxDigits < token.toList.length) :
    readIndex word token = .error (.number (.tooLongToRead token.toList.length)) := by
  unfold IsNumber at h
  simp only [readIndex, h, Decimal.read, if_neg (Nat.not_le.2 hlong), if_true]

theorem readIndex_of_not_isNumber (word : String) {token : String} (h : ¬IsNumber token) :
    readIndex word token = .error (Cause.invalidIndex word token).fault := by
  unfold IsNumber at h
  rw [readIndex, if_neg h]

/-- Words that are malformed are not read, and the error says so. -/
theorem readWords_of_malformed {ws : List String} (h : Malformed ws) :
    ∃ e, readWords ws = .error (.rejected e) ∧ e.cause.kind = .malformedInstruction := by
  cases h with
  | @word word args hword =>
    have hnone : kindOfWord? word = none := by
      cases hk : kindOfWord? word with
      | none => rfl
      | some kind => exact absurd (kindOfWord?_eq_some hk) (hword _)
    refine ⟨{ cause := .unknownCommand word (Similarity.closeWords word vocabulary) }, ?_, rfl⟩
    simp only [readWords, hnone, Cause.fault]
  | @count word args n hword hcount =>
    obtain ⟨kind, hkind, rfl⟩ := exists_kindOfWord? hword
    refine ⟨{ cause := .wrongArgumentCount word (kind.arity - 1) args.length }, ?_, rfl⟩
    simp only [readWords, hkind, readArguments_of_length hcount]
    rfl
  | @token word name token hword htoken =>
    obtain ⟨kind, hkind, harity⟩ := exists_kindOfWord? hword
    refine ⟨{ cause := .invalidIndex word token }, ?_, rfl⟩
    have hindex := readIndex_of_not_isNumber word htoken
    simp only [readWords, hkind]
    cases kind <;> simp [CommandKind.arity] at harity <;>
      simp only [readArguments, hindex] <;> rfl

theorem readWords_eq_none {ws : List String} : readWords ws = .ok none ↔ ws = [] := by
  cases ws with
  | nil => simp [readWords]
  | cons word args =>
    simp only [readWords, reduceCtorEq, iff_false]
    split
    · simp [Cause.fault]
    · next kind _ => cases readArguments kind word args <;> simp [Except.map]

theorem kind_of_readIndex {word token : String} {e : Located Cause}
    (h : readIndex word token = .error (.rejected e)) : e.cause.kind = .malformedInstruction := by
  unfold readIndex at h
  split at h
  · split at h <;> cases h
  · obtain rfl := Fault.rejected.inj (Except.error.inj h)
    rfl

/-- What the reader complains of is that the words are malformed. -/
theorem kind_of_readWords {ws : List String} {e : Located Cause}
    (h : readWords ws = .error (.rejected e)) : e.cause.kind = .malformedInstruction := by
  have hindex {word token : String} {make : Int → Command}
      (h : Except.map make (do let n ← readIndex word token; pure (n : Int)) =
        .error (.rejected e)) : e.cause.kind = .malformedInstruction := by
    cases hi : readIndex word token with
    | error f =>
      rw [hi] at h
      obtain rfl := Except.error.inj h
      exact kind_of_readIndex hi
    | ok n =>
      rw [hi] at h
      cases h
  cases ws with
  | nil => cases h
  | cons word args =>
    simp only [readWords] at h
    split at h
    · obtain rfl := Fault.rejected.inj (Except.error.inj h)
      rfl
    · next kind _ =>
      cases ha : readArguments kind word args with
      | ok c =>
        rw [ha] at h
        cases h
      | error f =>
        rw [ha] at h
        obtain rfl := Except.error.inj h
        unfold readArguments at ha
        split at ha
        case h_6 | h_7 | h_8 | h_9 => exact hindex ha
        case h_10 =>
          obtain rfl := Fault.rejected.inj (Except.error.inj ha)
          rfl
        all_goals cases ha

theorem readWords_of_readArguments {word : String} {args : List String} {kind : CommandKind}
    {c : Command} (hkind : kindOfWord? word = some kind)
    (h : readArguments kind word args = .ok c) :
    readWords (word :: args) = .ok (some c) := by
  simp only [readWords, hkind, h]
  rfl

theorem readWords_of_operator {word : String} (h : word ∈ operatorWords) :
    readWords [word] = .ok (some (.arithmetic word)) ∧ ∃ op, Operator.ofName? word = some op := by
  have hall : ∀ word ∈ operatorWords, (Operator.ofName? word).isSome := by decide
  obtain ⟨op, hop⟩ := Option.isSome_iff_exists.1 (hall word h)
  have hkind : kindOfWord? word = some .arithmetic := by simp only [kindOfWord?, hop]
  exact ⟨readWords_of_readArguments hkind rfl, op, hop⟩

/-- The commands with a name and nothing else. -/
def named : List (String × (String → Command)) :=
  [("label", .label), ("goto", .goto), ("if-goto", .ifGoto)]

theorem readWords_of_named {word name : String} {make : String → Command}
    (hmake : (word, make) ∈ named) : readWords [word, name] = .ok (some (make name)) := by
  have hkinds : kindOfWord? "label" = some .label ∧ kindOfWord? "goto" = some .goto ∧
      kindOfWord? "if-goto" = some .ifGoto := by decide
  obtain ⟨hlabel, hgoto, hifGoto⟩ := hkinds
  simp only [named, List.mem_cons, Prod.mk.injEq, List.not_mem_nil, or_false] at hmake
  rcases hmake with ⟨rfl, rfl⟩ | ⟨rfl, rfl⟩ | ⟨rfl, rfl⟩
  · exact readWords_of_readArguments hlabel rfl
  · exact readWords_of_readArguments hgoto rfl
  · exact readWords_of_readArguments hifGoto rfl

/-- The commands with a name and a number. -/
def numbered : List (String × (String → Int → Command)) :=
  [("push", .push), ("pop", .pop), ("function", .function), ("call", .call)]

theorem kindOfWord?_numbered : kindOfWord? "push" = some .push ∧ kindOfWord? "pop" = some .pop ∧
    kindOfWord? "function" = some .function ∧ kindOfWord? "call" = some .call := by
  decide

theorem mem_numbered : ("push", .push) ∈ numbered ∧ ("pop", .pop) ∈ numbered ∧
    ("function", .function) ∈ numbered ∧ ("call", .call) ∈ numbered := by
  simp [numbered]

theorem readWords_of_numbered {word token : String} {make : String → Int → Command}
    (hmake : (word, make) ∈ numbered) (name : String) (htoken : IsNumber token)
    (hshort : token.toList.length ≤ Decimal.maxDigits) :
    readWords [word, name, token] = .ok (some (make name (numberOf token))) := by
  have hindex := readIndex_of_isNumber word htoken hshort
  obtain ⟨hpush, hpop, hfunction, hcall⟩ := kindOfWord?_numbered
  simp only [numbered, List.mem_cons, Prod.mk.injEq, List.not_mem_nil, or_false] at hmake
  rcases hmake with ⟨rfl, rfl⟩ | ⟨rfl, rfl⟩ | ⟨rfl, rfl⟩ | ⟨rfl, rfl⟩
  · exact readWords_of_readArguments hpush (by rw [readArguments, hindex]; rfl)
  · exact readWords_of_readArguments hpop (by rw [readArguments, hindex]; rfl)
  · exact readWords_of_readArguments hfunction (by rw [readArguments, hindex]; rfl)
  · exact readWords_of_readArguments hcall (by rw [readArguments, hindex]; rfl)

/-- A number with too many digits is not read, and that is no complaint of the reader. -/
theorem readWords_of_long {word name token : String}
    (hword : word ∈ ["push", "pop", "function", "call"]) (htoken : IsNumber token)
    (hlong : Decimal.maxDigits < token.toList.length) :
    readWords [word, name, token] = .error (.number (.tooLongToRead token.toList.length)) := by
  have hindex := readIndex_of_long word htoken hlong
  obtain ⟨hpush, hpop, hfunction, hcall⟩ := kindOfWord?_numbered
  simp only [List.mem_cons, List.not_mem_nil, or_false] at hword
  rcases hword with rfl | rfl | rfl | rfl
  · simp only [readWords, hpush, readArguments, hindex]
    rfl
  · simp only [readWords, hpop, readArguments, hindex]
    rfl
  · simp only [readWords, hfunction, readArguments, hindex]
    rfl
  · simp only [readWords, hcall, readArguments, hindex]
    rfl

/-! ## Segments -/

theorem exists_segment {segment : String} {limit : Nat} (h : (segment, limit) ∈ segmentLimits) :
    ∃ s : Segment, Segment.ofName? segment = some s ∧ s.limit = limit := by
  have hall : ∀ p ∈ segmentLimits,
      (Segment.ofName? p.1).any fun s : Segment => s.limit = (p.2 : Int) := by decide
  obtain ⟨s, hs, hlimit⟩ := (Option.any_eq_true _ _).1 (hall _ h)
  exact ⟨s, hs, of_decide_eq_true hlimit⟩

theorem ofName?_eq_none {segment : String} (h : ∀ limit, (segment, limit) ∉ segmentLimits) :
    Segment.ofName? segment = none := by
  cases hs : Segment.ofName? segment with
  | none => rfl
  | some s =>
    obtain rfl := Segment.name_of_ofName? hs
    have hlisted : (s.name, s.limit.toNat) ∈ segmentLimits := by cases s <;> decide
    exact absurd hlisted (h _)

end HackToolchain.Vm
