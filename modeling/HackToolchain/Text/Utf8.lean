import HackToolchain.Text.Lines

/-!
# Reading UTF-8

Bytes are decoded to text, or refused at the first place where they are not UTF-8. What is refused
there is the longest beginning of a character that is still correct, or the one byte that cannot
begin a character.

A file that is read line by line is decoded in portions of `portionSize` bytes, each together with
the unfinished character that the portion before it left over. Three things follow for a file with a
fault: the place of the fault is counted from the first byte of its portion, the left-over bytes
included; the lines that ended in earlier portions are read before the fault is met; and the first
two bytes of a surrogate, where a portion ends with them, are left over like an unfinished
character.
-/

set_option autoImplicit false

namespace HackToolchain.Text.Utf8

/-! ## Faults -/

/-- Why bytes are not UTF-8. -/
inductive Reason where
  | invalidStart
  | invalidContinuation
  | unexpectedEnd
  deriving Repr, DecidableEq

/-- The bytes at fault: the first of them, its position, and their number. -/
structure Fault where
  reason : Reason
  byte : UInt8
  position : Nat
  count : Nat
  deriving Repr, DecidableEq

def Reason.message : Reason → String
  | .invalidStart => "invalid start byte"
  | .invalidContinuation => "invalid continuation byte"
  | .unexpectedEnd => "unexpected end of data"

/-- A byte as two hexadecimal digits. -/
def hexByte (b : UInt8) : String :=
  let digits := Nat.toDigits 16 b.toNat
  String.ofList (List.replicate (2 - digits.length) '0' ++ digits)

def Fault.message (f : Fault) : String :=
  let what :=
    if f.count = 1 then
      "byte 0x" ++ hexByte f.byte ++ " in position " ++ toString f.position
    else
      "bytes in position " ++ toString f.position ++ "-" ++ toString (f.position + f.count - 1)
  "'utf-8' codec can't decode " ++ what ++ ": " ++ f.reason.message

/-! ## One character -/

/-- What stands at the beginning of a string of bytes. -/
inductive Head where
  /-- Nothing. -/
  | nothing
  /-- A character, made of `size` bytes. -/
  | char (c : Char) (size : Nat)
  /-- A correct beginning of a character, and no more bytes. -/
  | unfinished
  /-- Bytes at fault, `size` of them. -/
  | wrong (reason : Reason) (size : Nat)
  deriving Repr, DecidableEq

/-- The bytes that go on with a character. -/
def isContinuation (b : UInt8) : Bool := 0x80 ≤ b && b ≤ 0xBF

/-- The six bits that such a byte carries. -/
def payload (b : UInt8) : Nat := b.toNat % 64

/-- The second bytes that may follow a first byte: some would make the character too long or put it
among the surrogates or beyond the last code point. -/
def isSecond (first second : UInt8) : Bool :=
  isContinuation second &&
    (if first = 0xE0 then 0xA0 ≤ second
     else if first = 0xED then second ≤ 0x9F
     else if first = 0xF0 then 0x90 ≤ second
     else if first = 0xF4 then second ≤ 0x8F
     else true)

/-- Reads one character. -/
def head : List UInt8 → Head
  | [] => .nothing
  | b :: rest =>
    if b < 0x80 then .char (Char.ofNat b.toNat) 1
    -- C0 and C1 would only begin characters that one byte can spell.
    else if b < 0xC2 then .wrong .invalidStart 1
    else if b < 0xE0 then
      match rest with
      | [] => .unfinished
      | c :: _ =>
        if isContinuation c then .char (Char.ofNat (b.toNat % 32 * 64 + payload c)) 2
        else .wrong .invalidContinuation 1
    else if b < 0xF0 then
      match rest with
      | [] => .unfinished
      | c :: rest =>
        if isSecond b c then
          match rest with
          | [] => .unfinished
          | d :: _ =>
            if isContinuation d then
              .char (Char.ofNat ((b.toNat % 16 * 64 + payload c) * 64 + payload d)) 3
            else .wrong .invalidContinuation 2
        else .wrong .invalidContinuation 1
    else if b < 0xF5 then
      match rest with
      | [] => .unfinished
      | c :: rest =>
        if isSecond b c then
          match rest with
          | [] => .unfinished
          | d :: rest =>
            if isContinuation d then
              match rest with
              | [] => .unfinished
              | e :: _ =>
                if isContinuation e then
                  .char (Char.ofNat
                    (((b.toNat % 8 * 64 + payload c) * 64 + payload d) * 64 + payload e)) 4
                else .wrong .invalidContinuation 3
            else .wrong .invalidContinuation 2
        else .wrong .invalidContinuation 1
    else .wrong .invalidStart 1

/-! ## Many characters -/

/-- Decoded characters, and the bytes of an unfinished one at the end. -/
structure Decoded where
  chars : List Char
  rest : List UInt8
  deriving Repr, DecidableEq

/-- Two bytes that begin a surrogate, and no more bytes. -/
def isHalfSurrogate : List UInt8 → Bool
  | [b, c] => b = 0xED && isContinuation c && 0xA0 ≤ c
  | _ => false

/-- Reads one character. Where more bytes are still to come, the beginning of a surrogate is not
refused before the byte after it is seen. -/
def nextHead (more : Bool) (bytes : List UInt8) : Head :=
  if more && isHalfSurrogate bytes then .unfinished else head bytes

/-- Decodes bytes from a position on; `more` tells whether others are still to come. `out` holds the
characters so far, the last one first; the number of steps is bounded by the number of bytes. -/
def decodeFrom (more : Bool) : Nat → List Char → Nat → List UInt8 → Except Fault Decoded
  | 0, out, _, bytes => .ok ⟨out.reverse, bytes⟩
  | fuel + 1, out, position, bytes =>
    match nextHead more bytes with
    | .nothing | .unfinished => .ok ⟨out.reverse, bytes⟩
    | .char c size => decodeFrom more fuel (c :: out) (position + size) (bytes.drop size)
    | .wrong reason size => .error ⟨reason, bytes.headD 0, position, size⟩

/-- Decodes a portion of a text, which may end inside a character. -/
def decodePortion (bytes : List UInt8) : Except Fault Decoded :=
  decodeFrom true bytes.length [] 0 bytes

/-- Decodes the end of a text, which may not end inside a character. -/
def decode (bytes : List UInt8) : Except Fault (List Char) :=
  match decodeFrom false bytes.length [] 0 bytes with
  | .error f => .error f
  | .ok ⟨chars, []⟩ => .ok chars
  | .ok ⟨_, b :: rest⟩ =>
      .error ⟨.unexpectedEnd, b, bytes.length - (rest.length + 1), rest.length + 1⟩

/-- The text of a file that is read at once, with its line ends unified. -/
def readText (bytes : List UInt8) : Except Fault String :=
  match decode bytes with
  | .error f => .error f
  | .ok chars => .ok (String.ofList (unifyBreaks chars))

/-! ## Line by line -/

/-- The number of bytes that are decoded together when a file is read line by line. -/
def portionSize : Nat := 8192

/-- Decodes portion by portion. `out` holds the characters of earlier portions, the last one first,
and `rest` the bytes they left over. Given back are the characters before the fault, if there is
one, and the fault. -/
def decodePortions : Nat → List Char → List UInt8 → List UInt8 → List Char × Option Fault
  | 0, out, _, _ => (out.reverse, none)
  | fuel + 1, out, rest, bytes =>
    match bytes with
    | [] =>
      match decode rest with
      | .error f => (out.reverse, some f)
      | .ok chars => ((chars.reverse ++ out).reverse, none)
    | _ :: _ =>
      match decodePortion (rest ++ bytes.take portionSize) with
      | .error f => (out.reverse, some f)
      | .ok d => decodePortions fuel (d.chars.reverse ++ out) d.rest (bytes.drop portionSize)

/-- A text that is read line by line: the lines that can be read, each with its newline, and the
fault that is met after them, if any. -/
structure Stream where
  lines : List String
  fault : Option Fault := none
  deriving Repr, DecidableEq

def Stream.ofString (text : String) : Stream :=
  { lines := (Text.lines text.toList).map String.ofList }

/-- The stream over the bytes of a file. Before a fault only whole lines are read; a carriage return
just before it might have been half of a line end, so its line is not whole. -/
def Stream.ofBytes (bytes : List UInt8) : Stream :=
  match decodePortions (bytes.length + 1) [] [] bytes with
  | (chars, none) => .ofString (String.ofList (unifyBreaks chars))
  | (chars, some fault) =>
    let sure := if chars.getLast? = some '\r' then chars.dropLast else chars
    let whole := (Text.lines (unifyBreaks sure)).filter fun l => l.getLast? = some '\n'
    { lines := whole.map String.ofList, fault := some fault }

end HackToolchain.Text.Utf8
