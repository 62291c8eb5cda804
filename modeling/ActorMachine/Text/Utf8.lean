/-!
# Reading bytes as text

`decode?` accepts exactly the byte lists that are the UTF-8 form of a text. `decodeLossy` accepts
every byte list: where no character can be read, the longest start of a character that stands there
(at least one byte) becomes one replacement character.
-/

namespace ActorMachine.Text

/-- The UTF-8 form of a text. -/
def encode (s : String) : List UInt8 :=
  s.toUTF8.data.toList

/-- The text with the given UTF-8 form, if there is one. -/
def decode? (bytes : List UInt8) : Option String :=
  String.fromUTF8? bytes.toByteArray

/-- The character that stands for bytes that are no text. -/
def replacement : Char := '\ufffd'

/-- Whether a byte continues a character. -/
def isContinuation (b : UInt8) : Bool :=
  0x80 ≤ b && b ≤ 0xBF

/-- Whether `b` can follow the first byte `a` of a character of two bytes. -/
def startsTwo (a b : UInt8) : Bool :=
  0xC2 ≤ a && a ≤ 0xDF && isContinuation b

/-- Whether `b` can follow the first byte `a` of a character of three bytes: no longer form than
needed, no surrogate. -/
def startsThree (a b : UInt8) : Bool :=
  (a == 0xE0 && 0xA0 ≤ b && b ≤ 0xBF) ||
  (0xE1 ≤ a && a ≤ 0xEC && isContinuation b) ||
  (a == 0xED && 0x80 ≤ b && b ≤ 0x9F) ||
  (0xEE ≤ a && a ≤ 0xEF && isContinuation b)

/-- Whether `b` can follow the first byte `a` of a character of four bytes: no longer form than
needed, nothing above the last code point. -/
def startsFour (a b : UInt8) : Bool :=
  (a == 0xF0 && 0x90 ≤ b && b ≤ 0xBF) ||
  (0xF1 ≤ a && a ≤ 0xF3 && isContinuation b) ||
  (a == 0xF4 && 0x80 ≤ b && b ≤ 0x8F)

/-- The six payload bits of a continuation byte. -/
def continuationBits (b : UInt8) : Nat :=
  b.toNat % 64

/-- The character that starts with the byte `a`, and how many of the bytes after `a` it takes up. A
maximal start of a character that leads nowhere is read as the replacement character. -/
def leadingChar (a : UInt8) (rest : List UInt8) : Char × Nat :=
  if a < 0x80 then
    (Char.ofNat a.toNat, 0)
  else
    match rest with
    | [] => (replacement, 0)
    | b :: rest =>
      if startsTwo a b then
        (Char.ofNat (a.toNat % 32 * 64 + continuationBits b), 1)
      else if startsThree a b then
        match rest with
        | [] => (replacement, 1)
        | c :: _ =>
          if isContinuation c then
            (Char.ofNat ((a.toNat % 16 * 64 + continuationBits b) * 64 + continuationBits c), 2)
          else
            (replacement, 1)
      else if startsFour a b then
        match rest with
        | [] => (replacement, 1)
        | c :: rest =>
          if isContinuation c then
            match rest with
            | [] => (replacement, 2)
            | d :: _ =>
              if isContinuation d then
                (Char.ofNat (((a.toNat % 8 * 64 + continuationBits b) * 64
                  + continuationBits c) * 64 + continuationBits d), 3)
              else
                (replacement, 2)
          else
            (replacement, 1)
      else
        (replacement, 0)

/-- Reads bytes as characters, whatever they are. -/
def decodeLossyChars : List UInt8 → List Char
  | [] => []
  | a :: rest =>
    let lead := leadingChar a rest
    lead.1 :: decodeLossyChars (rest.drop lead.2)
  termination_by bytes => bytes.length
  decreasing_by simp only [List.length_drop, List.length_cons]; omega

/-- Reads bytes as text, whatever they are. -/
def decodeLossy (bytes : List UInt8) : String :=
  String.ofList (decodeLossyChars bytes)

end ActorMachine.Text
