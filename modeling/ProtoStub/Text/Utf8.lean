/-
  UTF-8. Encoding writes each character in one to four bytes. Decoding is strict:
  overlong forms, surrogates and code points past U+10FFFF are faults. A fault
  names the number of well-formed bytes before it and the length of the longest
  prefix of the bad sequence that could still have begun a character.
-/

namespace ProtoStub.Text

/-- The bytes of a text. -/
def utf8Encode (s : String) : List UInt8 :=
  s.toList.flatMap String.utf8EncodeChar

/-- Why a sequence of bytes is not a text. -/
inductive Utf8Fault where
  /-- The bytes end inside a sequence that is well formed so far. -/
  | incomplete (index : Nat)
  /-- `length` bytes at `index` begin no character. -/
  | invalid (length index : Nat)
  deriving DecidableEq, Repr

/-- What a fault is called. -/
def Utf8Fault.message : Utf8Fault → String
  | .incomplete index => "incomplete utf-8 byte sequence from index " ++ toString index
  | .invalid length index =>
    "invalid utf-8 sequence of " ++ toString length ++ " bytes from index " ++ toString index

/-- What a leading byte asks for: the number of continuation bytes, and the range of the
first of them, which excludes overlong forms, surrogates and code points that are too
large. -/
structure Utf8Lead where
  extra : Nat
  low : UInt8
  high : UInt8

/-- What a byte from 0x80 on announces, if it can begin a character. -/
def utf8Lead? (b : UInt8) : Option Utf8Lead :=
  if b < 0xC2 then none
  else if b ≤ 0xDF then some ⟨1, 0x80, 0xBF⟩
  else if b = 0xE0 then some ⟨2, 0xA0, 0xBF⟩
  else if b = 0xED then some ⟨2, 0x80, 0x9F⟩
  else if b ≤ 0xEF then some ⟨2, 0x80, 0xBF⟩
  else if b = 0xF0 then some ⟨3, 0x90, 0xBF⟩
  else if b ≤ 0xF3 then some ⟨3, 0x80, 0xBF⟩
  else if b = 0xF4 then some ⟨3, 0x80, 0x8F⟩
  else none

/-- Whether a byte continues a character. -/
def isContinuation (b : UInt8) : Bool :=
  0x80 ≤ b && b ≤ 0xBF

/-- The six payload bits of a continuation byte. -/
def continuationBits (b : UInt8) : Nat :=
  b.toNat % 0x40

/-- The characters of a byte sequence that starts at `index`. -/
def utf8DecodeFrom (index : Nat) : List UInt8 → Except Utf8Fault (List Char)
  | [] => .ok []
  | a :: rest =>
    if a < 0x80 then (Char.ofNat a.toNat :: ·) <$> utf8DecodeFrom (index + 1) rest
    else
      match utf8Lead? a, rest with
      | none, _ => .error (.invalid 1 index)
      | some _, [] => .error (.incomplete index)
      | some lead, b :: rest =>
        if b < lead.low || lead.high < b then .error (.invalid 1 index)
        else if lead.extra = 1 then
          (Char.ofNat (a.toNat % 0x20 * 0x40 + continuationBits b) :: ·) <$>
            utf8DecodeFrom (index + 2) rest
        else
          match rest with
          | [] => .error (.incomplete index)
          | c :: rest =>
            if !isContinuation c then .error (.invalid 2 index)
            else if lead.extra = 2 then
              (Char.ofNat
                ((a.toNat % 0x10 * 0x40 + continuationBits b) * 0x40 + continuationBits c) :: ·) <$>
                utf8DecodeFrom (index + 3) rest
            else
              match rest with
              | [] => .error (.incomplete index)
              | d :: rest =>
                if !isContinuation d then .error (.invalid 3 index)
                else
                  (Char.ofNat
                    (((a.toNat % 0x08 * 0x40 + continuationBits b) * 0x40 + continuationBits c)
                      * 0x40 + continuationBits d) :: ·) <$>
                    utf8DecodeFrom (index + 4) rest

/-- The text of a byte sequence. -/
def utf8Decode (bytes : List UInt8) : Except Utf8Fault String :=
  String.ofList <$> utf8DecodeFrom 0 bytes

end ProtoStub.Text
