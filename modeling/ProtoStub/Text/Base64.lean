/-
  Base64 with the standard alphabet. Encoding pads the last group with equals
  signs; decoding insists on that padding and on unused bits being zero, and
  reports the first fault by its byte offset.
-/

namespace ProtoStub.Text

/-- The symbol of a six-bit value. -/
def base64Symbol (n : Nat) : Char :=
  if n < 26 then Char.ofNat (65 + n)
  else if n < 52 then Char.ofNat (71 + n)
  else if n < 62 then Char.ofNat (n - 4)
  else if n = 62 then '+'
  else '/'

/-- The six-bit value of a symbol, given as a byte. -/
def base64Value? (b : UInt8) : Option Nat :=
  let n := b.toNat
  if 65 ≤ n ∧ n ≤ 90 then some (n - 65)
  else if 97 ≤ n ∧ n ≤ 122 then some (n - 71)
  else if 48 ≤ n ∧ n ≤ 57 then some (n + 4)
  else if n = 43 then some 62
  else if n = 47 then some 63
  else none

/-- The symbols of a byte sequence, padded to whole groups of four. -/
def base64Chars : List UInt8 → List Char
  | [] => []
  | [a] =>
    [base64Symbol (a.toNat / 4), base64Symbol (a.toNat % 4 * 16), '=', '=']
  | [a, b] =>
    [base64Symbol (a.toNat / 4), base64Symbol (a.toNat % 4 * 16 + b.toNat / 16),
     base64Symbol (b.toNat % 16 * 4), '=']
  | a :: b :: c :: rest =>
    base64Symbol (a.toNat / 4) :: base64Symbol (a.toNat % 4 * 16 + b.toNat / 16) ::
      base64Symbol (b.toNat % 16 * 4 + c.toNat / 64) :: base64Symbol (c.toNat % 64) ::
        base64Chars rest

/-- The base64 text of a byte sequence. -/
def base64Encode (bytes : List UInt8) : String :=
  String.ofList (base64Chars bytes)

/-- Why a text is not base64. -/
inductive Base64Fault where
  /-- A byte that may not stand where it stands. -/
  | symbol (byte : UInt8) (offset : Nat)
  /-- A last group too short to hold a byte. -/
  | length (count : Nat)
  /-- A last symbol with unused bits set. -/
  | lastSymbol (byte : UInt8) (offset : Nat)
  /-- Missing or misplaced padding. -/
  | padding
  deriving DecidableEq, Repr

/-- What a fault is called. -/
def Base64Fault.message : Base64Fault → String
  | .symbol byte offset =>
    "Invalid symbol " ++ toString byte.toNat ++ ", offset " ++ toString offset ++ "."
  | .length count => "Invalid input length: " ++ toString count
  | .lastSymbol byte offset =>
    "Invalid last symbol " ++ toString byte.toNat ++ ", offset " ++ toString offset ++ "."
  | .padding => "Invalid padding"

/-- The padding byte, an equals sign. -/
def base64Pad : UInt8 := 61

/-- The values of symbols that start at `offset`; padding is no symbol. -/
def base64Values (offset : Nat) : List UInt8 → Except Base64Fault (List Nat)
  | [] => .ok []
  | b :: rest =>
    match base64Value? b with
    | none => .error (.symbol b offset)
    | some v => (v :: ·) <$> base64Values (offset + 1) rest

/-- The bytes of whole groups of four six-bit values. -/
def base64Groups : List Nat → List UInt8
  | a :: b :: c :: d :: rest =>
    UInt8.ofNat (a * 4 + b / 16) :: UInt8.ofNat (b % 16 * 16 + c / 4) ::
      UInt8.ofNat (c % 4 * 64 + d) :: base64Groups rest
  | _ => []

/-- The symbols of the last group with the values they stand for, and the number of padding
bytes after them; `index` counts within the group and `pad` is where its padding began. -/
def base64Tail (offset : Nat) (index : Nat) (pad : Option Nat) :
    List UInt8 → Except Base64Fault (List (UInt8 × Nat) × Nat)
  | [] => .ok ([], 0)
  | b :: rest =>
    if b = base64Pad then
      if index < 2 then .error (.symbol b (offset + index))
      else
        (fun r => (r.1, r.2 + 1)) <$>
          base64Tail offset (index + 1) (some (pad.getD index)) rest
    else
      match pad with
      | some first => .error (.symbol base64Pad (offset + first))
      | none =>
        match base64Value? b with
        | none => .error (.symbol b (offset + index))
        | some v =>
          (fun r => ((b, v) :: r.1, r.2)) <$> base64Tail offset (index + 1) none rest

/-- The bytes of the last group, whose symbols stand at `offset`. -/
def base64Last (offset : Nat) (symbols : List (UInt8 × Nat)) (pads : Nat) :
    Except Base64Fault (List UInt8) :=
  if (symbols.length + pads) % 4 ≠ 0 then .error .padding
  else
    match symbols with
    | [(_, a), (s, b)] =>
      if b % 16 ≠ 0 then .error (.lastSymbol s (offset + 1))
      else .ok [UInt8.ofNat (a * 4 + b / 16)]
    | [(_, a), (_, b), (s, c)] =>
      if c % 4 ≠ 0 then .error (.lastSymbol s (offset + 2))
      else .ok [UInt8.ofNat (a * 4 + b / 16), UInt8.ofNat (b % 16 * 16 + c / 4)]
    | _ => .ok (base64Groups (symbols.map (·.2)))

/-- The length of the last group of a text of `n` bytes: from one to four bytes, and none
of an empty text. -/
def base64LastLength (n : Nat) : Nat :=
  if n % 4 = 0 then min n 4 else n % 4

/-- The bytes a sequence of symbol bytes stands for. A stray byte after whole groups is
reported first, then the groups from the left, then the last one. -/
def base64DecodeBytes (bytes : List UInt8) : Except Base64Fault (List UInt8) :=
  let count := bytes.length
  let start := count - base64LastLength count
  match (if count % 4 = 1 then bytes.getLast? else none) with
  | some stray =>
    if stray ≠ base64Pad ∧ base64Value? stray = none then .error (.symbol stray (count - 1))
    else decodeGroups count start
  | none => decodeGroups count start
where
  /-- Decodes the groups before the last one, then the last one. -/
  decodeGroups (count start : Nat) : Except Base64Fault (List UInt8) := do
    let whole ← base64Values 0 (bytes.take start)
    let (symbols, pads) ← base64Tail start 0 none (bytes.drop start)
    if 0 < count ∧ symbols.length < 2 then
      throw (.length (start + symbols.length))
    let last ← base64Last start symbols pads
    return base64Groups whole ++ last

/-- The bytes a base64 text stands for. -/
def base64Decode (s : String) : Except Base64Fault (List UInt8) :=
  base64DecodeBytes (s.toList.flatMap String.utf8EncodeChar)

end ProtoStub.Text
