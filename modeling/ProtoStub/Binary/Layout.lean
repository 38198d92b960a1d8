import ProtoStub.Binary.Shortest

/-
  Decimal texts of binary numbers. A notation says which magnitudes are written out in
  full, and how the others show their exponent; an integral value keeps a zero after the
  point.
-/

namespace ProtoStub.Binary

/-- How a number is written. -/
structure Layout where
  /-- Of two shortest decimals that are equally near, which one. -/
  tie : Tie
  /-- The least and the greatest exponent of the first digit that is written in full. -/
  leastFull : Int
  greatestFull : Int
  /-- What stands before a positive exponent. -/
  plus : String
  deriving DecidableEq, Repr

/-- The decimal digits of a number, as characters. -/
def digitChars (n : Nat) : List Char := Nat.toDigits 10 n

/-- Removes the zeros at the end of the digits of a decimal. -/
def trimZeros (digits : List Char) : List Char :=
  (digits.reverse.dropWhile (· = '0')).reverse

/-- Digits with a point after the first `places` of them, and at least one digit on either
side of it. -/
def pointed (digits : List Char) (places : Int) : List Char :=
  if places ≤ 0 then '0' :: '.' :: (List.replicate (-places).toNat '0' ++ digits)
  else
    let n := places.toNat
    let whole := digits.take n ++ List.replicate (n - digits.length) '0'
    match digits.drop n with
    | [] => whole ++ ['.', '0']
    | fraction => whole ++ '.' :: fraction

/-- Digits with a point after the first one, if there are more. -/
def scientific : List Char → List Char
  | [] => []
  | [d] => [d]
  | d :: rest => d :: '.' :: rest

/-- The text of a positive decimal. -/
def Layout.write (l : Layout) (d : Decimal) : String :=
  let all := digitChars d.digits
  let first : Int := d.exponent + all.length - 1
  let digits := trimZeros all
  if l.leastFull ≤ first ∧ first ≤ l.greatestFull then
    String.ofList (pointed digits (first + 1))
  else
    String.ofList (scientific digits) ++ "e" ++
      (if first < 0 then "-" else l.plus) ++ toString first.natAbs

/-- The text of a finite number. -/
def Layout.text (l : Layout) (f : Format) (bits : Nat) : String :=
  (if f.isNegative bits then "-" else "") ++
    (if f.magnitude bits = 0 then "0.0"
      else l.write (f.shortest l.tie (f.magnitude bits)))

end ProtoStub.Binary
