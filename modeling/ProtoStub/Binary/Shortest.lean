import ProtoStub.Binary.Number

/-
  The fewest decimal digits that read back. Every magnitude stands for an interval of
  reals that round to it; of the decimals with the fewest digits in that interval the
  nearest one is taken. Candidates with a given number of digits are the two neighbours
  of the value on the decimal grid of that size.
-/

namespace ProtoStub.Binary

/-- Which neighbour is taken when two are equally near. -/
inductive Tie where
  | toEven
  | up
  deriving DecidableEq, Repr

/-- A positive decimal `digits * 10 ^ exponent`. -/
structure Decimal where
  digits : Nat
  exponent : Int
  deriving DecidableEq, Repr

/-- The reals that round to a magnitude, in quarters of its last place: from `low` to `high`
around `value`, with the ends included if `closed`. All three are multiplied by
`2 ^ exponent`. -/
structure Interval where
  low : Nat
  value : Nat
  high : Nat
  exponent : Int
  closed : Bool
  deriving DecidableEq, Repr

/-- The interval of a positive magnitude. Below a power of two the neighbours are twice as
close, except among the smallest magnitudes. -/
def Format.interval (f : Format) (bits : Nat) : Interval :=
  let (m, e) := f.split bits
  let narrow : Bool := m = Nat.pow 2 (f.precision - 1) && f.minExponent < e
  { low := 4 * m - (if narrow then 1 else 2)
    value := 4 * m
    high := 4 * m + 2
    exponent := e - 2
    closed := m % 2 = 0 }

/-- A numerator and a denominator of `n * 2 ^ e / 10 ^ k`. -/
def onGrid (n : Nat) (e k : Int) : Nat × Nat :=
  let (num, den) := scaleRatio n 1 e
  if 0 ≤ k then (num, den * Nat.pow 10 k.toNat) else (num * Nat.pow 10 (-k).toNat, den)

/-- Whether the grid point `d * 10 ^ k` lies in an interval. -/
def Interval.holds (i : Interval) (d : Nat) (k : Int) : Bool :=
  let (low, den) := onGrid i.low i.exponent k
  let (high, _) := onGrid i.high i.exponent k
  if i.closed then low ≤ d * den && d * den ≤ high else low < d * den && d * den < high

/-- The neighbour of the value on the grid of `10 ^ k` that lies in the interval, the nearer
one if both do. -/
def Interval.nearest? (i : Interval) (tie : Tie) (k : Int) : Option Nat :=
  let (num, den) := onGrid i.value i.exponent k
  let below := num / den
  match i.holds below k && 0 < below, i.holds (below + 1) k with
  | true, false => some below
  | false, true => some (below + 1)
  | false, false => none
  | true, true =>
    let twice := 2 * (num % den)
    if twice < den then some below
    else if den < twice then some (below + 1)
    else
      match tie with
      | .up => some (below + 1)
      | .toEven => some (below + below % 2)

/-- The exponent of the first digit of a positive `n * 2 ^ e`: the largest `k` with
`10 ^ k` at most the value. The search starts from an estimate that is at most one off. -/
def leadingExponent (n : Nat) (e : Int) : Int :=
  let log := (Nat.log2 n : Int) + e
  let guess := (log * 30103).fdiv 100000
  let reaches (k : Int) : Bool :=
    let (num, den) := onGrid n e k
    den ≤ num
  if reaches (guess + 1) then guess + 1
  else if reaches guess then guess
  else guess - 1

/-- Tries the grids of `10 ^ k`, `10 ^ (k - 1)`, …, as many as `count`. -/
def Interval.search (i : Interval) (tie : Tie) : (count : Nat) → (k : Int) → Option Decimal
  | 0, _ => none
  | count + 1, k =>
    match i.nearest? tie k with
    | some d => some ⟨d, k⟩
    | none => i.search tie count (k - 1)

/-- The shortest decimal of a positive magnitude; seventeen digits always suffice. -/
def Format.shortest (f : Format) (tie : Tie) (bits : Nat) : Decimal :=
  let i := f.interval bits
  let k := leadingExponent i.value i.exponent
  (i.search tie 18 (k + 1)).getD ⟨0, 0⟩

end ProtoStub.Binary
