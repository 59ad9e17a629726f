import LiveMarkup.Decimal.Binary

/-!
The fewest decimal digits that read back as a given float. A float stands for the reals that round
to it; on the grid of `n` digits it is enough to try the two neighbours of its value, for `n` from
one to seventeen.
-/

namespace LiveMarkup.Decimal

/-- Digits `d₁d₂…` with a decimal exponent: the number `d₁.d₂… * 10 ^ exponent`. -/
structure Scientific where
  digits : List Char
  exponent : Int
  deriving DecidableEq, Repr

inductive Tie where
  | up
  | even
  deriving DecidableEq, Repr

/-- A positive real interval and a point in it, all over one denominator. -/
structure Cell where
  low : Nat
  value : Nat
  high : Nat
  den : Nat
  closed : Bool
  deriving Repr

/-- The reals that round to `m * 2 ^ q`. Below a power of two the floats lie twice as dense. -/
def Cell.of (m : Nat) (q : Int) : Cell :=
  let below := if m = pow2 52 ∧ -1074 < q then 1 else 2
  let up := (q - 2).toNat
  { low := (4 * m - below) * pow2 up
    value := 4 * m * pow2 up
    high := (4 * m + 2) * pow2 up
    den := pow2 (2 - q).toNat
    closed := m % 2 = 0 }

def Cell.holds (cell : Cell) (num den : Nat) : Bool :=
  if cell.closed then
    cell.low * den ≤ num * cell.den && num * cell.den ≤ cell.high * den
  else
    cell.low * den < num * cell.den && num * cell.den < cell.high * den

def digitCount (n : Nat) : Nat := (Nat.toDigits 10 n).length

/-- The `k` with `10 ^ (k - 1) ≤ num / den < 10 ^ k`, for a fraction that is one or more, or no
power of ten. -/
def magnitude (num den : Nat) : Int :=
  if den ≤ num then digitCount (num / den) else 1 - (digitCount (den / num) : Int)

def Scientific.ofGrid (c : Nat) (e : Int) : Scientific :=
  let digits := Nat.toDigits 10 c
  let kept := (digits.reverse.dropWhile (· == '0')).reverse
  { digits := if kept.isEmpty then ['0'] else kept, exponent := e + digits.length - 1 }

/-- The point of the grid of step `10 ^ e` that is in the cell and nearest to its value. -/
def Cell.onGrid (cell : Cell) (tie : Tie) (e : Int) : Option Scientific :=
  let num := cell.value * pow10 (-e).toNat
  let den := cell.den * pow10 e.toNat
  let c := num / den
  let hit (n : Nat) := cell.holds (n * pow10 e.toNat) (pow10 (-e).toNat)
  let twice := 2 * (num % den)
  let lower := if twice = den then tie == .even && c % 2 == 0 else twice < den
  if hit c && (lower || !hit (c + 1)) then some (.ofGrid c e)
  else if hit (c + 1) then some (.ofGrid (c + 1) e)
  else none

def shortest (tie : Tie) (m : Nat) (q : Int) : Scientific :=
  let cell := Cell.of m q
  let k := magnitude cell.value cell.den
  let found := (List.range 17).findSome? fun (n : Nat) => cell.onGrid tie (k - (n + 1 : Int))
  found.getD (.ofGrid (roundHalfEven cell.value cell.den) 0)

end LiveMarkup.Decimal
