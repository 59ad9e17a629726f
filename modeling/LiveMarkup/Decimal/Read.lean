import LiveMarkup.Decimal.Binary
import LiveMarkup.Text.Cut

/-!
Reading decimal numbers, correctly rounded. The grammar is an optional sign, digits with at most
one point and at least one digit, and an optional signed exponent.
-/

namespace LiveMarkup.Decimal

open LiveMarkup.Text

def digitsValue (cs : List Char) : Nat := cs.foldl (fun n c => 10 * n + (c.toNat - '0'.toNat)) 0

/-- `± m * 10 ^ e`, rounded. Exponents that put the number far beyond the floats are settled
without computing the power. -/
def ofDecimal (negative : Bool) (m : Nat) (e : Int) : Float :=
  let size : Int := (Nat.toDigits 10 m).length + e
  if m = 0 ∨ size < -400 then nearest negative 0 1
  else if 400 < size then nearest negative (pow2 1024) 1
  else nearest negative (m * pow10 e.toNat) (pow10 (-e).toNat)

def ofDigits (cs : List Char) : Float := ofDecimal false (digitsValue cs) 0

def takeSign : List Char → Bool × List Char
  | '-' :: cs => (true, cs)
  | '+' :: cs => (false, cs)
  | cs => (false, cs)

def readExponent : List Char → Option Int
  | [] => some 0
  | c :: cs =>
    let (negative, digits) := takeSign cs
    if (c = 'e' ∨ c = 'E') ∧ isInteger digits then
      some (if negative then -digitsValue digits else digitsValue digits)
    else none

def read? (cs : List Char) : Option Float :=
  let (negative, cs) := takeSign cs
  let whole := cs.takeWhile Char.isDigit
  let rest := cs.dropWhile Char.isDigit
  let (fraction, tail) :=
    match rest with
    | '.' :: rest => (rest.takeWhile Char.isDigit, rest.dropWhile Char.isDigit)
    | rest => ([], rest)
  if whole.isEmpty && fraction.isEmpty then none
  else
    (readExponent tail).map fun e =>
      ofDecimal negative (digitsValue (whole ++ fraction)) (e - fraction.length)

/-- The number a text stands for: nothing at all is zero, the infinities have names, and what is no
decimal is not a number. -/
def ofText (cs : List Char) : Float :=
  match String.ofList (trim cs) with
  | "" => nearest false 0 1
  | "Infinity" => infinity
  | "+Infinity" => infinity
  | "-Infinity" => -infinity
  | s => (read? s.toList).getD nan

end LiveMarkup.Decimal
