/-!
Binary64 numbers as exact fractions: a finite one is `± m * 2 ^ q` with `m` and `q` integers, and
every fraction has a nearest one.
-/

namespace LiveMarkup.Decimal

def pow2 (n : Nat) : Nat := Nat.pow 2 n

def pow10 (n : Nat) : Nat := Nat.pow 10 n

inductive Decoded where
  | nan
  | infinite (negative : Bool)
  | finite (negative : Bool) (m : Nat) (q : Int)
  deriving DecidableEq, Repr

def decode (x : Float) : Decoded :=
  let bits := x.toBits.toNat
  let negative := pow2 63 ≤ bits
  let exponent : Nat := bits / pow2 52 % pow2 11
  let fraction := bits % pow2 52
  if exponent = 2047 then
    if fraction = 0 then .infinite negative else .nan
  else if exponent = 0 then .finite negative fraction (-1074)
  else .finite negative (pow2 52 + fraction) ((exponent : Int) - 1075)

def integral? (x : Float) : Option Int :=
  match decode x with
  | .finite negative m q =>
    let signed (n : Nat) : Int := if negative then -n else n
    if 0 ≤ q then some (signed (m * pow2 q.toNat))
    else if m % pow2 (-q).toNat = 0 then some (signed (m / pow2 (-q).toNat))
    else none
  | _ => none

def roundHalfEven (num den : Nat) : Nat :=
  let n := num / den
  let twice := 2 * (num % den)
  if twice < den then n
  else if den < twice then n + 1
  else if n % 2 = 0 then n else n + 1

/-- Greatest `k` with `2 ^ k ≤ num / den`, for positive `num` and `den`. -/
def floorLog2 (num den : Nat) : Int :=
  let k : Int := num.log2 - den.log2
  let fits := if 0 ≤ k then den * pow2 k.toNat ≤ num else den ≤ num * pow2 (-k).toNat
  if fits then k else k - 1

/-- The float nearest to `± num / den`. A mantissa that rounds up to `2 ^ 53` carries into the
exponent field, where it belongs, and whatever passes the largest finite float is infinite. -/
def nearest (negative : Bool) (num den : Nat) : Float :=
  let magnitude :=
    if num = 0 then 0
    else
      let q := max (floorLog2 num den - 52) (-1074)
      let m := if 0 ≤ q then roundHalfEven num (den * pow2 q.toNat)
        else roundHalfEven (num * pow2 (-q).toNat) den
      min ((q + 1074).toNat * pow2 52 + m) (2047 * pow2 52)
  Float.ofBits (UInt64.ofNat (magnitude + if negative then pow2 63 else 0))

def ofInt (n : Int) : Float := nearest (decide (n < 0)) n.natAbs 1

def nan : Float := Float.ofBits 0x7FF8000000000000

def infinity : Float := Float.ofBits 0x7FF0000000000000

end LiveMarkup.Decimal
