import LiveMarkup.Decimal.Shortest

/-!
Writing numbers. A layout says where plain notation ends and what is added to it; laying out does
not change the number that digits and exponent denote.
-/

namespace LiveMarkup.Decimal

structure Layout where
  least : Int
  most : Int
  fraction : Bool
  signedZero : Bool
  tie : Tie
  deriving Repr

def Layout.display : Layout := ⟨-6, 20, false, false, .up⟩

def Layout.data : Layout := ⟨-5, 15, true, true, .even⟩

def zeros (n : Nat) : List Char := List.replicate n '0'

def natDigits (n : Nat) : List Char := Nat.toDigits 10 n

def plain (fraction : Bool) (digits : List Char) (exponent : Int) : List Char :=
  let point := exponent + 1
  if digits.length ≤ point then
    digits ++ zeros (point.toNat - digits.length) ++ if fraction then ['.', '0'] else []
  else if 0 < point then digits.take point.toNat ++ '.' :: digits.drop point.toNat
  else '0' :: '.' :: zeros (-point).toNat ++ digits

def scientific (digits : List Char) (exponent : Int) : List Char :=
  let sign := if exponent < 0 then '-' else '+'
  digits.take 1 ++ (if digits.length ≤ 1 then [] else '.' :: digits.drop 1)
    ++ 'e' :: sign :: natDigits exponent.natAbs

def Layout.write (l : Layout) (n : Scientific) : List Char :=
  if l.least ≤ n.exponent ∧ n.exponent ≤ l.most then plain l.fraction n.digits n.exponent
  else scientific n.digits n.exponent

def Layout.text (l : Layout) (x : Float) : List Char :=
  let sign (negative : Bool) := if negative then ['-'] else []
  match decode x with
  | .nan => "NaN".toList
  | .infinite negative => sign negative ++ "Infinity".toList
  | .finite negative 0 _ => sign (negative && l.signedZero) ++ l.write ⟨['0'], 0⟩
  | .finite negative (m + 1) q => sign negative ++ l.write (shortest l.tie (m + 1) q)

def display (x : Float) : String := String.ofList (Layout.display.text x)

end LiveMarkup.Decimal
