import Mathlib
import LiveMarkup.Decimal.Binary

/-!
Floats by their bits. What is decoded of a float encodes it again, and what is rounded from a fraction
without a sign is a number without one. What is known of packed floats comes with the whole library only.
-/

namespace LiveMarkup.Decimal

open Float.Model Float.Model.UnpackedFloat

variable {x y : Float} {negative : Bool} {m : Nat} {q : Int}

theorem pow2_eleven : pow2 11 = 2048 := rfl

theorem pow2_fifty_two : pow2 52 = 4503599627370496 := rfl

theorem pow2_fifty_three : pow2 53 = 9007199254740992 := rfl

theorem pow2_sixty_three : pow2 63 = 9223372036854775808 := rfl

def signBit (negative : Bool) : Nat := if negative then pow2 63 else 0

/-- The exponent field of a finite float counts from the least exponent; the leading digit of a normal
mantissa adds one to it. -/
def Decoded.bits : Decoded → Nat
  | .nan => 0
  | .infinite negative => signBit negative + 2047 * pow2 52
  | .finite negative m q => signBit negative + ((q + 1074).toNat * pow2 52 + m)

structure Fits (m : Nat) (q : Int) : Prop where
  least : -1074 ≤ q
  narrow : m < pow2 53
  normal : -1074 < q → pow2 52 ≤ m

theorem fields_eq {n : Nat} (h : n < 2 * pow2 63) :
    signBit (decide (pow2 63 ≤ n)) + (n / pow2 52 % pow2 11 * pow2 52 + n % pow2 52) = n := by
  by_cases hn : pow2 63 ≤ n
  · rw [signBit, decide_eq_true hn, if_pos rfl]
    simp only [pow2_eleven, pow2_fifty_two, pow2_sixty_three] at h hn ⊢
    omega
  · rw [signBit, decide_eq_false hn, if_neg Bool.false_ne_true]
    simp only [pow2_eleven, pow2_fifty_two, pow2_sixty_three] at h hn ⊢
    omega

theorem bits_decode (h : decode x ≠ .nan) : (decode x).bits = x.toBits.toNat := by
  have hfields := fields_eq (n := x.toBits.toNat) x.toBits.toNat_lt
  unfold decode at h ⊢
  dsimp only at h ⊢
  split
  · next hexponent =>
    rw [if_pos hexponent] at h
    split
    · next hfraction =>
      rw [hexponent, hfraction] at hfields
      exact hfields
    · next hfraction =>
      rw [if_neg hfraction] at h
      exact absurd rfl h
  · split
    · next hexponent =>
      rw [hexponent] at hfields
      exact hfields
    · next hexponent =>
      obtain ⟨e, he⟩ := Nat.exists_eq_succ_of_ne_zero hexponent
      rw [he, Nat.succ_mul, Nat.add_assoc] at hfields
      rw [Decoded.bits, he]
      have hfield : (((e + 1 : Nat) : Int) - 1075 + 1074).toNat = e := by omega
      rw [hfield]
      exact hfields

theorem fits_of_decode (h : decode x = .finite negative m q) : Fits m q := by
  unfold decode at h
  dsimp only at h
  split at h
  · split at h <;> cases h
  · split at h
    · cases h
      refine ⟨Int.le_refl _, ?_, fun h => absurd h (Int.lt_irrefl _)⟩
      simp only [pow2_fifty_two, pow2_fifty_three]
      omega
    · cases h
      refine ⟨?_, ?_, fun _ => Nat.le_add_right _ _⟩
      · omega
      · simp only [pow2_fifty_two, pow2_fifty_three]
        omega

theorem eq_of_decode (h : decode x = decode y) (hnan : decode x ≠ .nan) : x = y := by
  refine Float.toBits_inj.1 (UInt64.toNat_inj.1 ?_)
  rw [← bits_decode hnan, ← bits_decode (h ▸ hnan), h]

def Decoded.Unsigned : Decoded → Prop
  | .nan => False
  | .infinite negative => negative = false
  | .finite negative _ _ => negative = false

theorem Decoded.Unsigned.ne_nan {d : Decoded} (h : d.Unsigned) : d ≠ .nan := by
  rintro rfl
  exact h

theorem Decoded.Unsigned.cases {d : Decoded} (h : d.Unsigned) :
    d = .infinite false ∨ ∃ m q, d = .finite false m q := by
  cases d with
  | nan => exact h.elim
  | infinite negative =>
    cases h
    exact .inl rfl
  | finite negative m q =>
    cases h
    exact .inr ⟨m, q, rfl⟩

theorem unsigned_decode (h : x.toBits.toNat ≤ 2047 * pow2 52) : (decode x).Unsigned := by
  have hsign : decide (pow2 63 ≤ x.toBits.toNat) = false := by
    simp only [pow2_fifty_two, pow2_sixty_three] at h ⊢
    exact decide_eq_false (by omega)
  unfold decode
  dsimp only
  split
  · next hexponent =>
    have hfraction : x.toBits.toNat % pow2 52 = 0 := by
      simp only [pow2_eleven, pow2_fifty_two] at h hexponent ⊢
      omega
    rw [if_pos hfraction, hsign]
    rfl
  · split <;> exact hsign

theorem toBits_ofBits {b : UInt64} (h : b.toNat ≤ 2047 * pow2 52) : (Float.ofBits b).toBits = b := by
  have hnan : ¬@isNaNBits Format.binary64 b.toBitVec = true := fun hnan => by
    obtain ⟨hones, hmantissa⟩ := of_decide_eq_true hnan
    refine hmantissa (BitVec.eq_of_toNat_eq ?_)
    replace hones := congrArg BitVec.toNat hones
    rw [unpackExponent_def, BitVec.extractLsb'_toNat, Nat.shiftRight_eq_div_pow] at hones
    rw [unpackMantissa_def, BitVec.extractLsb'_toNat, Nat.shiftRight_zero]
    have hfield : b.toNat / 4503599627370496 % 2048 = 2047 := hones
    have hzero : b.toNat % 4503599627370496 = 0 := by
      rw [pow2_fifty_two] at h
      omega
    exact hzero
  exact UInt64.toBitVec_inj.1 ((pack_unpack _).trans (if_neg hnan))

theorem unsigned_ofBits {n : Nat} (h : n ≤ 2047 * pow2 52) :
    (decode (Float.ofBits (UInt64.ofNat n))).Unsigned := by
  have hbits : (UInt64.ofNat n).toNat ≤ 2047 * pow2 52 := Nat.le_trans (Nat.mod_le _ _) h
  refine unsigned_decode ?_
  rw [toBits_ofBits hbits]
  exact hbits

theorem unsigned_nearest (num den : Nat) : (decode (nearest false num den)).Unsigned := by
  refine unsigned_ofBits ?_
  rw [if_neg Bool.false_ne_true, Nat.add_zero]
  split
  · exact Nat.zero_le _
  · exact Nat.min_le_right _ _

end LiveMarkup.Decimal
