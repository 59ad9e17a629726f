import LiveMarkup.Decimal.Read
import LiveMarkup.Proofs.Decimal.Cells

/-!
Rounding is correct. The float made of a fraction is the one that the fraction rounds to, so a float comes
back from every decimal number in its interval.
-/

namespace LiveMarkup.Decimal

variable {x : Float} {negative : Bool} {m num den : Nat} {q : Int} {p : ℚ}

/-- An integer no further away than one half, and an even one if it is as far as that. -/
structure Rounded (n : Nat) (p : ℚ) : Prop where
  low : (n : ℚ) - 1 / 2 ≤ p
  high : p ≤ n + 1 / 2
  strict : n % 2 = 1 → (n : ℚ) - 1 / 2 < p ∧ p < n + 1 / 2

theorem rounded_of_lt {n : Nat} (hlow : (n : ℚ) - 1 / 2 < p) (hhigh : p < n + 1 / 2) :
    Rounded n p := ⟨hlow.le, hhigh.le, fun _ => ⟨hlow, hhigh⟩⟩

theorem div_eq_add_mod (hden : 0 < den) :
    (num : ℚ) / den = (num / den : Nat) + ((num % den : Nat) : ℚ) / den := by
  have hden' : (den : ℚ) ≠ 0 := Nat.cast_ne_zero.2 hden.ne'
  have hsplit : (num : ℚ) = den * (num / den : Nat) + (num % den : Nat) := by
    exact_mod_cast (Nat.div_add_mod num den).symm
  rw [div_eq_iff hden', add_mul, div_mul_cancel₀ _ hden', mul_comm]
  exact hsplit

theorem two_mul_lt_iff (hden : 0 < den) (r : Nat) : 2 * r < den ↔ (r : ℚ) / den < 1 / 2 := by
  rw [div_lt_iff₀ (Nat.cast_pos.2 hden), ← mul_lt_mul_iff_right₀ (two_pos (α := ℚ)), ← mul_assoc]
  norm_num
  exact_mod_cast Iff.rfl

theorem lt_two_mul_iff (hden : 0 < den) (r : Nat) : den < 2 * r ↔ 1 / 2 < (r : ℚ) / den := by
  rw [lt_div_iff₀ (Nat.cast_pos.2 hden), ← mul_lt_mul_iff_right₀ (two_pos (α := ℚ)), ← mul_assoc]
  norm_num
  exact_mod_cast Iff.rfl

theorem rounded_roundHalfEven (hden : 0 < den) : Rounded (roundHalfEven num den) (num / den) := by
  have hlt : ((num % den : Nat) : ℚ) / den < 1 := by
    rw [div_lt_one (Nat.cast_pos.2 hden)]
    exact_mod_cast Nat.mod_lt num hden
  have hpos : (0 : ℚ) ≤ ((num % den : Nat) : ℚ) / den := by positivity
  have hless := two_mul_lt_iff hden (num % den)
  have hmore := lt_two_mul_iff hden (num % den)
  rw [div_eq_add_mod hden]
  unfold roundHalfEven
  dsimp only
  generalize num / den = n
  generalize ((num % den : Nat) : ℚ) / den = t at hlt hpos hless hmore ⊢
  split
  · next h =>
    have h := hless.1 h
    apply rounded_of_lt <;> linarith
  · next hge =>
    have hge := not_lt.1 (hless.not.1 hge)
    split
    · next h =>
      have h := hmore.1 h
      apply rounded_of_lt <;> push_cast <;> linarith
    · next hle =>
      have htie : t = 1 / 2 := le_antisymm (not_lt.1 (hmore.not.1 hle)) hge
      split
      · next heven => exact ⟨by linarith, by linarith, fun hodd => by omega⟩
      · next hodd =>
        refine ⟨?_, ?_, fun hodd' => by omega⟩ <;> push_cast <;> linarith

theorem Rounded.le_of_le {n k : Nat} (h : Rounded n p) (hk : (k : ℚ) ≤ p) : k ≤ n := by
  refine Nat.le_of_not_lt fun hlt => ?_
  have hcast : (n : ℚ) + 1 ≤ k := by exact_mod_cast hlt
  have hhigh := h.high
  linarith

theorem Rounded.le_of_lt {n k : Nat} (h : Rounded n p) (hk : p < k) : n ≤ k := by
  refine Nat.le_of_not_lt fun hlt => ?_
  have hcast : (k : ℚ) + 1 ≤ n := by exact_mod_cast hlt
  have hlow := h.low
  linarith

theorem log2_bounds (h : 0 < num) :
    (2 : ℚ) ^ (num.log2 : Int) ≤ num ∧ (num : ℚ) < 2 ^ (num.log2 + 1 : Int) := by
  have hlow := Nat.log2_self_le h.ne'
  have hhigh := Nat.lt_log2_self (n := num)
  refine ⟨?_, ?_⟩
  · rw [zpow_natCast]
    exact_mod_cast hlow
  · rw [← Nat.cast_succ, zpow_natCast]
    exact_mod_cast hhigh

theorem log2_quotient_bounds (hnum : 0 < num) (hden : 0 < den) :
    (2 : ℚ) ^ ((num.log2 : Int) - den.log2 - 1) ≤ num / den ∧
      (num / den : ℚ) < 2 ^ ((num.log2 : Int) - den.log2 + 1) := by
  have hden' : (0 : ℚ) < den := Nat.cast_pos.2 hden
  obtain ⟨hnlow, hnhigh⟩ := log2_bounds hnum
  obtain ⟨hdlow, hdhigh⟩ := log2_bounds hden
  rw [le_div_iff₀ hden', div_lt_iff₀ hden']
  constructor
  · calc (2 : ℚ) ^ ((num.log2 : Int) - den.log2 - 1) * den
        ≤ 2 ^ ((num.log2 : Int) - den.log2 - 1) * 2 ^ (den.log2 + 1 : Int) := by gcongr
      _ = 2 ^ (num.log2 : Int) := by
        rw [← zpow_add₀ two_ne_zero]
        congr 1
        ring
      _ ≤ num := hnlow
  · calc (num : ℚ) < 2 ^ (num.log2 + 1 : Int) := hnhigh
      _ = 2 ^ ((num.log2 : Int) - den.log2 + 1) * 2 ^ (den.log2 : Int) := by
        rw [← zpow_add₀ two_ne_zero]
        congr 1
        ring
      _ ≤ 2 ^ ((num.log2 : Int) - den.log2 + 1) * den := by gcongr

theorem two_zpow_le_iff (hden : 0 < den) (k : Int) :
    (if 0 ≤ k then den * pow2 k.toNat ≤ num else den ≤ num * pow2 (-k).toNat) ↔
      (2 : ℚ) ^ k ≤ num / den := by
  rw [zpow_eq_div, ← cast_pow2, ← cast_pow2, div_le_div_iff_nat (pow2_pos _) hden]
  split
  · next h =>
    have hzero : (-k).toNat = 0 := by omega
    rw [hzero, mul_comm den]
    exact iff_of_eq (congrArg _ (Nat.mul_one num).symm)
  · next h =>
    have hzero : k.toNat = 0 := by omega
    rw [hzero]
    exact iff_of_eq (congrArg (· ≤ _) (Nat.one_mul den).symm)

theorem floorLog2_bounds (hnum : 0 < num) (hden : 0 < den) :
    (2 : ℚ) ^ floorLog2 num den ≤ num / den ∧
      (num / den : ℚ) < 2 ^ (floorLog2 num den + 1) := by
  obtain ⟨hlower, hupper⟩ := log2_quotient_bounds hnum hden
  unfold floorLog2
  dsimp only
  generalize (num.log2 : Int) - den.log2 = k at hupper hlower ⊢
  by_cases h : (2 : ℚ) ^ k ≤ num / den
  · rw [if_pos ((two_zpow_le_iff hden k).2 h)]
    exact ⟨h, hupper⟩
  · rw [if_neg fun hle => h ((two_zpow_le_iff hden k).1 hle), sub_add_cancel]
    exact ⟨hlower, not_le.1 h⟩

/-- What a fraction is divided by before it is rounded: a mantissa of at most 53 binary digits is left. -/
def step (num den : Nat) : Int := max (floorLog2 num den - 52) (-1074)

def mantissa (num den : Nat) : Nat :=
  if 0 ≤ step num den then roundHalfEven num (den * pow2 (step num den).toNat)
  else roundHalfEven (num * pow2 (-step num den).toNat) den

theorem rounded_mantissa (hden : 0 < den) :
    Rounded (mantissa num den) (num / den / 2 ^ step num den) := by
  have hscaled : (num / den / 2 ^ step num den : ℚ) =
      ((num * pow2 (-step num den).toNat : Nat) : ℚ) / (den * pow2 (step num den).toNat : Nat) := by
    rw [zpow_eq_div, Nat.cast_mul, Nat.cast_mul, cast_pow2, cast_pow2]
    field_simp
  rw [hscaled, mantissa]
  split
  · next h =>
    have hzero : (-step num den).toNat = 0 := by omega
    have hone : num * pow2 (-step num den).toNat = num := by rw [hzero]; exact Nat.mul_one num
    rw [hone]
    exact rounded_roundHalfEven (Nat.mul_pos hden (pow2_pos _))
  · next h =>
    have hzero : (step num den).toNat = 0 := by omega
    have hone : den * pow2 (step num den).toNat = den := by rw [hzero]; exact Nat.mul_one den
    rw [hone]
    exact rounded_roundHalfEven hden

theorem scaled_lt (hnum : 0 < num) (hden : 0 < den) :
    (num / den / 2 ^ step num den : ℚ) < 2 ^ (53 : Int) := by
  rw [div_lt_iff₀ (two_zpow_pos _), ← zpow_add₀ two_ne_zero]
  refine (floorLog2_bounds hnum hden).2.trans_le (zpow_le_zpow_right₀ one_le_two ?_)
  unfold step
  omega

theorem le_scaled (hnum : 0 < num) (hden : 0 < den) (hstep : -1074 < step num den) :
    (2 : ℚ) ^ (52 : Int) ≤ num / den / 2 ^ step num den := by
  rw [le_div_iff₀ (two_zpow_pos _), ← zpow_add₀ two_ne_zero]
  refine (zpow_le_zpow_right₀ one_le_two ?_).trans (floorLog2_bounds hnum hden).1
  unfold step at hstep ⊢
  omega

theorem roundsTo_of_rounded (h : Rounded m p) (hlow : m = pow2 52 → -1074 < q → (m : ℚ) ≤ p) :
    RoundsTo m q (p * 2 ^ q) := by
  have hs := two_zpow_pos (q - 2)
  have hend : (4 * m - below m q : ℚ) ≤ 4 * p := by
    unfold below
    split
    · next hpower =>
      have hle := hlow hpower.1 hpower.2
      push_cast
      linarith
    · have hle := h.low
      push_cast
      linarith
  have hhigh := h.high
  rw [value_eq_quarters]
  refine ⟨mul_le_mul_of_nonneg_right hend hs.le, ?_, fun hodd => ⟨?_, ?_⟩⟩
  · exact mul_le_mul_of_nonneg_right (by linarith) hs.le
  · have hbelow : below m q = 2 := if_neg fun hpower => by
      rw [hpower.1, pow2_fifty_two] at hodd
      omega
    have hlt := (h.strict hodd).1
    rw [lowEnd, hbelow]
    refine mul_lt_mul_of_pos_right ?_ hs
    push_cast
    linarith
  · have hlt := (h.strict hodd).2
    exact mul_lt_mul_of_pos_right (by linarith) hs

theorem roundsTo_of_carry (h : Rounded (pow2 53) p) (hlt : p < 2 ^ (53 : Int)) (hq : -1074 ≤ q) :
    RoundsTo (pow2 52) (q + 1) (p * 2 ^ q) := by
  have hs := two_zpow_pos (q - 2)
  have hlow := h.low
  have hbelow : below (pow2 52) (q + 1) = 1 := if_pos ⟨rfl, by omega⟩
  have hstep : (2 : ℚ) ^ (q + 1 - 2) = 2 * 2 ^ (q - 2) := by
    rw [← zpow_one_add₀ two_ne_zero]
    congr 1
    ring
  rw [pow2_fifty_three] at hlow
  rw [value_eq_quarters]
  refine ⟨?_, ?_, fun hodd => ?_⟩
  · rw [lowEnd, hbelow, hstep, pow2_fifty_two, ← mul_assoc]
    refine mul_le_mul_of_nonneg_right ?_ hs.le
    push_cast at hlow ⊢
    linarith
  · rw [highEnd, hstep, pow2_fifty_two, ← mul_assoc]
    refine mul_le_mul_of_nonneg_right ?_ hs.le
    norm_num at hlt ⊢
    linarith
  · rw [pow2_fifty_two] at hodd
    omega

theorem exists_roundsTo (hnum : 0 < num) (hden : 0 < den) :
    ∃ m q, Fits m q ∧ RoundsTo m q (num / den) ∧
      (step num den + 1074).toNat * pow2 52 + mantissa num den = (q + 1074).toNat * pow2 52 + m := by
  have hround : Rounded (mantissa num den) _ := rounded_mantissa hden
  have hlt := scaled_lt hnum hden
  have hle := le_scaled hnum hden
  have hleast : -1074 ≤ step num den := le_max_right _ _
  have hvalue : (num / den : ℚ) = num / den / 2 ^ step num den * 2 ^ step num den :=
    (div_mul_cancel₀ _ (two_zpow_pos _).ne').symm
  have hwide : mantissa num den ≤ pow2 53 := by
    refine hround.le_of_lt ?_
    rw [pow2_fifty_three]
    norm_num at hlt ⊢
    exact hlt
  have hnormal : -1074 < step num den → pow2 52 ≤ mantissa num den := fun hstep => by
    refine hround.le_of_le ?_
    have hle := hle hstep
    rw [pow2_fifty_two]
    norm_num at hle ⊢
    exact hle
  rw [hvalue]
  generalize mantissa num den = n at hround hwide hnormal ⊢
  generalize step num den = q at hround hlt hle hleast hnormal ⊢
  generalize (num : ℚ) / den / 2 ^ q = t at hround hlt hle ⊢
  by_cases hn : n = pow2 53
  · subst hn
    refine ⟨pow2 52, q + 1, ⟨by omega, by decide, fun _ => Nat.le_refl _⟩,
      roundsTo_of_carry hround hlt hleast, ?_⟩
    have hnext : (q + 1 + 1074).toNat = (q + 1074).toNat + 1 := by omega
    rw [hnext, pow2_fifty_two, pow2_fifty_three]
    omega
  · refine ⟨n, q, ⟨hleast, lt_of_le_of_ne hwide hn, hnormal⟩, ?_, rfl⟩
    refine roundsTo_of_rounded hround fun hpower hq => ?_
    have hle := hle hq
    rw [hpower, pow2_fifty_two]
    norm_num at hle ⊢
    exact hle

theorem exponent_le_of_decode (h : decode x = .finite negative m q) : q ≤ 971 := by
  unfold decode at h
  dsimp only at h
  split at h
  · split at h <;> cases h
  · next hinfinite =>
    split at h
    · cases h
      decide
    · cases h
      have hlt : x.toBits.toNat / pow2 52 % pow2 11 < pow2 11 := Nat.mod_lt _ (pow2_pos 11)
      rw [pow2_eleven] at hlt hinfinite ⊢
      omega

theorem fits_zero : Fits 0 (-1074) :=
  ⟨Int.le_refl _, by decide, fun h => absurd h (Int.lt_irrefl _)⟩

theorem ofBits_bits (h : decode x ≠ .nan) : Float.ofBits (UInt64.ofNat (decode x).bits) = x := by
  rw [bits_decode h, UInt64.ofNat_toNat]
  exact Float.ofBits_toBits x

theorem nearest_eq (h : decode x = .finite negative m q) (hden : 0 < den)
    (hround : RoundsTo m q (num / den)) : nearest negative num den = x := by
  have hfits := fits_of_decode h
  have hle : (q + 1074).toNat * pow2 52 + m ≤ 2047 * pow2 52 := by
    have hnarrow := hfits.narrow
    have hexponent := exponent_le_of_decode h
    rw [pow2_fifty_three] at hnarrow
    rw [pow2_fifty_two]
    omega
  have hbits : (if num = 0 then 0 else
      min ((step num den + 1074).toNat * pow2 52 + mantissa num den) (2047 * pow2 52)) =
      (q + 1074).toNat * pow2 52 + m := by
    split
    · next hzero =>
      rw [hzero, Nat.cast_zero, zero_div] at hround
      obtain ⟨rfl, rfl⟩ := hround.unique (roundsTo_zero (-1074)) hfits fits_zero
      rfl
    · next hne =>
      obtain ⟨m', q', hfits', hround', heq⟩ := exists_roundsTo (Nat.pos_of_ne_zero hne) hden
      obtain ⟨rfl, rfl⟩ := hround.unique hround' hfits hfits'
      rw [heq, Nat.min_eq_left hle]
  have hnearest : nearest negative num den = Float.ofBits (UInt64.ofNat
      ((if num = 0 then 0 else
        min ((step num den + 1074).toNat * pow2 52 + mantissa num den) (2047 * pow2 52)) +
        signBit negative)) := rfl
  rw [hnearest, hbits, Nat.add_comm]
  have hx := ofBits_bits (x := x) (h ▸ nofun)
  rwa [h] at hx

theorem gridPoint_bounds (hm : 0 < m) (e : Int) :
    (10 : ℚ) ^ ((digitCount m : Int) + e - 1) ≤ gridPoint m e ∧
      gridPoint m e < 10 ^ ((digitCount m : Int) + e) := by
  have hten : (10 : ℚ) ≠ 0 := by norm_num
  have hs := ten_zpow_pos e
  have hcount : 0 < digitCount m := Nat.length_toDigits_pos
  have hlow : (10 : ℚ) ^ (digitCount m - 1) ≤ m := by exact_mod_cast pow_le_of_digitCount hm
  have hhigh : (m : ℚ) < 10 ^ digitCount m := by exact_mod_cast lt_pow_digitCount m
  have hexponent : (digitCount m : Int) + e - 1 = ((digitCount m - 1 : Nat) : Int) + e := by omega
  rw [hexponent, zpow_add₀ hten, zpow_add₀ hten, zpow_natCast, zpow_natCast, gridPoint]
  exact ⟨mul_le_mul_of_nonneg_right hlow hs.le, mul_lt_mul_of_pos_right hhigh hs⟩

theorem two_zpow_lt {k : Int} (hk : 0 < k) : (2 : ℚ) ^ (3 * k) < 10 ^ k := by
  rw [zpow_mul]
  exact zpow_lt_zpow_left₀ hk (by norm_num) (by norm_num)

theorem roundsTo_zero_of_small (hpos : 0 ≤ p) (hsmall : p < 10 ^ (-400 : Int)) :
    RoundsTo 0 (-1074) p := by
  have hend : (10 : ℚ) ^ (-400 : Int) ≤ highEnd 0 (-1074) :=
    calc (10 : ℚ) ^ (-400 : Int) = (10 ^ (400 : Int))⁻¹ := zpow_neg _ _
      _ ≤ (2 ^ (3 * 400 : Int))⁻¹ := inv_anti₀ (two_zpow_pos _) (two_zpow_lt (by decide)).le
      _ = 2 ^ (-(3 * 400) : Int) := (zpow_neg _ _).symm
      _ ≤ 2 ^ (1 + (-1074 - 2) : Int) := zpow_le_zpow_right₀ one_le_two (by decide)
      _ = highEnd 0 (-1074) := by
        rw [zpow_one_add₀ two_ne_zero, highEnd, Nat.cast_zero, mul_zero, zero_add]
  have hbelow : below 0 (-1074) = 2 := rfl
  refine ⟨?_, (hsmall.trans_le hend).le, fun hodd => by cases hodd⟩
  rw [lowEnd, hbelow, Nat.cast_zero, mul_zero, zero_sub, neg_mul]
  exact (neg_nonpos.2 (mul_nonneg (Nat.cast_nonneg _) (two_zpow_pos _).le)).trans hpos

theorem highEnd_lt (h : decode x = .finite negative m q) : highEnd m q < 10 ^ (400 : Int) := by
  have hnarrow : m + 1 ≤ 9007199254740992 := (fits_of_decode h).narrow
  have hmantissa : (4 * m + 2 : ℚ) ≤ 2 ^ (55 : Int) := by
    have hcast : (m + 1 : ℚ) ≤ 9007199254740992 := by exact_mod_cast hnarrow
    norm_num
    linarith
  have hexponent := exponent_le_of_decode h
  calc highEnd m q
      ≤ 2 ^ (55 : Int) * 2 ^ (q - 2) :=
        mul_le_mul_of_nonneg_right hmantissa (two_zpow_pos _).le
    _ = 2 ^ (55 + (q - 2)) := (zpow_add₀ two_ne_zero _ _).symm
    _ ≤ 2 ^ (3 * 400 : Int) := zpow_le_zpow_right₀ one_le_two (by omega)
    _ < 10 ^ (400 : Int) := two_zpow_lt (by decide)

/-- A decimal that rounds to a float is read as that float; one far away from all floats rounds to
none but zero. -/
theorem ofDecimal_eq (h : decode x = .finite negative m q) {c : Nat} {e : Int}
    (hround : RoundsTo m q (gridPoint c e)) : ofDecimal negative c e = x := by
  have hzero (hsmall : RoundsTo 0 (-1074) (gridPoint c e)) : nearest negative 0 1 = x := by
    obtain ⟨rfl, rfl⟩ := hround.unique hsmall (fits_of_decode h) fits_zero
    refine nearest_eq h Nat.one_pos ?_
    rw [Nat.cast_zero, zero_div]
    exact roundsTo_zero _
  unfold ofDecimal
  -- a name for the power keeps it from being computed
  generalize pow2 1024 = huge
  dsimp only
  split
  · next hsmall =>
    apply hzero
    rcases Nat.eq_zero_or_pos c with rfl | hc
    · rw [gridPoint, Nat.cast_zero, zero_mul]
      exact roundsTo_zero _
    · have hsize : (digitCount c : Int) + e ≤ -400 := (hsmall.resolve_left hc.ne').le
      have hlt := (gridPoint_bounds hc e).2
      refine roundsTo_zero_of_small (mul_nonneg (Nat.cast_nonneg _) (ten_zpow_pos e).le) ?_
      exact hlt.trans_le (zpow_le_zpow_right₀ (by norm_num) hsize)
  · next hlarge =>
    have hc : 0 < c := Nat.pos_of_ne_zero fun hc => hlarge (.inl hc)
    split
    · next hhuge =>
      have hsize : (400 : Int) ≤ (digitCount c : Int) + e - 1 := Int.le_sub_one_of_lt hhuge
      have hle : (10 : ℚ) ^ (400 : Int) ≤ gridPoint c e :=
        (zpow_le_zpow_right₀ (by norm_num) hsize).trans (gridPoint_bounds hc e).1
      exact absurd (hle.trans hround.high) (not_le.2 (highEnd_lt h))
    · refine nearest_eq h (pow10_pos _) ?_
      rwa [gridPoint_eq] at hround

end LiveMarkup.Decimal
