import LiveMarkup.Decimal.Shortest
import LiveMarkup.Proofs.Decimal.Bits

/-!
The rationals that round to a float. No two floats share one, and the digits chosen for a float denote
one of its own.
-/

namespace LiveMarkup.Decimal

variable {m m' : Nat} {q q' : Int} {p : ℚ}

theorem cast_pow2 (n : Nat) : (pow2 n : ℚ) = 2 ^ n := Nat.cast_pow 2 n

theorem cast_pow10 (n : Nat) : (pow10 n : ℚ) = 10 ^ n := Nat.cast_pow 10 n

theorem zpow_eq_div (a : ℚ) (z : Int) : a ^ z = a ^ z.toNat / a ^ (-z).toNat := by
  obtain ⟨n, rfl | rfl⟩ := z.eq_nat_or_neg
  · simp
  · simp

/-- How far it is to the middle between a float and the one below it, in quarters of the step above. -/
def below (m : Nat) (q : Int) : Nat := if m = pow2 52 ∧ -1074 < q then 1 else 2

def lowEnd (m : Nat) (q : Int) : ℚ := (4 * m - below m q) * 2 ^ (q - 2)

def highEnd (m : Nat) (q : Int) : ℚ := (4 * m + 2) * 2 ^ (q - 2)

/-- What rounds to `m * 2 ^ q`; the ends of the interval do if `m` is even. -/
structure RoundsTo (m : Nat) (q : Int) (p : ℚ) : Prop where
  low : lowEnd m q ≤ p
  high : p ≤ highEnd m q
  strict : m % 2 = 1 → lowEnd m q < p ∧ p < highEnd m q

theorem two_zpow_pos (z : Int) : (0 : ℚ) < 2 ^ z := zpow_pos two_pos z

theorem roundsTo_zero (q : Int) : RoundsTo 0 q 0 where
  low := by
    rw [lowEnd, Nat.cast_zero, mul_zero, zero_sub, neg_mul, neg_nonpos]
    exact mul_nonneg (Nat.cast_nonneg _) (two_zpow_pos _).le
  high := by
    rw [highEnd, Nat.cast_zero, mul_zero, zero_add]
    exact mul_nonneg zero_le_two (two_zpow_pos _).le
  strict hodd := by cases hodd

/-- The intervals of two floats do not overlap, and where they touch one of them is open. -/
def Apart (m : Nat) (q : Int) (m' : Nat) (q' : Int) : Prop :=
  highEnd m q ≤ lowEnd m' q' ∧ (highEnd m q = lowEnd m' q' → m % 2 = 1 ∨ m' % 2 = 1)

theorem apart_of_lt (hm : Fits m q) (hlt : m < m') : Apart m q m' q := by
  have hs := two_zpow_pos (q - 2)
  have hbelow : below m' q = 2 := if_neg fun ⟨heq, hq⟩ => Nat.not_le.2 hlt (heq ▸ hm.normal hq)
  have hle : (4 * m + 2 : ℚ) ≤ 4 * m' - 2 := by
    have hcast : (m + 1 : ℚ) ≤ m' := by exact_mod_cast hlt
    linarith
  rw [Apart, highEnd, lowEnd, hbelow]
  refine ⟨mul_le_mul_of_nonneg_right (by exact_mod_cast hle) hs.le, fun heq => ?_⟩
  have hquarters := mul_right_cancel₀ hs.ne' heq
  have hnext : m' = m + 1 := by
    have hcast : (m' : ℚ) = m + 1 := by
      push_cast at hquarters
      linarith
    exact_mod_cast hcast
  omega

theorem apart_of_exponent_lt (hm : Fits m q) (hm' : Fits m' q') (hlt : q < q') : Apart m q m' q' := by
  have hs := two_zpow_pos (q - 2)
  have hstep : 2 * (2 : ℚ) ^ (q - 2) ≤ 2 ^ (q' - 2) := by
    rw [← zpow_one_add₀ two_ne_zero]
    exact zpow_le_zpow_right₀ one_le_two (by omega)
  have hnarrow : m + 1 ≤ 9007199254740992 := hm.narrow
  have hnormal : 4503599627370496 ≤ m' := hm'.normal (Int.lt_of_le_of_lt hm.least hlt)
  have hquarters : (18014398509481983 : ℚ) ≤ 4 * m' - below m' q' := by
    unfold below
    rw [pow2_fifty_two]
    split
    · next h =>
      rw [h.1]
      norm_num
    · next h =>
      have hcast : (4503599627370496 : ℚ) + 1 ≤ m' := by
        have hlt : 4503599627370496 < m' :=
          lt_of_le_of_ne hnormal fun heq => h ⟨heq.symm, Int.lt_of_le_of_lt hm.least hlt⟩
        exact_mod_cast hlt
      push_cast
      linarith
  have hlow : 36028797018963966 * (2 : ℚ) ^ (q - 2) ≤ lowEnd m' q' :=
    calc 36028797018963966 * (2 : ℚ) ^ (q - 2)
        = 18014398509481983 * (2 * 2 ^ (q - 2)) := by ring
      _ ≤ (4 * m' - below m' q') * 2 ^ (q' - 2) := by gcongr
  have hhigh : (4 * m + 2 : ℚ) ≤ 36028797018963966 := by
    have hcast : (m + 1 : ℚ) ≤ 9007199254740992 := by exact_mod_cast hnarrow
    linarith
  have hle := mul_le_mul_of_nonneg_right hhigh hs.le
  refine ⟨hle.trans hlow, fun heq => .inl ?_⟩
  have hquarters := mul_right_cancel₀ hs.ne' (le_antisymm hle (hlow.trans_eq heq.symm))
  have hwidest : m = 9007199254740991 := by
    have hcast : (m : ℚ) = 9007199254740991 := by linarith
    exact_mod_cast hcast
  rw [hwidest]

theorem RoundsTo.not_apart (h : RoundsTo m q p) (h' : RoundsTo m' q' p) : ¬Apart m q m' q' := by
  rintro ⟨hle, hodd⟩
  have heq : highEnd m q = lowEnd m' q' := le_antisymm hle (h'.low.trans h.high)
  rcases hodd heq with hodd | hodd
  · exact absurd (h.strict hodd).2 (not_lt.2 (heq ▸ h'.low))
  · exact absurd (h'.strict hodd).1 (not_lt.2 (heq ▸ h.high))

theorem RoundsTo.unique (h : RoundsTo m q p) (h' : RoundsTo m' q' p) (hm : Fits m q)
    (hm' : Fits m' q') : m = m' ∧ q = q' := by
  rcases lt_trichotomy q q' with hq | rfl | hq
  · exact absurd (apart_of_exponent_lt hm hm' hq) (h.not_apart h')
  · rcases lt_trichotomy m m' with hlt | rfl | hlt
    · exact absurd (apart_of_lt hm hlt) (h.not_apart h')
    · exact ⟨rfl, rfl⟩
    · exact absurd (apart_of_lt hm' hlt) (h'.not_apart h)
  · exact absurd (apart_of_exponent_lt hm' hm hq) (h'.not_apart h)

theorem below_le (m : Nat) (q : Int) : below m q ≤ 2 := by
  unfold below
  split <;> decide

theorem pow2_pos (n : Nat) : 0 < pow2 n := Nat.pow_pos two_pos

theorem pow10_pos (n : Nat) : 0 < pow10 n := Nat.pow_pos (by decide)

theorem div_le_div_iff_nat {a b c d : Nat} (hb : 0 < b) (hd : 0 < d) :
    (a / b : ℚ) ≤ c / d ↔ a * d ≤ c * b := by
  rw [div_le_div_iff₀ (Nat.cast_pos.2 hb) (Nat.cast_pos.2 hd)]
  exact_mod_cast Iff.rfl

theorem div_lt_div_iff_nat {a b c d : Nat} (hb : 0 < b) (hd : 0 < d) :
    (a / b : ℚ) < c / d ↔ a * d < c * b := by
  rw [div_lt_div_iff₀ (Nat.cast_pos.2 hb) (Nat.cast_pos.2 hd)]
  exact_mod_cast Iff.rfl

theorem scale_eq (q : Int) : (2 : ℚ) ^ (q - 2) = pow2 (q - 2).toNat / pow2 (2 - q).toNat := by
  rw [zpow_eq_div, neg_sub, cast_pow2, cast_pow2]

theorem lowEnd_eq (hm : 0 < m) (q : Int) :
    lowEnd m q = ((Cell.of m q).low : ℚ) / (Cell.of m q).den := by
  have hle : below m q ≤ 4 * m := (below_le m q).trans (by omega)
  have hlow : (Cell.of m q).low = (4 * m - below m q) * pow2 (q - 2).toNat := rfl
  have hden : (Cell.of m q).den = pow2 (2 - q).toNat := rfl
  rw [lowEnd, scale_eq, hlow, hden, Nat.cast_mul, Nat.cast_sub hle, mul_div_assoc]
  norm_num

theorem highEnd_eq (m : Nat) (q : Int) :
    highEnd m q = ((Cell.of m q).high : ℚ) / (Cell.of m q).den := by
  have hhigh : (Cell.of m q).high = (4 * m + 2) * pow2 (q - 2).toNat := rfl
  have hden : (Cell.of m q).den = pow2 (2 - q).toNat := rfl
  rw [highEnd, scale_eq, hhigh, hden, Nat.cast_mul, mul_div_assoc]
  norm_num

theorem value_eq_quarters (p : ℚ) (q : Int) : p * 2 ^ q = 4 * p * 2 ^ (q - 2) := by
  rw [zpow_sub₀ two_ne_zero]
  norm_num
  ring

theorem value_eq (m : Nat) (q : Int) :
    (m : ℚ) * 2 ^ q = ((Cell.of m q).value : ℚ) / (Cell.of m q).den := by
  have hvalue : (Cell.of m q).value = 4 * m * pow2 (q - 2).toNat := rfl
  have hden : (Cell.of m q).den = pow2 (2 - q).toNat := rfl
  rw [value_eq_quarters, scale_eq, hvalue, hden, Nat.cast_mul, mul_div_assoc]
  norm_num

theorem holds_iff {num den : Nat} (hm : 0 < m) (hden : 0 < den) :
    (Cell.of m q).holds num den = true ↔ RoundsTo m q (num / den) := by
  have hcell : 0 < (Cell.of m q).den := pow2_pos _
  have hclosed : (Cell.of m q).closed = decide (m % 2 = 0) := rfl
  have hle : lowEnd m q ≤ num / den ↔ (Cell.of m q).low * den ≤ num * (Cell.of m q).den := by
    rw [lowEnd_eq hm, div_le_div_iff_nat hcell hden]
  have hlt : lowEnd m q < num / den ↔ (Cell.of m q).low * den < num * (Cell.of m q).den := by
    rw [lowEnd_eq hm, div_lt_div_iff_nat hcell hden]
  have hge : (num / den : ℚ) ≤ highEnd m q ↔ num * (Cell.of m q).den ≤ (Cell.of m q).high * den := by
    rw [highEnd_eq, div_le_div_iff_nat hden hcell]
  have hgt : (num / den : ℚ) < highEnd m q ↔ num * (Cell.of m q).den < (Cell.of m q).high * den := by
    rw [highEnd_eq, div_lt_div_iff_nat hden hcell]
  rw [Cell.holds, hclosed]
  by_cases heven : m % 2 = 0
  · rw [decide_eq_true heven, if_pos rfl, Bool.and_eq_true, decide_eq_true_iff, decide_eq_true_iff,
      ← hle, ← hge]
    exact ⟨fun h => ⟨h.1, h.2, fun hodd => by omega⟩, fun h => ⟨h.low, h.high⟩⟩
  · rw [decide_eq_false heven, if_neg Bool.false_ne_true, Bool.and_eq_true, decide_eq_true_iff,
      decide_eq_true_iff, ← hlt, ← hgt]
    exact ⟨fun h => ⟨h.1.le, h.2.le, fun _ => h⟩, fun h => h.strict (by omega)⟩

def gridPoint (c : Nat) (e : Int) : ℚ := c * 10 ^ e

theorem ten_zpow_pos (z : Int) : (0 : ℚ) < 10 ^ z := zpow_pos (by norm_num) z

theorem gridPoint_eq (c : Nat) (e : Int) :
    gridPoint c e = ((c * pow10 e.toNat : Nat) : ℚ) / (pow10 (-e).toNat : Nat) := by
  rw [gridPoint, zpow_eq_div, Nat.cast_mul, cast_pow10, cast_pow10, mul_div_assoc]

theorem hit_iff {c : Nat} {e : Int} (hm : 0 < m) :
    (Cell.of m q).holds (c * pow10 e.toNat) (pow10 (-e).toNat) = true ↔
      RoundsTo m q (gridPoint c e) := by
  rw [holds_iff hm (pow10_pos _), gridPoint_eq]

def Cell.floor (cell : Cell) (e : Int) : Nat :=
  cell.value * pow10 (-e).toNat / (cell.den * pow10 e.toNat)

theorem floor_bounds (m : Nat) (q e : Int) :
    gridPoint ((Cell.of m q).floor e) e ≤ m * 2 ^ q ∧
      m * 2 ^ q < gridPoint ((Cell.of m q).floor e + 1) e := by
  have hvalue : (m : ℚ) * 2 ^ q / 10 ^ e =
      (((Cell.of m q).value * pow10 (-e).toNat : Nat) : ℚ) /
        ((Cell.of m q).den * pow10 e.toNat : Nat) := by
    rw [value_eq, zpow_eq_div, Nat.cast_mul, Nat.cast_mul, cast_pow10, cast_pow10]
    field_simp
  have hfloor : (Cell.of m q).floor e = ⌊(m : ℚ) * 2 ^ q / 10 ^ e⌋₊ := by
    rw [hvalue, Nat.floor_div_eq_div]
    rfl
  have hten := ten_zpow_pos e
  have hnonneg : (0 : ℚ) ≤ m * 2 ^ q / 10 ^ e := by positivity
  rw [hfloor, gridPoint, gridPoint]
  refine ⟨(le_div_iff₀ hten).1 (Nat.floor_le hnonneg), (div_lt_iff₀ hten).1 ?_⟩
  push_cast
  exact Nat.lt_floor_add_one _

theorem onGrid_eq (cell : Cell) (tie : Tie) (e : Int) :
    ∃ lower, cell.onGrid tie e =
      if cell.holds (cell.floor e * pow10 e.toNat) (pow10 (-e).toNat) &&
          (lower || !cell.holds ((cell.floor e + 1) * pow10 e.toNat) (pow10 (-e).toNat)) then
        some (.ofGrid (cell.floor e) e)
      else if cell.holds ((cell.floor e + 1) * pow10 e.toNat) (pow10 (-e).toNat) then
        some (.ofGrid (cell.floor e + 1) e)
      else none :=
  ⟨_, rfl⟩

theorem onGrid_eq_some {tie : Tie} {e : Int} {s : Scientific} (hm : 0 < m)
    (h : (Cell.of m q).onGrid tie e = some s) :
    ∃ c, s = .ofGrid c e ∧ RoundsTo m q (gridPoint c e) := by
  obtain ⟨lower, heq⟩ := onGrid_eq (Cell.of m q) tie e
  rw [heq] at h
  split at h
  · next hfloor =>
    cases h
    exact ⟨_, rfl, (hit_iff hm).1 (Bool.and_eq_true_iff.1 hfloor).1⟩
  · split at h
    · next hceil =>
      cases h
      exact ⟨_, rfl, (hit_iff hm).1 hceil⟩
    · cases h

theorem onGrid_eq_none {tie : Tie} {e : Int} (hm : 0 < m) (h : (Cell.of m q).onGrid tie e = none) :
    ¬RoundsTo m q (gridPoint ((Cell.of m q).floor e) e) ∧
      ¬RoundsTo m q (gridPoint ((Cell.of m q).floor e + 1) e) := by
  obtain ⟨lower, heq⟩ := onGrid_eq (Cell.of m q) tie e
  rw [heq] at h
  split at h
  · cases h
  · next hfloor =>
    split at h
    · cases h
    · next hceil =>
      rw [Bool.not_eq_true] at hceil
      rw [hceil, Bool.not_false, Bool.or_true, Bool.and_true] at hfloor
      rw [← hit_iff hm, ← hit_iff hm]
      exact ⟨hfloor, by rw [hceil]; exact Bool.false_ne_true⟩

theorem lt_highEnd (m : Nat) (q : Int) : (m : ℚ) * 2 ^ q < highEnd m q := by
  rw [value_eq_quarters, highEnd]
  exact mul_lt_mul_of_pos_right (lt_add_of_pos_right _ two_pos) (two_zpow_pos _)

theorem lowEnd_lt (m : Nat) (q : Int) : lowEnd m q < (m : ℚ) * 2 ^ q := by
  rw [value_eq_quarters, lowEnd]
  refine mul_lt_mul_of_pos_right (sub_lt_self _ (Nat.cast_pos.2 ?_)) (two_zpow_pos _)
  unfold below
  split <;> decide

theorem exists_onGrid (tie : Tie) {e : Int} (hm : 0 < m)
    (hwide : (10 : ℚ) ^ e < highEnd m q - lowEnd m q) :
    ∃ s, (Cell.of m q).onGrid tie e = some s := by
  cases hgrid : (Cell.of m q).onGrid tie e with
  | some s => exact ⟨s, rfl⟩
  | none =>
    obtain ⟨hfloor, hceil⟩ := onGrid_eq_none hm hgrid
    obtain ⟨hle, hlt⟩ := floor_bounds m q e
    have hlow : gridPoint ((Cell.of m q).floor e) e ≤ lowEnd m q := by
      refine not_lt.1 fun h => hfloor ⟨h.le, hle.trans (lt_highEnd m q).le, fun _ => ⟨h, ?_⟩⟩
      exact hle.trans_lt (lt_highEnd m q)
    have hhigh : highEnd m q ≤ gridPoint ((Cell.of m q).floor e + 1) e := by
      refine not_lt.1 fun h => hceil ⟨((lowEnd_lt m q).trans hlt).le, h.le, fun _ => ⟨?_, h⟩⟩
      exact (lowEnd_lt m q).trans hlt
    have hstep : gridPoint ((Cell.of m q).floor e + 1) e =
        gridPoint ((Cell.of m q).floor e) e + 10 ^ e := by
      rw [gridPoint, gridPoint]
      push_cast
      ring
    linarith

theorem lt_pow_digitCount (n : Nat) : n < 10 ^ digitCount n :=
  (Nat.length_toDigits_le_iff (by decide) Nat.length_toDigits_pos).1 (Nat.le_refl _)

theorem pow_le_of_digitCount {n : Nat} (hn : 0 < n) : 10 ^ (digitCount n - 1) ≤ n := by
  by_cases h : digitCount n - 1 = 0
  · rw [h]
    exact hn
  · refine Nat.le_of_not_lt fun hlt => ?_
    have hle : digitCount n ≤ digitCount n - 1 :=
      (Nat.length_toDigits_le_iff (by decide) (Nat.pos_of_ne_zero h)).2 hlt
    omega

theorem magnitude_le {num den : Nat} (hnum : 0 < num) (hden : 0 < den) :
    (10 : ℚ) ^ (magnitude num den - 1) ≤ num / den := by
  have hden' : (0 : ℚ) < den := Nat.cast_pos.2 hden
  unfold magnitude
  split
  · next hle =>
    have hpos : 0 < num / den := Nat.div_pos hle hden
    have hcount : 0 < digitCount (num / den) := Nat.length_toDigits_pos
    have hexponent : (digitCount (num / den) : Int) - 1 = ((digitCount (num / den) - 1 : Nat) : Int) := by
      omega
    calc (10 : ℚ) ^ ((digitCount (num / den) : Int) - 1)
        = ((10 ^ (digitCount (num / den) - 1) : Nat) : ℚ) := by
          rw [hexponent, zpow_natCast, Nat.cast_pow, Nat.cast_ofNat]
      _ ≤ ((num / den : Nat) : ℚ) := Nat.cast_le.2 (pow_le_of_digitCount hpos)
      _ ≤ num / den := Nat.cast_div_le
  · next hlt =>
    have hsmall : den < 10 ^ digitCount (den / num) * num :=
      (Nat.div_lt_iff_lt_mul hnum).1 (lt_pow_digitCount _)
    have hexponent : 1 - (digitCount (den / num) : Int) - 1 = -(digitCount (den / num) : Int) := by omega
    rw [hexponent, zpow_neg, zpow_natCast, le_div_iff₀ hden', inv_mul_le_iff₀ (by positivity)]
    exact_mod_cast hsmall.le

theorem seventeen_digits (hm : 0 < m) (hfits : Fits m q) :
    (10 : ℚ) ^ (magnitude (Cell.of m q).value (Cell.of m q).den - 17) < highEnd m q - lowEnd m q := by
  have hvalue : 0 < (Cell.of m q).value := Nat.mul_pos (Nat.mul_pos (by decide) hm) (pow2_pos _)
  have hden : 0 < (Cell.of m q).den := pow2_pos _
  have hle := magnitude_le hvalue hden
  rw [← value_eq, value_eq_quarters] at hle
  generalize magnitude (Cell.of m q).value (Cell.of m q).den = k at hle ⊢
  have hs := two_zpow_pos (q - 2)
  have hmantissa : (4 * m : ℚ) < (2 + below m q) * 10 ^ 16 := by
    have hnarrow : m < 9007199254740992 := hfits.narrow
    unfold below
    rw [pow2_fifty_two]
    split
    · next h =>
      rw [h.1]
      norm_num
    · have hcast : (m : ℚ) < 9007199254740992 := by exact_mod_cast hnarrow
      push_cast
      linarith
  have hsplit : (10 : ℚ) ^ (k - 17) = 10 ^ (k - 1) / 10 ^ 16 := by
    have hexponent : k - 17 = k - 1 - 16 := by ring
    rw [hexponent, zpow_sub₀ (by norm_num)]
    norm_cast
  calc (10 : ℚ) ^ (k - 17) = 10 ^ (k - 1) / 10 ^ 16 := hsplit
    _ ≤ 4 * m * 2 ^ (q - 2) / 10 ^ 16 := by gcongr
    _ < (2 + below m q) * 2 ^ (q - 2) := by
      rw [div_lt_iff₀ (by positivity)]
      nlinarith
    _ = highEnd m q - lowEnd m q := by
      rw [highEnd, lowEnd]
      ring

theorem shortest_roundsTo (tie : Tie) (hm : 0 < m) (hfits : Fits m q) :
    ∃ c e, shortest tie m q = .ofGrid c e ∧ RoundsTo m q (gridPoint c e) := by
  have hwide := seventeen_digits hm hfits
  unfold shortest
  dsimp only
  generalize magnitude (Cell.of m q).value (Cell.of m q).den = k at hwide ⊢
  obtain ⟨s, hs⟩ := exists_onGrid tie hm hwide
  generalize hfound : List.findSome? _ (List.range 17) = found
  cases found with
  | none =>
    have hnone := List.findSome?_eq_none_iff.1 hfound 16 (by decide)
    cases hs.symm.trans hnone
  | some s =>
    obtain ⟨n, _, hn⟩ := List.exists_of_findSome?_eq_some hfound
    obtain ⟨c, hc, hround⟩ := onGrid_eq_some hm hn
    exact ⟨c, _, hc, hround⟩

end LiveMarkup.Decimal
