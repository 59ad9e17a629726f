import LiveMarkup.Proofs.Decimal.Nearest
import LiveMarkup.Proofs.Decimal.Numerals
import LiveMarkup.Value

/-!
Numbers read back from their texts. The layout for display keeps the exact value of digits and exponent,
and reading what it wrote gives the number that was written.
-/

namespace LiveMarkup.Decimal

open LiveMarkup.Text

variable {cs : List Char} {x y : Float} {negative : Bool} {m : Nat} {q : Int} {p : ℚ} {n : Scientific}

def Plain (cs : List Char) : Prop :=
  ∃ whole fraction, whole ≠ [] ∧ Digits whole ∧ Digits fraction ∧
    cs = whole ++ if fraction.isEmpty then [] else '.' :: fraction

theorem Plain.not_mem (h : Plain cs) : 'e' ∉ cs := by
  obtain ⟨whole, fraction, -, hwhole, hfraction, rfl⟩ := h
  intro hmem
  rcases List.mem_append.1 hmem with hmem | hmem
  · cases hwhole _ hmem
  · split at hmem
    · cases hmem
    · rcases List.mem_cons.1 hmem with hmem | hmem
      · cases hmem
      · cases hfraction _ hmem

theorem plain_plain {digits : List Char} (hne : digits ≠ []) (h : Digits digits) (e : Int) :
    Plain (plain false digits e) := by
  have hlength : 0 < digits.length := List.length_pos_iff.2 hne
  unfold plain
  dsimp only
  split
  · refine ⟨digits ++ zeros ((e + 1).toNat - digits.length), [], by simp [hne], ?_, nofun, by simp⟩
    exact List.forall_mem_append.2 ⟨h, digits_zeros _⟩
  · next hlong =>
    split
    · next hpoint =>
      have hrest : (digits.drop (e + 1).toNat).isEmpty = false := by
        rw [List.isEmpty_eq_false_iff, ← List.length_pos_iff, List.length_drop]
        omega
      refine ⟨digits.take (e + 1).toNat, digits.drop (e + 1).toNat, ?_, ?_, ?_, by simp [hrest]⟩
      · rw [← List.length_pos_iff, List.length_take]
        omega
      · exact fun c hc => h c (List.mem_of_mem_take hc)
      · exact fun c hc => h c (List.mem_of_mem_drop hc)
    · refine ⟨['0'], zeros (-(e + 1)).toNat ++ digits, List.cons_ne_nil _ _, digits_zeros 1, ?_, ?_⟩
      · exact List.forall_mem_append.2 ⟨digits_zeros _, h⟩
      · simp [hne]

theorem scientific_cons (d : Char) (ds : List Char) (e : Int) :
    scientific (d :: ds) e = d :: ((if ds.isEmpty then [] else '.' :: ds) ++ exponentText e) := by
  cases ds <;> rfl

def signText (negative : Bool) : List Char := if negative then ['-'] else []

theorem takeSign_signText (negative : Bool) {d : Char} (hd : d.isDigit = true) (cs : List Char) :
    takeSign (signText negative ++ d :: cs) = (negative, d :: cs) := by
  cases negative with
  | true => rfl
  | false =>
    have hminus : d ≠ '-' := by
      rintro rfl
      cases hd
    have hplus : d ≠ '+' := by
      rintro rfl
      cases hd
    simp [takeSign, signText, hminus, hplus]

theorem exists_read? {d : Char} (hd : d.isDigit = true) (h : denoted (d :: cs) = some p) :
    ∃ c e, gridPoint c e = p ∧
      ∀ negative, read? (signText negative ++ d :: cs) = some (ofDecimal negative c e) := by
  have hwhole : ((d :: cs).takeWhile Char.isDigit).isEmpty = false := by
    rw [List.takeWhile_cons, hd]
    rfl
  obtain ⟨e, he, rfl⟩ := Option.map_eq_some_iff.1 h
  refine ⟨_, _, rfl, fun negative => ?_⟩
  simp only [read?, takeSign_signText _ hd, hwhole, Bool.false_and, Bool.false_eq_true, if_false]
  exact Option.map_eq_some_iff.2 ⟨e, he, rfl⟩

theorem exists_cons_write (l : Layout) (h : n.Proper) :
    ∃ d rest, l.write n = d :: rest ∧ d.isDigit = true := by
  obtain ⟨d, ds, hds⟩ := List.exists_cons_of_ne_nil h.1
  have hd : d.isDigit = true := h.2 d (hds ▸ List.mem_cons_self ..)
  unfold Layout.write
  split
  · unfold plain
    dsimp only
    split
    · exact ⟨d, _, by rw [hds]; rfl, hd⟩
    · split
      · next hpoint =>
        obtain ⟨k, hk⟩ : ∃ k, (n.exponent + 1).toNat = k + 1 := ⟨_, (Nat.succ_pred (by omega)).symm⟩
        exact ⟨d, _, by rw [hds, hk]; rfl, hd⟩
      · exact ⟨'0', _, rfl, rfl⟩
  · exact ⟨d, _, by rw [hds]; rfl, hd⟩

theorem exists_read?_write (l : Layout) (h : n.Proper) :
    ∃ c e, gridPoint c e = n.point ∧
      ∀ negative, read? (signText negative ++ l.write n) = some (ofDecimal negative c e) := by
  obtain ⟨d, rest, hwrite, hd⟩ := exists_cons_write l h
  have hdenoted := denoted_write l h
  rw [hwrite] at hdenoted ⊢
  exact exists_read? hd hdenoted

theorem not_isBlank_of_isNumeral {c : Char} (h : isNumeral c = true) : isBlank c = false := by
  rcases Bool.or_eq_true_iff.1 h with h | h
  · exact not_isBlank_of_isWordChar (isWordChar_of_isDigit h)
  · simp only [List.contains_iff_mem, String.reduceToList, List.mem_cons, List.not_mem_nil,
      or_false] at h
    apply not_isBlank_of_ascii
    rcases h with rfl | rfl | rfl | rfl | rfl | rfl | rfl | rfl | rfl | rfl | rfl <;> decide

theorem trim_of_numeral (h : ∀ c ∈ cs, isNumeral c = true) : trim cs = cs := by
  have htrimmed : Trimmed cs :=
    ⟨fun c hc => not_isBlank_of_isNumeral (h c (List.mem_of_mem_head? hc)),
      fun c hc => not_isBlank_of_isNumeral (h c (List.mem_of_getLast? hc))⟩
  simpa using trim_padded (List.forall_mem_nil _) htrimmed (List.forall_mem_nil _)

theorem ofText_of_read? (h : ∀ c ∈ cs, isNumeral c = true) (hread : read? cs = some x) :
    ofText cs = x := by
  have hnot {text : String} (hnone : read? text.toList = none) : String.ofList cs ≠ text := by
    rintro rfl
    rw [String.toList_ofList, hread] at hnone
    cases hnone
  unfold ofText
  rw [trim_of_numeral h]
  split
  · next heq => exact absurd heq (hnot rfl)
  · next heq => exact absurd heq (hnot rfl)
  · next heq => exact absurd heq (hnot rfl)
  · next heq => exact absurd heq (hnot rfl)
  · rw [String.toList_ofList, hread]
    rfl

theorem numeral_signText (negative : Bool) (h : Numeral cs) :
    ∀ c ∈ signText negative ++ cs, isNumeral c = true := by
  refine List.forall_mem_append.2 ⟨?_, h.all⟩
  cases negative with
  | true => exact List.forall_mem_singleton.2 rfl
  | false => exact List.forall_mem_nil _

theorem exists_ofText_write (l : Layout) (h : n.Proper) :
    ∃ c e, gridPoint c e = n.point ∧
      ∀ negative, read? (signText negative ++ l.write n) = some (ofDecimal negative c e) ∧
        ofText (signText negative ++ l.write n) = ofDecimal negative c e := by
  obtain ⟨c, e, hpoint, hread⟩ := exists_read?_write l h
  refine ⟨c, e, hpoint, fun negative => ⟨hread negative, ?_⟩⟩
  exact ofText_of_read? (numeral_signText negative (numeral_write l h)) (hread negative)

open Float.Model Float.Model.UnpackedFloat in
theorem isNaN_of_decode (h : decode x = .nan) : x.isNaN = true := by
  have hfields : x.toBits.toNat / pow2 52 % pow2 11 = 2047 ∧ ¬x.toBits.toNat % pow2 52 = 0 := by
    unfold decode at h
    dsimp only at h
    split at h
    · next hexponent =>
      split at h
      · cases h
      · next hfraction => exact ⟨hexponent, hfraction⟩
    · split at h <;> cases h
  have hexponent : @unpackExponent Format.binary64 x.toBits.toBitVec = -1#_ := by
    refine BitVec.eq_of_toNat_eq ?_
    rw [unpackExponent_def, BitVec.extractLsb'_toNat, Nat.shiftRight_eq_div_pow]
    exact hfields.1
  have hmantissa : @unpackMantissa Format.binary64 x.toBits.toBitVec ≠ 0#_ := fun hzero => by
    replace hzero := congrArg BitVec.toNat hzero
    rw [unpackMantissa_def, BitVec.extractLsb'_toNat, Nat.shiftRight_zero] at hzero
    exact hfields.2 hzero
  have hunpacked : UnpackedFloat.unpack Format.binary64 x.toBits.toBitVec = .notANumber := by
    unfold UnpackedFloat.unpack
    dsimp only
    rw [if_pos hexponent, if_neg hmantissa]
  exact isNaN_iff.2 hunpacked

theorem eq_infinity (h : decode x = .infinite negative) :
    x = if negative then -infinity else infinity := by
  refine eq_of_decode ?_ (h ▸ nofun)
  cases negative with
  | true => exact h.trans (by decide +kernel)
  | false => exact h.trans (by decide +kernel)

theorem eq_zero (h : decode x = .finite negative 0 q) : x = if negative then -0 else 0 := by
  have hfits := fits_of_decode h
  have hq : q = -1074 := by
    refine le_antisymm (not_lt.1 fun hq => ?_) hfits.least
    cases hfits.normal hq
  subst hq
  refine eq_of_decode ?_ (h ▸ nofun)
  cases negative with
  | true => exact h.trans (by decide +kernel)
  | false => exact h.trans (by decide +kernel)

theorem ofText_display (h : x.isNaN = false) : (ofText (display x).toList == x) = true := by
  rw [display, String.toList_ofList]
  cases hd : decode x with
  | nan =>
    rw [isNaN_of_decode hd] at h
    cases h
  | infinite negative =>
    have htext : Layout.display.text x = signText negative ++ "Infinity".toList := by
      rw [Layout.text, hd]
      rfl
    rw [htext, eq_infinity hd]
    cases negative <;> decide +kernel
  | finite negative m q =>
    cases m with
    | zero =>
      have htext : Layout.display.text x = ['0'] := by
        rw [Layout.text, hd]
        simp only [Layout.display, Bool.and_false]
        rfl
      rw [htext, eq_zero hd]
      cases negative <;> decide +kernel
    | succ m =>
      obtain ⟨c, e, hshortest, hround⟩ :=
        shortest_roundsTo Layout.display.tie m.succ_pos (fits_of_decode hd)
      have htext : Layout.display.text x =
          signText negative ++ Layout.display.write (.ofGrid c e) := by
        rw [Layout.text, hd, ← hshortest]
        rfl
      obtain ⟨c', e', hpoint, hread⟩ := exists_ofText_write .display (proper_ofGrid c e)
      rw [← point_ofGrid, ← hpoint] at hround
      rw [htext, (hread negative).2, ofDecimal_eq hd hround, Float.beq_self_iff]
      rintro rfl
      simp at h

theorem write_display (n : Scientific) :
    Layout.display.write n =
      if -6 ≤ n.exponent ∧ n.exponent ≤ 20 then plain false n.digits n.exponent
      else scientific n.digits n.exponent := rfl

theorem plain_write (h : n.Proper) :
    Plain (Layout.display.write n) ↔ -6 ≤ n.exponent ∧ n.exponent ≤ 20 := by
  constructor
  · intro hplain
    by_contra hout
    have hmem : 'e' ∈ Layout.display.write n := by
      rw [write_display, if_neg hout, scientific]
      simp
    exact hplain.not_mem hmem
  · intro hin
    rw [write_display, if_pos hin]
    exact plain_plain h.1 h.2 _

/-- What the text of digits and exponent is: their exact value, in one of two notations, and readable. -/
structure Displayed (n : Scientific) (cs : List Char) : Prop where
  denotes : denoted cs = some ((digitsValue n.digits : ℚ) * 10 ^ (n.exponent + 1 - n.digits.length))
  plain : Plain cs ↔ -6 ≤ n.exponent ∧ n.exponent ≤ 20
  scientific : Plain cs ∨ ∃ d ds, n.digits = d :: ds ∧
    cs = d :: ((if ds.isEmpty then [] else '.' :: ds) ++
      'e' :: (if n.exponent < 0 then '-' else '+') :: natDigits n.exponent.natAbs)
  accepted : ∃ (c : Nat) (e : Int),
    (c : ℚ) * 10 ^ e = digitsValue n.digits * 10 ^ (n.exponent + 1 - n.digits.length) ∧
      read? cs = some (ofDecimal false c e) ∧ ofText cs = ofDecimal false c e

theorem displayed_write (h : n.Proper) : Displayed n (Layout.display.write n) where
  denotes := denoted_write .display h
  plain := plain_write h
  scientific := by
    by_cases hin : -6 ≤ n.exponent ∧ n.exponent ≤ 20
    · exact .inl ((plain_write h).2 hin)
    · obtain ⟨d, ds, hds⟩ := List.exists_cons_of_ne_nil h.1
      refine .inr ⟨d, ds, hds, ?_⟩
      rw [write_display, if_neg hin, hds]
      exact scientific_cons d ds _
  accepted := by
    obtain ⟨c, e, hpoint, hread⟩ := exists_ofText_write .display h
    exact ⟨c, e, hpoint, hread false⟩

theorem display_keeps :
    (∀ n : Scientific, n.digits ≠ [] → Digits n.digits → Displayed n (Layout.display.write n)) ∧
      ∀ x : Float, x.isNaN = false →
        ((Value.string (Value.number x).display).toNumber == x) = true := by
  constructor
  · intro n hne h
    exact displayed_write ⟨hne, h⟩
  · intro x h
    rw [Value.display, Value.toNumber]
    exact ofText_display h

theorem display_keeps_tiny :
    (Layout.display.write ⟨['2', '5'], -8⟩ = "2.5e-8".toList ∧
      Displayed ⟨['2', '5'], -8⟩ (Layout.display.write ⟨['2', '5'], -8⟩)) ∧
      (Float.isNaN (-0.1) = false ∧
        ((Value.string (Value.number (-0.1)).display).toNumber == (-0.1 : Float)) = true) := by
  have hnumber : Float.isNaN (-0.1) = false := by decide +kernel
  have hdigits : Digits ['2', '5'] := by
    intro c hc
    fin_cases hc <;> rfl
  exact ⟨⟨by decide +kernel, display_keeps.1 _ (List.cons_ne_nil _ _) hdigits⟩,
    hnumber, display_keeps.2 _ hnumber⟩

end LiveMarkup.Decimal
