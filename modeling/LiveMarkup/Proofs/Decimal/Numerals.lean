import LiveMarkup.Decimal.Layout
import LiveMarkup.Decimal.Read
import LiveMarkup.Proofs.Decimal.Cells
import LiveMarkup.Proofs.Text.Cutting

/-!
The texts of numbers. A text denotes one rational whatever its layout, and that one rounds to the float
it was written from; so different floats without a sign have different texts.
-/

namespace LiveMarkup.Decimal

open LiveMarkup.Text

variable {cs whole fraction tail : List Char} {m : Nat} {q : Int} {x y : Float}

theorem digitsValue_eq (cs : List Char) : digitsValue cs = Nat.ofDigitChars 10 cs 0 :=
  Nat.ofDigitChars_eq_foldl.symm

theorem digitsValue_toDigits (n : Nat) : digitsValue (Nat.toDigits 10 n) = n := by
  rw [digitsValue_eq, Nat.ofDigitChars_ten_toDigits]

theorem digitsValue_zeros (cs : List Char) (n : Nat) :
    digitsValue (cs ++ zeros n) = digitsValue cs * 10 ^ n := by
  rw [digitsValue_eq, digitsValue_eq, Nat.ofDigitChars_append, zeros, Nat.ofDigitChars_replicate_zero,
    Nat.mul_comm]

theorem zeros_digitsValue (n : Nat) (cs : List Char) : digitsValue (zeros n ++ cs) = digitsValue cs := by
  rw [digitsValue_eq, digitsValue_eq, Nat.ofDigitChars_append, zeros, Nat.ofDigitChars_replicate_zero,
    Nat.mul_zero]

def Digits (cs : List Char) : Prop := ∀ c ∈ cs, c.isDigit = true

theorem digits_zeros (n : Nat) : Digits (zeros n) := fun c hc => by
  rw [List.eq_of_mem_replicate hc]
  rfl

theorem digits_toDigits (n : Nat) : Digits (Nat.toDigits 10 n) :=
  fun _ => Nat.isDigit_of_mem_toDigits (by decide) (by decide)

/-- The exact number that a text without a sign denotes, and none for what is no decimal. -/
def denoted (cs : List Char) : Option ℚ :=
  let whole := cs.takeWhile Char.isDigit
  let rest := cs.dropWhile Char.isDigit
  let (fraction, tail) :=
    match rest with
    | '.' :: rest => (rest.takeWhile Char.isDigit, rest.dropWhile Char.isDigit)
    | rest => ([], rest)
  (readExponent tail).map fun e => gridPoint (digitsValue (whole ++ fraction)) (e - fraction.length)

def EndsDigits (cs : List Char) : Prop := ∀ c ∈ cs.head?, c.isDigit = false

theorem denoted_point (hwhole : Digits whole) (hfraction : Digits fraction) (htail : EndsDigits tail) :
    denoted (whole ++ '.' :: (fraction ++ tail)) =
      (readExponent tail).map fun e =>
        gridPoint (digitsValue (whole ++ fraction)) (e - fraction.length) := by
  have hpoint : EndsDigits ('.' :: (fraction ++ tail)) := fun c hc => by
    cases hc
    rfl
  obtain ⟨htake, hdrop⟩ := run_append hwhole hpoint
  obtain ⟨htake', hdrop'⟩ := run_append hfraction htail
  simp only [denoted, htake, hdrop, htake', hdrop']

theorem denoted_whole (hwhole : Digits whole) (htail : EndsDigits tail) (hpoint : tail.head? ≠ some '.') :
    denoted (whole ++ tail) = (readExponent tail).map (gridPoint (digitsValue whole)) := by
  obtain ⟨htake, hdrop⟩ := run_append hwhole htail
  simp only [denoted, htake, hdrop]
  split
  · exact absurd rfl hpoint
  · simp

theorem gridPoint_shift (c n : Nat) (e : Int) : gridPoint (c * 10 ^ n) e = gridPoint c (e + n) := by
  rw [gridPoint, gridPoint, zpow_add₀ (by norm_num), zpow_natCast]
  push_cast
  ring

def Scientific.Proper (n : Scientific) : Prop := n.digits ≠ [] ∧ Digits n.digits

def Scientific.point (n : Scientific) : ℚ :=
  gridPoint (digitsValue n.digits) (n.exponent + 1 - n.digits.length)

def exponentText (e : Int) : List Char :=
  'e' :: (if e < 0 then '-' else '+') :: natDigits e.natAbs

theorem endsDigits_exponentText (e : Int) : EndsDigits (exponentText e) := fun c hc => by
  cases hc
  rfl

theorem readExponent_exponentText (e : Int) : readExponent (exponentText e) = some e := by
  have hdigits : isInteger (natDigits e.natAbs) = true := by
    rw [isInteger, Bool.and_eq_true, List.all_eq_true]
    refine ⟨?_, digits_toDigits _⟩
    rw [Bool.not_eq_true', List.isEmpty_eq_false_iff]
    exact Nat.toDigits_ne_nil
  have hvalue : digitsValue (natDigits e.natAbs) = e.natAbs := digitsValue_toDigits _
  by_cases he : e < 0
  · have hneg : -(e.natAbs : Int) = e := by omega
    simp only [readExponent, exponentText, he, if_true, takeSign, hdigits, hvalue, true_or, and_self, hneg]
  · have hpos : (e.natAbs : Int) = e := by omega
    simp only [readExponent, exponentText, he, if_false, takeSign, hdigits, hvalue, true_or, and_self, hpos]
    rfl

theorem denoted_scientific {digits : List Char} (h : Digits digits) (hne : digits ≠ []) (e : Int) :
    denoted (scientific digits e) = some (gridPoint (digitsValue digits) (e + 1 - digits.length)) := by
  obtain ⟨d, ds, rfl⟩ := List.exists_cons_of_ne_nil hne
  have hd : Digits [d] := fun c hc => h c (List.mem_cons.2 (.inl (List.mem_singleton.1 hc)))
  have htail := endsDigits_exponentText e
  cases ds with
  | nil =>
    have htext : scientific [d] e = [d] ++ exponentText e := rfl
    rw [htext, denoted_whole hd htail (by simp [exponentText]), readExponent_exponentText,
      Option.map_some]
    simp
  | cons d' ds =>
    have htext : scientific (d :: d' :: ds) e = [d] ++ '.' :: (d' :: ds ++ exponentText e) := rfl
    rw [htext, denoted_point hd (fun c hc => h c (List.mem_cons_of_mem d hc)) htail,
      readExponent_exponentText, Option.map_some]
    congr 2
    simp only [List.length_cons]
    push_cast
    ring

theorem denoted_plain (fraction : Bool) {digits : List Char} (h : Digits digits) (hne : digits ≠ [])
    (e : Int) :
    denoted (plain fraction digits e) = some (gridPoint (digitsValue digits) (e + 1 - digits.length)) := by
  have hend : EndsDigits [] := fun c hc => by cases hc
  have hlength : 0 < digits.length := List.length_pos_iff.2 hne
  unfold plain
  dsimp only
  split
  · next hwhole =>
    have hdigits : Digits (digits ++ zeros ((e + 1).toNat - digits.length)) :=
      List.forall_mem_append.2 ⟨h, digits_zeros _⟩
    have hshift : gridPoint (digitsValue (digits ++ zeros ((e + 1).toNat - digits.length))) 0 =
        gridPoint (digitsValue digits) (e + 1 - digits.length) := by
      rw [digitsValue_zeros, gridPoint_shift]
      congr 1
      omega
    cases fraction with
    | false =>
      have hread := denoted_whole hdigits hend (by simp)
      rw [readExponent, Option.map_some, hshift] at hread
      exact hread
    | true =>
      have hread := denoted_point hdigits (digits_zeros 1) hend
      rw [readExponent, Option.map_some, digitsValue_zeros, gridPoint_shift] at hread
      rw [← hshift]
      exact hread
  · next hlong =>
    split
    · next hpoint =>
      have hwhole : Digits (digits.take (e + 1).toNat) := fun c hc => h c (List.mem_of_mem_take hc)
      have hfraction : Digits (digits.drop (e + 1).toNat) := fun c hc => h c (List.mem_of_mem_drop hc)
      have hread := denoted_point hwhole hfraction hend
      rw [readExponent, Option.map_some, List.take_append_drop, List.append_nil] at hread
      rw [hread, List.length_drop]
      congr 2
      omega
    · next hpoint =>
      have hdigits : Digits (zeros (-(e + 1)).toNat ++ digits) :=
        List.forall_mem_append.2 ⟨digits_zeros _, h⟩
      have hread := denoted_point (digits_zeros 1) hdigits hend
      rw [readExponent, Option.map_some, zeros_digitsValue, zeros_digitsValue, List.append_nil] at hread
      refine hread.trans ?_
      rw [List.length_append, zeros, List.length_replicate]
      congr 2
      omega

theorem denoted_write (l : Layout) {n : Scientific} (h : n.Proper) : denoted (l.write n) = some n.point := by
  unfold Layout.write
  split
  · exact denoted_plain _ h.2 h.1 _
  · exact denoted_scientific h.2 h.1 _

theorem proper_ofGrid (c : Nat) (e : Int) : (Scientific.ofGrid c e).Proper := by
  unfold Scientific.ofGrid
  dsimp only
  split
  · exact ⟨List.cons_ne_nil _ _, digits_zeros 1⟩
  · next hkept =>
    refine ⟨fun hnil => hkept (List.isEmpty_iff.2 hnil), fun d hd => digits_toDigits c d ?_⟩
    exact List.mem_reverse.1 ((List.dropWhile_sublist _).subset (List.mem_reverse.1 hd))

theorem exists_zeros (cs : List Char) :
    ∃ n, cs = (cs.reverse.dropWhile (· == '0')).reverse ++ zeros n := by
  refine ⟨(cs.reverse.takeWhile (· == '0')).length, ?_⟩
  have hzeros : cs.reverse.takeWhile (· == '0') = zeros (cs.reverse.takeWhile (· == '0')).length :=
    List.eq_replicate_of_mem fun c hc => eq_of_beq (List.all_eq_true.1 List.all_takeWhile c hc)
  calc cs = (cs.reverse.takeWhile (· == '0') ++ cs.reverse.dropWhile (· == '0')).reverse := by
        rw [List.takeWhile_append_dropWhile, List.reverse_reverse]
    _ = _ := by
        rw [List.reverse_append, hzeros, zeros, List.reverse_replicate, List.length_replicate, zeros]

theorem point_ofGrid (c : Nat) (e : Int) : (Scientific.ofGrid c e).point = gridPoint c e := by
  obtain ⟨n, hn⟩ := exists_zeros (Nat.toDigits 10 c)
  have hvalue := congrArg digitsValue hn
  have hlength := congrArg List.length hn
  rw [digitsValue_toDigits, digitsValue_zeros] at hvalue
  rw [List.length_append, zeros, List.length_replicate] at hlength
  unfold Scientific.ofGrid Scientific.point
  dsimp only
  generalize ((Nat.toDigits 10 c).reverse.dropWhile (· == '0')).reverse = kept at hvalue hlength ⊢
  split
  · next hkept =>
    rw [List.isEmpty_iff.1 hkept, digitsValue, List.foldl_nil, Nat.zero_mul] at hvalue
    rw [hvalue, gridPoint, gridPoint]
    simp [digitsValue]
  · rw [hlength, hvalue, gridPoint_shift]
    congr 1
    omega

theorem exists_write (l : Layout) (h : decode x = .finite false m q) :
    ∃ n : Scientific, n.Proper ∧ l.text x = l.write n ∧ RoundsTo m q n.point := by
  cases m with
  | zero =>
    have hpoint : Scientific.point ⟨['0'], 0⟩ = 0 := by simp [Scientific.point, gridPoint, digitsValue]
    refine ⟨⟨['0'], 0⟩, ⟨List.cons_ne_nil _ _, digits_zeros 1⟩, ?_, hpoint ▸ roundsTo_zero q⟩
    rw [Layout.text, h]
    rfl
  | succ m =>
    obtain ⟨c, e, hshortest, hround⟩ := shortest_roundsTo l.tie m.succ_pos (fits_of_decode h)
    refine ⟨.ofGrid c e, proper_ofGrid c e, ?_, point_ofGrid c e ▸ hround⟩
    rw [Layout.text, h, ← hshortest]
    rfl

theorem denoted_text (l : Layout) (h : decode x = .finite false m q) :
    ∃ p, denoted (l.text x) = some p ∧ RoundsTo m q p := by
  obtain ⟨n, hn, htext, hround⟩ := exists_write l h
  exact ⟨n.point, htext ▸ denoted_write l hn, hround⟩

theorem text_infinite (l : Layout) (h : decode x = .infinite false) : l.text x = "Infinity".toList := by
  rw [Layout.text, h]
  rfl

theorem denoted_infinite (l : Layout) (h : decode x = .infinite false) : denoted (l.text x) = none := by
  rw [text_infinite l h]
  rfl

theorem text_injective (l : Layout) (hx : (decode x).Unsigned) (hy : (decode y).Unsigned)
    (h : l.text x = l.text y) : x = y := by
  refine eq_of_decode ?_ hx.ne_nan
  rcases hx.cases with hdx | ⟨m, q, hdx⟩
  · rcases hy.cases with hdy | ⟨m', q', hdy⟩
    · rw [hdx, hdy]
    · obtain ⟨p, hp, _⟩ := denoted_text l hdy
      rw [← h, denoted_infinite l hdx] at hp
      cases hp
  · obtain ⟨p, hp, hround⟩ := denoted_text l hdx
    rcases hy.cases with hdy | ⟨m', q', hdy⟩
    · rw [h, denoted_infinite l hdy] at hp
      cases hp
    · obtain ⟨p', hp', hround'⟩ := denoted_text l hdy
      rw [h, hp'] at hp
      cases hp
      obtain ⟨rfl, rfl⟩ := hround.unique hround' (fits_of_decode hdx) (fits_of_decode hdy)
      rw [hdx, hdy]

def isNumeral (c : Char) : Bool := c.isDigit || ".e+-Infinty".toList.contains c

structure Numeral (cs : List Char) : Prop where
  ne_nil : cs ≠ []
  all : ∀ c ∈ cs, isNumeral c = true

theorem Digits.isNumeral (h : Digits cs) : ∀ c ∈ cs, isNumeral c = true := fun c hc => by
  rw [Decimal.isNumeral, h c hc, Bool.true_or]

theorem numeral_scientific {digits : List Char} (h : Digits digits) (e : Int) :
    Numeral (scientific digits e) := by
  have hpart : ∀ c ∈ (if digits.length ≤ 1 then [] else '.' :: digits.drop 1), isNumeral c = true := by
    split
    · exact List.forall_mem_nil _
    · exact List.forall_mem_cons.2 ⟨rfl, fun c hc => h.isNumeral c (List.mem_of_mem_drop hc)⟩
  have hsign : isNumeral (if e < 0 then '-' else '+') = true := by split <;> rfl
  have hfirst : ∀ c ∈ digits.take 1, isNumeral c = true := fun c hc =>
    h.isNumeral c (List.mem_of_mem_take hc)
  refine ⟨by simp [scientific], List.forall_mem_append.2 ⟨?_, ?_⟩⟩
  · exact List.forall_mem_append.2 ⟨hfirst, hpart⟩
  · exact List.forall_mem_cons.2 ⟨rfl, List.forall_mem_cons.2 ⟨hsign, (digits_toDigits _).isNumeral⟩⟩

theorem numeral_plain (fraction : Bool) {digits : List Char} (h : Digits digits) (hne : digits ≠ [])
    (e : Int) : Numeral (plain fraction digits e) := by
  unfold plain
  dsimp only
  split
  · refine ⟨by simp [hne], List.forall_mem_append.2 ⟨?_, ?_⟩⟩
    · exact List.forall_mem_append.2 ⟨h.isNumeral, (digits_zeros _).isNumeral⟩
    · exact List.all_eq_true.1 (by cases fraction <;> rfl)
  · split
    · refine ⟨by simp, List.forall_mem_append.2 ⟨?_, List.forall_mem_cons.2 ⟨rfl, ?_⟩⟩⟩
      · exact fun c hc => h.isNumeral c (List.mem_of_mem_take hc)
      · exact fun c hc => h.isNumeral c (List.mem_of_mem_drop hc)
    · refine ⟨by simp, List.forall_mem_append.2 ⟨?_, h.isNumeral⟩⟩
      exact List.forall_mem_cons.2 ⟨rfl, List.forall_mem_cons.2 ⟨rfl, (digits_zeros _).isNumeral⟩⟩

theorem numeral_write (l : Layout) {n : Scientific} (h : n.Proper) : Numeral (l.write n) := by
  unfold Layout.write
  split
  · exact numeral_plain _ h.2 h.1 _
  · exact numeral_scientific h.2 _

theorem numeral_text (l : Layout) (h : (decode x).Unsigned) : Numeral (l.text x) := by
  rcases h.cases with hd | ⟨m, q, hd⟩
  · rw [text_infinite l hd]
    exact ⟨List.cons_ne_nil _ _, List.all_eq_true.1 rfl⟩
  · obtain ⟨n, hn, htext, _⟩ := exists_write l hd
    exact htext ▸ numeral_write l hn

theorem display_injective (hx : (decode x).Unsigned) (hy : (decode y).Unsigned)
    (h : display x = display y) : x = y :=
  text_injective .display hx hy (String.ofList_injective h)

theorem unsigned_ofDecimal (m : Nat) (e : Int) : (decode (ofDecimal false m e)).Unsigned := by
  unfold ofDecimal
  -- a name for the power keeps it from being computed
  generalize pow2 1024 = huge
  dsimp only
  split
  · exact unsigned_nearest _ _
  · split <;> exact unsigned_nearest _ _

theorem unsigned_ofDigits (cs : List Char) : (decode (ofDigits cs)).Unsigned := unsigned_ofDecimal _ _

end LiveMarkup.Decimal
