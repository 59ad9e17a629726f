import Mathlib
import LiveMarkup.Expression.Evaluate

/-!
Equality and order of values agree. By its rules, loose equality ends after two coercions at most; away
from missing values, and from data against data, it is what the order calls equal; and the order of two
values is turned round when they change places. That equality of floats is symmetric comes with the whole
library only.
-/

namespace LiveMarkup

open LiveMarkup.Expression

open Float.Model in
theorem compare_unpacked_swap (u v : UnpackedFloat) :
    u.compare v = (v.compare u).map Ordering.swap := by
  cases u with
  | notANumber => cases v <;> rfl
  | infinity s =>
    cases v with
    | infinity t => cases s <;> cases t <;> rfl
    | _ => cases s <;> rfl
  | zero s =>
    cases v with
    | infinity t => cases t <;> rfl
    | finite t => cases t <;> rfl
    | _ => rfl
  | finite s m e hm =>
    cases v with
    | infinity t => cases s <;> cases t <;> rfl
    | notANumber => rfl
    | zero t => cases s <;> rfl
    | finite t m' e' hm' =>
      have hswap : (compare e' e).then (compare m' m) =
          ((compare e e').then (compare m m')).swap := by
        rw [Ordering.swap_then, Std.OrientedOrd.eq_swap (a := e'), Std.OrientedOrd.eq_swap (a := m')]
      cases s <;> cases t <;> simp [UnpackedFloat.compare, hswap]

namespace Json

mutual

theorem same_comm : (a b : Json) → a.same b = b.same a
  | .null, b => by cases b <;> rfl
  | .bool _, b => by
    cases b with
    | bool _ => exact BEq.comm
    | _ => rfl
  | .int _, b => by
    cases b with
    | int _ => exact BEq.comm
    | _ => rfl
  | .float _, b => by
    cases b with
    | float _ => exact BEq.comm
    | _ => rfl
  | .string _, b => by
    cases b with
    | string _ => exact BEq.comm
    | _ => rfl
  | .array as, b => by
    cases b with
    | array bs => exact sameItems_comm as bs
    | _ => rfl
  | .object as, b => by
    cases b with
    | object bs => exact sameEntries_comm as bs
    | _ => rfl

theorem sameItems_comm : (as bs : List Json) → sameItems as bs = sameItems bs as
  | [], [] => rfl
  | [], _ :: _ => rfl
  | _ :: _, [] => rfl
  | a :: as, b :: bs => by rw [sameItems, sameItems, same_comm a b, sameItems_comm as bs]

theorem sameEntries_comm : (as bs : List (String × Json)) → sameEntries as bs = sameEntries bs as
  | [], [] => rfl
  | [], _ :: _ => rfl
  | _ :: _, [] => rfl
  | (k, a) :: as, (l, b) :: bs => by
    rw [sameEntries, sameEntries, BEq.comm (a := k), same_comm a b, sameEntries_comm as bs]

end

end Json

namespace Value

variable {a b : Value}

theorem compareFloats_eq (x y : Float) : compareFloats x y = x.toModel.compare y.toModel := by
  have hlt (x y : Float) : x < y ↔ x.toModel.compare y.toModel = some .lt := by
    change decide _ = true ↔ _
    rw [decide_eq_true_iff]
    exact beq_iff_eq
  have heq : (x == y) = true ↔ x.toModel.compare y.toModel = some .eq := by
    change (x.toModel.compare y.toModel == some .eq) = true ↔ _
    exact beq_iff_eq
  have hswap : x.toModel.compare y.toModel = (y.toModel.compare x.toModel).map Ordering.swap :=
    compare_unpacked_swap _ _
  simp only [compareFloats, hlt, heq, hswap]
  rcases y.toModel.compare x.toModel with _ | _ | _ | _ <;> rfl

theorem compareFloats_swap (x y : Float) :
    compareFloats y x = (compareFloats x y).map Ordering.swap := by
  rw [compareFloats_eq, compareFloats_eq]
  exact compare_unpacked_swap _ _

theorem compareFloats_eq_eq {x y : Float} : compareFloats x y = some .eq ↔ (x == y) = true := by
  rw [compareFloats_eq]
  exact beq_iff_eq.symm

theorem compareTexts_swap (s t : String) :
    compareOfLessAndEq t s = (compareOfLessAndEq s t).swap :=
  compareOfLessAndEq_eq_swap le_antisymm le_total not_le

theorem compareTexts_eq_eq {s t : String} :
    some (compareOfLessAndEq s t) = some .eq ↔ (s == t) = true := by
  rw [Option.some.injEq, beq_iff_eq]
  exact compareOfLessAndEq_eq_eq le_refl not_le

def isData : Value → Bool
  | .data _ => true
  | _ => false

/-- What the first rule that applies says: the answer, or the values to go on with. -/
def looseRule (a b : Value) : Bool ⊕ (Value × Value) :=
  if a.isNullish || b.isNullish then .inl (a.isNullish && b.isNullish)
  else
    match a, b with
    | .bool _, b => .inr (.number a.toNumber, b)
    | a, .bool _ => .inr (a, .number b.toNumber)
    | .data v, .data w => .inl (v.same w)
    | .data v, b => .inr (.string v.display, b)
    | a, .data w => .inr (a, .string w.display)
    | .string s, .string t => .inl (s == t)
    | a, b => .inl (a.toNumber == b.toNumber)

/-- The answer by the rules, where so many of them are enough to come to one. -/
def looseByRules : Nat → Value → Value → Option Bool
  | 0, _, _ => none
  | rules + 1, a, b =>
    match looseRule a b with
    | .inl answer => some answer
    | .inr (a, b) => looseByRules rules a b

theorem looseByRules_eq (a b : Value) (more : Nat) :
    looseByRules (more + 3) a b = some (a.looseEq b) := by
  cases a <;> cases b <;> rfl

theorem Comparand.eq_comm (c c' : Comparand) : c.eq c' = c'.eq c := by
  cases c with
  | number x => cases c' <;> exact BEq.comm
  | text s => cases c' <;> exact BEq.comm
  | data v =>
    cases c' with
    | data w => exact v.same_comm w
    | _ => exact BEq.comm

theorem looseEq_comm (a b : Value) : a.looseEq b = b.looseEq a := by
  unfold looseEq
  cases a.comparand? with
  | none => cases b.comparand? <;> rfl
  | some c =>
    cases b.comparand? with
    | none => rfl
    | some c' => exact c.eq_comm c'

theorem looseEq_of_strictEq (h : a.strictEq b = true) : a.looseEq b = true := by
  cases a with
  | undefined =>
    cases b with
    | undefined => rfl
    | _ => cases h
  | null =>
    cases b with
    | null => rfl
    | _ => cases h
  | bool x =>
    cases b with
    | bool y =>
      obtain rfl := eq_of_beq h
      cases x <;> decide +kernel
    | _ => cases h
  | number _ | string _ | data _ =>
    cases b <;> first | exact h | cases h

theorem looseEq_of_isNullish (h : a.isNullish = true) : a.looseEq b = b.isNullish := by
  cases a with
  | undefined => cases b <;> rfl
  | null => cases b <;> rfl
  | _ => cases h

theorem looseCmp_swap (a b : Value) : b.looseCmp a = (a.looseCmp b).map Ordering.swap := by
  unfold looseCmp
  cases a.text? with
  | none => cases b.text? <;> exact compareFloats_swap ..
  | some s =>
    cases b.text? with
    | none => exact compareFloats_swap ..
    | some t => exact congrArg some (compareTexts_swap s t)

theorem looseEq_iff_looseCmp (ha : a.isNullish = false) (hb : b.isNullish = false)
    (hdata : ¬(a.isData = true ∧ b.isData = true)) :
    a.looseEq b = true ↔ a.looseCmp b = some .eq := by
  cases a with
  | undefined => cases ha
  | null => cases ha
  | bool _ | number _ =>
    cases b with
    | undefined => cases hb
    | null => cases hb
    | _ => exact compareFloats_eq_eq.symm
  | string _ =>
    cases b with
    | undefined => cases hb
    | null => cases hb
    | bool _ | number _ => exact compareFloats_eq_eq.symm
    | string _ | data _ => exact compareTexts_eq_eq.symm
  | data _ =>
    cases b with
    | undefined => cases hb
    | null => cases hb
    | bool _ | number _ => exact compareFloats_eq_eq.symm
    | string _ => exact compareTexts_eq_eq.symm
    | data _ => exact absurd ⟨rfl, rfl⟩ hdata

theorem looseCmp_eq_iff :
    a.looseCmp b = some .eq ↔
      ComparisonOp.le.holds a b = true ∧ ComparisonOp.ge.holds a b = true := by
  simp only [ComparisonOp.holds]
  rcases a.looseCmp b with _ | _ | _ | _ <;> simp

structure Coherent (a b : Value) : Prop where
  ends : ∀ rules, 3 ≤ rules → looseByRules rules a b = some (a.looseEq b)
  comm : a.looseEq b = b.looseEq a
  of_strict : a.strictEq b = true → a.looseEq b = true
  nullish : a.isNullish = true → a.looseEq b = b.isNullish
  equal : a.isNullish = false → b.isNullish = false → ¬(a.isData = true ∧ b.isData = true) →
    (a.looseEq b = true ↔ a.looseCmp b = some .eq) ∧
      (a.looseEq b = true ↔
        ComparisonOp.le.holds a b = true ∧ ComparisonOp.ge.holds a b = true)
  reverse : b.looseCmp a = (a.looseCmp b).map Ordering.swap
  less : ComparisonOp.lt.holds a b = ComparisonOp.gt.holds b a
  atMost : ComparisonOp.le.holds a b = ComparisonOp.ge.holds b a
  oneWay : ¬(ComparisonOp.lt.holds a b = true ∧ ComparisonOp.gt.holds a b = true)

theorem coherent (a b : Value) : Coherent a b := by
  have hswap := looseCmp_swap a b
  refine ⟨fun rules h => ?_, looseEq_comm a b, looseEq_of_strictEq, looseEq_of_isNullish,
    fun ha hb hdata => ?_, hswap, ?_, ?_, ?_⟩
  · obtain ⟨more, rfl⟩ := Nat.exists_eq_add_of_le' h
    exact looseByRules_eq a b more
  · have heq := looseEq_iff_looseCmp ha hb hdata
    exact ⟨heq, heq.trans looseCmp_eq_iff⟩
  all_goals
    simp only [ComparisonOp.holds, hswap]
    rcases a.looseCmp b with _ | _ | _ | _ <;> simp

end Value

end LiveMarkup
