import LiveMarkup.Markup.Scan
import LiveMarkup.Proofs.Text.Bytes

/-!
The scanner by byte offsets. It looks at single bytes and cuts what it gives out of the text. No cut fails,
and the items are those that are read character by character.
-/

namespace LiveMarkup.Markup

open LiveMarkup.Text

structure CutAttribute (source : List Char) where
  name : Slice source
  value : Option (Slice source)

inductive CutItem (source : List Char) where
  | text (s : Slice source)
  | start (name : Slice source) (attributes : List (CutAttribute source)) (selfClosing : Bool)
  | stop (name : Slice source)
  | comment (body : Slice source)

section Parts

variable {source : List Char}

def CutAttribute.slices (a : CutAttribute source) : List (Slice source) := a.name :: a.value.toList

def CutAttribute.written (a : CutAttribute source) : WrittenAttribute :=
  (String.ofList a.name.chars, a.value.map fun s => String.ofList s.chars)

def CutItem.slices : CutItem source → List (Slice source)
  | .text s => [s]
  | .start name attributes _ => name :: attributes.flatMap CutAttribute.slices
  | .stop name => [name]
  | .comment body => [body]

def CutItem.item : CutItem source → Item
  | .text s => .text (String.ofList s.chars)
  | .start name attributes selfClosing =>
    .start (String.ofList name.chars) (attributes.map CutAttribute.written) selfClosing
  | .stop name => .stop (String.ofList name.chars)
  | .comment body => .comment (String.ofList body.chars)

end Parts

def findFrom? (needle source : List Char) (n : Nat) : Option Nat :=
  ((dropBytes? n source).bind (find? needle)).map (n + ·)

def afterSpaces (source : List Char) (n : Nat) : Nat := seek (leaves isSpace) source n

def closesValue : List Char → Bool
  | [] => true
  | c :: cs => c == '>' || isSpace c || (c == '/' && cs.head? == some '>')

def quotedAt? (quote : Char) (source : List Char) (n : Nat) : Option (Slice source × Nat) := do
  let cs ← dropBytes? (n + 1) source
  match find? [quote] cs with
  | some length => (cut? source (n + 1) (n + 1 + length)).map (·, n + 1 + length + 1)
  | none => (cut? source (n + 1) (byteLength source)).map (·, byteLength source)

def valueAt? (source : List Char) (n : Nat) : Option (Slice source × Nat) :=
  if unit? source n = some '"' then quotedAt? '"' source n
  else if unit? source n = some '\x27' then quotedAt? '\x27' source n
  else
    let stop := seek closesValue source n
    (cut? source n stop).map (·, stop)

def attributeAt? (source : List Char) (n : Nat) : Option (CutAttribute source × Nat) := do
  let nameEnd := seek (leaves isAttributeNameChar) source (n + 1)
  let name ← cut? source n nameEnd
  let afterName := afterSpaces source nameEnd
  if unit? source afterName = some '=' then
    (valueAt? source (afterSpaces source (afterName + 1))).map fun p =>
      (⟨name, some p.1⟩, p.2)
  else some (⟨name, none⟩, nameEnd)

section Bounds

variable {needle source : List Char} {quote : Char} {n next : Nat}

theorem le_afterSpaces (source : List Char) (n : Nat) : n ≤ afterSpaces source n := le_seek ..

theorem le_of_findFrom? {found : Nat} (h : findFrom? needle source n = some found) : n ≤ found := by
  obtain ⟨m, -, rfl⟩ := Option.map_eq_some_iff.1 h
  exact Nat.le_add_right n m

theorem quotedAt?_bounds {s : Slice source} (h : quotedAt? quote source n = some (s, next)) :
    n ≤ s.start ∧ s.start ≤ s.stop ∧ s.stop ≤ next := by
  obtain ⟨cs, -, h⟩ := Option.bind_eq_some_iff.1 h
  split at h
  · obtain ⟨s, hs, heq⟩ := Option.map_eq_some_iff.1 h
    cases heq
    have hbounds := bounds_of_cut? hs
    omega
  · obtain ⟨s, hs, heq⟩ := Option.map_eq_some_iff.1 h
    cases heq
    have hbounds := bounds_of_cut? hs
    omega

theorem valueAt?_bounds {s : Slice source} (h : valueAt? source n = some (s, next)) :
    n ≤ s.start ∧ s.start ≤ s.stop ∧ s.stop ≤ next := by
  rw [valueAt?] at h
  split at h
  · exact quotedAt?_bounds h
  · split at h
    · exact quotedAt?_bounds h
    · obtain ⟨s, hs, heq⟩ := Option.map_eq_some_iff.1 h
      cases heq
      have hbounds := bounds_of_cut? hs
      omega

theorem attributeAt?_inOrder {a : CutAttribute source} (h : attributeAt? source n = some (a, next)) :
    n < next ∧ InOrder n a.slices next := by
  obtain ⟨name, hname, h⟩ := Option.bind_eq_some_iff.1 h
  have hbounds := bounds_of_cut? hname
  have hnameEnd := le_seek (leaves isAttributeNameChar) source (n + 1)
  have hafter := le_afterSpaces source (seek (leaves isAttributeNameChar) source (n + 1))
  dsimp only at h
  split at h
  · obtain ⟨⟨value, next⟩, hvalue, heq⟩ := Option.map_eq_some_iff.1 h
    cases heq
    have hvalueBounds := valueAt?_bounds hvalue
    have hvalueStart := le_afterSpaces source
      (afterSpaces source (seek (leaves isAttributeNameChar) source (n + 1)) + 1)
    refine ⟨by omega, ?_⟩
    simp only [CutAttribute.slices, Option.toList_some, InOrder]
    omega
  · cases h
    refine ⟨hnameEnd, ?_⟩
    simp only [CutAttribute.slices, Option.toList_none, InOrder]
    omega

end Bounds

def tagBodyAt? (source : List Char) (n : Nat) : Option (List (CutAttribute source) × Bool × Nat) :=
  if afterSpaces source n < byteLength source then
    if unit? source (afterSpaces source n) = some '>' then some ([], false, afterSpaces source n + 1)
    else if unit? source (afterSpaces source n) = some '/' then
      if unit? source (afterSpaces source n + 1) = some '>' then
        some ([], true, afterSpaces source n + 2)
      else tagBodyAt? source (afterSpaces source n + 1)
    else
      match _h : attributeAt? source (afterSpaces source n) with
      | none => none
      | some (a, next) => (tagBodyAt? source next).map fun p => (a :: p.1, p.2)
  else some ([], true, afterSpaces source n)
termination_by byteLength source - n
decreasing_by
  · have hle := le_afterSpaces source n
    omega
  · have hle := le_afterSpaces source n
    have hlt := (attributeAt?_inOrder _h).1
    omega

def startTagAt? (source : List Char) (n : Nat) : Option (CutItem source × Nat) := do
  let nameEnd := seek (leaves isNameChar) source (n + 1)
  let name ← cut? source (n + 1) nameEnd
  (tagBodyAt? source nameEnd).map fun p => (.start name p.1 p.2.1, p.2.2)

def endTagAt? (source : List Char) (n : Nat) : Option (Option (CutItem source) × Nat) :=
  match findFrom? ['>'] source n with
  | none => some (none, byteLength source)
  | some close =>
    let start := afterSpaces source (n + 2)
    let stop := seek (leaves fun c => c != '>' && !isSpace c) source start
    if start < stop then (cut? source start stop).map fun s => (some (.stop s), close + 1)
    else some (none, close + 1)

def commentStart : List Char := ['<', '!', '-', '-']

def commentAt? (source : List Char) (n : Nat) : Option (CutItem source × Nat) :=
  let body := n + byteLength commentStart
  match findFrom? commentEnd source body with
  | some stop => (cut? source body stop).map fun s => (.comment s, stop + byteLength commentEnd)
  | none => (cut? source body (byteLength source)).map fun s => (.comment s, byteLength source)

def declarationEnd (source : List Char) (n : Nat) : Nat :=
  ((findFrom? ['>'] source n).map (· + 1)).getD (byteLength source)

/-- The first byte may be a `<` that opens nothing. -/
def textAt? (source : List Char) (n : Nat) : Option (CutItem source × Nat) :=
  let stop := seek opensMarkup source (n + 1)
  (cut? source n stop).map fun s => (.text s, stop)

def roundAt? (source : List Char) (n : Nat) : Option (Option (CutItem source) × Nat) :=
  if opensMarkup ((units source).drop n) then
    if unit? source (n + 1) = some '!' then do
      let cs ← dropBytes? n source
      if (behind? commentStart cs).isSome then (commentAt? source n).map fun p => (some p.1, p.2)
      else some (none, declarationEnd source n)
    else if unit? source (n + 1) = some '?' then some (none, declarationEnd source n)
    else if unit? source (n + 1) = some '/' then endTagAt? source n
    else (startTagAt? source n).map fun p => (some p.1, p.2)
  else (textAt? source n).map fun p => (some p.1, p.2)

section Bounds

variable {source : List Char} {n stop : Nat}

theorem tagBodyAt?_inOrder {as : List (CutAttribute source)} {selfClosing : Bool}
    (h : tagBodyAt? source n = some (as, selfClosing, stop)) :
    InOrder n (as.flatMap CutAttribute.slices) stop := by
  have hle := le_afterSpaces source n
  fun_induction tagBodyAt? source n generalizing as selfClosing stop with
  | case1 n hlt hclose =>
    cases h
    exact Nat.le_succ_of_le hle
  | case2 n hlt hopen hslash hclose =>
    cases h
    exact Nat.le_trans hle (Nat.le_add_right _ 2)
  | case3 n hlt hopen hslash hnot ih =>
    exact (ih h (le_afterSpaces ..)).of_le (Nat.le_succ_of_le hle)
  | case4 n hlt hopen hslash hnone => cases h
  | case5 n hlt hopen hslash a next ha ih =>
    obtain ⟨⟨as, selfClosing, stop⟩, hrest, heq⟩ := Option.map_eq_some_iff.1 h
    cases heq
    have hattribute := (attributeAt?_inOrder ha).2.of_le hle
    exact hattribute.append (ih hrest (le_afterSpaces ..))
  | case6 n hge =>
    cases h
    exact hle

theorem startTagAt?_inOrder {m : CutItem source} (h : startTagAt? source n = some (m, stop)) :
    n < stop ∧ InOrder n m.slices stop := by
  obtain ⟨name, hname, h⟩ := Option.bind_eq_some_iff.1 h
  obtain ⟨⟨as, selfClosing, stop⟩, hbody, heq⟩ := Option.map_eq_some_iff.1 h
  cases heq
  have hbounds := bounds_of_cut? hname
  have hrest := tagBodyAt?_inOrder hbody
  have hle := hrest.le
  refine ⟨Nat.lt_of_lt_of_le hbounds.2.2 hle, ?_⟩
  rw [← hbounds.2.1] at hrest
  exact ⟨by omega, by omega, hrest⟩

theorem commentAt?_inOrder (hn : n < byteLength source) {m : CutItem source}
    (h : commentAt? source n = some (m, stop)) : n < stop ∧ InOrder n m.slices stop := by
  rw [commentAt?] at h
  split at h
  · next stop hstop =>
    obtain ⟨s, hs, heq⟩ := Option.map_eq_some_iff.1 h
    cases heq
    have hbounds := bounds_of_cut? hs
    have hend : 0 < byteLength commentEnd := byteLength_pos (List.cons_ne_nil '-' _)
    simp only [CutItem.slices, InOrder]
    omega
  · obtain ⟨s, hs, heq⟩ := Option.map_eq_some_iff.1 h
    cases heq
    have hbounds := bounds_of_cut? hs
    simp only [CutItem.slices, InOrder]
    omega

theorem lt_declarationEnd (hn : n < byteLength source) : n < declarationEnd source n := by
  rw [declarationEnd]
  cases hfound : findFrom? ['>'] source n with
  | none => exact hn
  | some found => exact Nat.lt_succ_of_le (le_of_findFrom? hfound)

theorem lt_of_endTagAt? (hn : n < byteLength source) {m : Option (CutItem source)}
    (h : endTagAt? source n = some (m, stop)) : n < stop := by
  rw [endTagAt?] at h
  split at h
  · cases h
    exact hn
  · next close hclose =>
    have hle := le_of_findFrom? hclose
    dsimp only at h
    split at h
    · obtain ⟨s, -, heq⟩ := Option.map_eq_some_iff.1 h
      cases heq
      exact Nat.lt_succ_of_le hle
    · cases h
      exact Nat.lt_succ_of_le hle

theorem lt_of_textAt? {m : CutItem source} (h : textAt? source n = some (m, stop)) : n < stop := by
  obtain ⟨s, -, heq⟩ := Option.map_eq_some_iff.1 h
  cases heq
  exact le_seek opensMarkup source (n + 1)

theorem lt_of_roundAt? (hn : n < byteLength source) {m : Option (CutItem source)}
    (h : roundAt? source n = some (m, stop)) : n < stop := by
  have hsome {p? : Option (CutItem source × Nat)} (hp : ∀ q, p? = some (q, stop) → n < stop)
      (h : (p?.map fun p => (some p.1, p.2)) = some (m, stop)) : n < stop := by
    obtain ⟨⟨q, stop⟩, hq, heq⟩ := Option.map_eq_some_iff.1 h
    cases heq
    exact hp q hq
  rw [roundAt?] at h
  split at h
  · split at h
    · obtain ⟨cs, -, h⟩ := Option.bind_eq_some_iff.1 h
      split at h
      · exact hsome (fun q hq => (commentAt?_inOrder hn hq).1) h
      · cases h
        exact lt_declarationEnd hn
    · split at h
      · cases h
        exact lt_declarationEnd hn
      · split at h
        · exact lt_of_endTagAt? hn h
        · exact hsome (fun q hq => (startTagAt?_inOrder hq).1) h
  · exact hsome (fun q hq => lt_of_textAt? hq) h

end Bounds

structure Row (source : List Char) where
  start : Nat
  stop : Nat
  item? : Option (CutItem source)

def rowsFrom? (source : List Char) (n : Nat) : Option (List (Row source)) :=
  if _hn : n < byteLength source then
    match _h : roundAt? source n with
    | none => none
    | some (item?, stop) => (rowsFrom? source stop).map (⟨n, stop, item?⟩ :: ·)
  else some []
termination_by byteLength source - n
decreasing_by
  have hlt := lt_of_roundAt? _hn _h
  omega

end LiveMarkup.Markup
