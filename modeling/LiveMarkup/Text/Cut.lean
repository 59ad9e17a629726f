import LiveMarkup.Text.Class

/-!
Cutting text: at the first occurrence of a character or of a piece of text, by commas, and at the
ends. Nothing is lost by a cut: the parts and what stood between them make up the text again.
-/

namespace LiveMarkup.Text

def splitFirst (c : Char) : List Char → Option (List Char × List Char)
  | [] => none
  | d :: cs => if d = c then some ([], cs) else (splitFirst c cs).map fun p => (d :: p.1, p.2)

theorem splitFirst_eq_some {c : Char} {cs before after : List Char}
    (h : splitFirst c cs = some (before, after)) : cs = before ++ c :: after ∧ c ∉ before := by
  induction cs generalizing before with
  | nil => simp [splitFirst] at h
  | cons d cs ih =>
    simp only [splitFirst] at h
    split at h
    · next hd =>
      simp only [Option.some.injEq, Prod.mk.injEq] at h
      obtain ⟨rfl, rfl⟩ := h
      simp [hd]
    · next hd =>
      obtain ⟨p, hp, hq⟩ := Option.map_eq_some_iff.1 h
      simp only [Prod.mk.injEq] at hq
      obtain ⟨rfl, rfl⟩ := hq
      obtain ⟨h₁, h₂⟩ := ih hp
      exact ⟨by rw [h₁, List.cons_append], by simp [h₂, Ne.symm hd]⟩

theorem splitFirst_eq_none {c : Char} {cs : List Char} : splitFirst c cs = none ↔ c ∉ cs := by
  induction cs with
  | nil => simp [splitFirst]
  | cons d cs ih =>
    simp only [splitFirst]
    split
    · next hd => simp [hd]
    · next hd => simp [ih, Ne.symm hd]

theorem splitFirst_append {c : Char} {before : List Char} (after : List Char) (h : c ∉ before) :
    splitFirst c (before ++ c :: after) = some (before, after) := by
  induction before with
  | nil => simp [splitFirst]
  | cons d before ih =>
    simp only [List.mem_cons, not_or] at h
    simp [splitFirst, Ne.symm h.1, ih h.2]

def behind? : List Char → List Char → Option (List Char)
  | [], cs => some cs
  | _ :: _, [] => none
  | d :: front, c :: cs => if c = d then behind? front cs else none

theorem behind?_eq_some {front cs rest : List Char} :
    behind? front cs = some rest ↔ cs = front ++ rest := by
  induction front generalizing cs with
  | nil => simp [behind?]
  | cons d front ih =>
    cases cs with
    | nil => simp [behind?]
    | cons c cs => simp [behind?, ih]

def splitText (needle : List Char) : List Char → Option (List Char × List Char)
  | [] => if needle.isEmpty then some ([], []) else none
  | c :: cs =>
    match behind? needle (c :: cs) with
    | some after => some ([], after)
    | none => (splitText needle cs).map fun p => (c :: p.1, p.2)

theorem splitText_eq_some {needle cs before after : List Char}
    (h : splitText needle cs = some (before, after)) : cs = before ++ needle ++ after := by
  induction cs generalizing before with
  | nil =>
    simp only [splitText] at h
    split at h
    · next hn =>
      simp only [Option.some.injEq, Prod.mk.injEq] at h
      obtain ⟨rfl, rfl⟩ := h
      simp [List.isEmpty_iff.1 hn]
    · simp at h
  | cons c cs ih =>
    simp only [splitText] at h
    split at h
    · next rest hr =>
      simp only [Option.some.injEq, Prod.mk.injEq] at h
      obtain ⟨rfl, rfl⟩ := h
      simpa using behind?_eq_some.1 hr
    · obtain ⟨p, hp, hq⟩ := Option.map_eq_some_iff.1 h
      simp only [Prod.mk.injEq] at hq
      obtain ⟨rfl, rfl⟩ := hq
      rw [ih hp]
      simp

def splitAll (c : Char) : List Char → List (List Char)
  | [] => [[]]
  | d :: cs =>
    if d = c then [] :: splitAll c cs
    else
      match splitAll c cs with
      | [] => [[d]]
      | piece :: pieces => (d :: piece) :: pieces

def trimStart (cs : List Char) : List Char := cs.dropWhile isBlank

def trimEnd (cs : List Char) : List Char := (cs.reverse.dropWhile isBlank).reverse

def trim (cs : List Char) : List Char := trimEnd (trimStart cs)

def byteLength : List Char → Nat
  | [] => 0
  | c :: cs => c.utf8Size + byteLength cs

theorem byteLength_append (cs ds : List Char) :
    byteLength (cs ++ ds) = byteLength cs + byteLength ds := by
  induction cs with
  | nil => simp [byteLength]
  | cons c cs ih => simp [byteLength, ih, Nat.add_assoc]

def spaceSeparated (cs : List Char) : List (List Char) :=
  (cs.foldr (fun c pieces => if isSpace c then [] :: pieces else
    match pieces with
    | [] => [[c]]
    | piece :: pieces => (c :: piece) :: pieces) [[]]).filter (!·.isEmpty)

end LiveMarkup.Text

namespace String

def trimmed (s : String) : String := ofList (LiveMarkup.Text.trim s.toList)

def asciiLower (s : String) : String := s.map Char.toLower

end String
