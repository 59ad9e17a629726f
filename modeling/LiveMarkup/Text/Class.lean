/-!
Character classes. A word is made of ASCII letters, digits and underscores; markup knows five
spaces, trimming removes everything with the Unicode property White_Space.
-/

namespace LiveMarkup.Text

def isWordChar (c : Char) : Bool := c.isAlphanum || c == '_'

def isSpace (c : Char) : Bool :=
  c == ' ' || c == '\n' || c == '\t' || c == '\r' || c == '\x0c'

def blankRanges : List (Nat × Nat) :=
  [(0x09, 0x0D), (0x20, 0x20), (0x85, 0x85), (0xA0, 0xA0), (0x1680, 0x1680), (0x2000, 0x200A),
   (0x2028, 0x2029), (0x202F, 0x202F), (0x205F, 0x205F), (0x3000, 0x3000)]

def isBlank (c : Char) : Bool := blankRanges.any fun r => r.1 ≤ c.toNat && c.toNat ≤ r.2

theorem isBlank_of_isSpace {c : Char} (h : isSpace c = true) : isBlank c = true := by
  simp only [isSpace, Bool.or_eq_true, beq_iff_eq] at h
  rcases h with (((rfl | rfl) | rfl) | rfl) | rfl <;> decide

theorem isWordChar_of_isDigit {c : Char} (h : c.isDigit = true) : isWordChar c = true := by
  simp [isWordChar, Char.isAlphanum, h]

theorem not_isSpace_of_isWordChar {c : Char} (h : isWordChar c = true) : isSpace c = false := by
  cases hs : isSpace c with
  | false => rfl
  | true =>
    simp only [isSpace, Bool.or_eq_true, beq_iff_eq] at hs
    rcases hs with (((rfl | rfl) | rfl) | rfl) | rfl <;> exact absurd h (by decide)

def isWord (cs : List Char) : Bool := !cs.isEmpty && cs.all isWordChar

def isInteger (cs : List Char) : Bool := !cs.isEmpty && cs.all Char.isDigit

theorem isWord_of_isInteger {cs : List Char} (h : isInteger cs = true) : isWord cs = true := by
  simp only [isInteger, isWord, Bool.and_eq_true, List.all_eq_true] at h ⊢
  exact ⟨h.1, fun c hc => isWordChar_of_isDigit (h.2 c hc)⟩

/-- A single-quoted literal: a quote at either end, and not the same one. -/
def isQuoted (cs : List Char) : Bool :=
  2 ≤ cs.length && cs.head? == some '\x27' && cs.getLast? == some '\x27'

end LiveMarkup.Text
