import LiveMarkup.Expression.Evaluate
import LiveMarkup.Expression.Reads

/-!
Text with placeholders. A placeholder is an opening delimiter, a bare word and a closing delimiter
with nothing in between; all other text stays as it is.
-/

namespace LiveMarkup

open LiveMarkup.Text LiveMarkup.Expression

inductive TemplatePart where
  | text (s : String)
  | field (name : String)
  deriving DecidableEq, Repr

namespace TemplatePart

def placeholder? (opening closing cs : List Char) : Option (List Char × List Char) :=
  match behind? opening cs with
  | none => none
  | some inner =>
    match splitText closing inner with
    | some (word, rest) => if isWord word then some (word, rest) else none
    | none => none

theorem placeholder?_eq_some {opening closing cs word rest : List Char}
    (h : placeholder? opening closing cs = some (word, rest)) :
    cs = opening ++ word ++ closing ++ rest ∧ isWord word = true := by
  unfold placeholder? at h
  split at h
  · simp at h
  · next inner hi =>
    split at h
    · next w r hs =>
      split at h
      · next hw =>
        simp only [Option.some.injEq, Prod.mk.injEq] at h
        obtain ⟨rfl, rfl⟩ := h
        refine ⟨?_, hw⟩
        rw [behind?_eq_some.1 hi, splitText_eq_some hs]
        simp
      · simp at h
    · simp at h

theorem placeholder?_length {opening closing cs word rest : List Char}
    (h : placeholder? opening closing cs = some (word, rest)) : rest.length < cs.length := by
  obtain ⟨rfl, hw⟩ := placeholder?_eq_some h
  cases word with
  | nil => simp [isWord] at hw
  | cons c word => simp; omega

def addChar (c : Char) : List TemplatePart → List TemplatePart
  | .text s :: parts => .text (String.ofList (c :: s.toList)) :: parts
  | parts => .text (String.ofList [c]) :: parts

def scan (opening closing : List Char) : List Char → List TemplatePart
  | [] => []
  | c :: cs =>
    match _h : placeholder? opening closing (c :: cs) with
    | some (word, rest) => .field (String.ofList word) :: scan opening closing rest
    | none => addChar c (scan opening closing cs)
termination_by cs => cs.length
decreasing_by
  · exact placeholder?_length ‹_›
  · simp

/-- The parts of a text; an empty delimiter marks no placeholder. -/
def split (opening closing text : String) : List TemplatePart :=
  if opening.isEmpty || closing.isEmpty then (if text.isEmpty then [] else [.text text])
  else scan opening.toList closing.toList text.toList

def isField : TemplatePart → Bool
  | .text _ => false
  | .field _ => true

def hasPlaceholder (opening closing text : String) : Bool :=
  (split opening closing text).any isField

end TemplatePart

structure Template where
  parts : List TemplatePart
  deriving DecidableEq, Repr

namespace Template

def ofText? (opening closing text : String) : Option Template :=
  if TemplatePart.hasPlaceholder opening closing text then
    some ⟨TemplatePart.split opening closing text⟩
  else none

theorem isSome_ofText? (opening closing text : String) :
    (ofText? opening closing text).isSome = TemplatePart.hasPlaceholder opening closing text := by
  rw [ofText?]
  cases TemplatePart.hasPlaceholder opening closing text <;> rfl

def addReads (r : Reads) : TemplatePart → Reads
  | .text _ => r
  | .field name => r.insert name

def reads (t : Template) : Reads := t.parts.foldl addReads Reads.none

variable {m : Type → Type} [Monad m]

def renderParts (field : String → m Value) : List TemplatePart → m String
  | [] => pure ""
  | .text t :: parts => do
    let rest ← renderParts field parts
    pure (t ++ rest)
  | .field name :: parts => do
    let v ← field name
    let rest ← renderParts field parts
    pure (v.display ++ rest)

def render (t : Template) (field : String → m Value) : m String := renderParts field t.parts

def escapeBacktick (c : Char) : List Char := if c = '\x60' then ['\\', c] else [c]

def partSource : TemplatePart → String
  | .text t => String.ofList (t.toList.flatMap escapeBacktick)
  | .field name => "$\x7b" ++ fieldText name ++ "\x7d"

def toSource (t : Template) : String :=
  "\x60" ++ String.join (t.parts.map partSource) ++ "\x60"

end Template

end LiveMarkup
