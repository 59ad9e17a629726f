import LiveMarkup.Markup.CharacterReference
import LiveMarkup.Markup.Scan

/-!
Trees of markup. A label of any kind sits on every node: none on a tree read from text, a number on a
tree that belongs to a document.
-/

namespace LiveMarkup.Markup

open LiveMarkup.Text

abbrev Attributes := List (String × String)

namespace Attributes

def find? (name : String) (as : Attributes) : Option String :=
  (List.find? (·.1 == name) as).map (·.2)

def set (name value : String) : Attributes → Attributes
  | [] => [(name, value)]
  | a :: as => if a.1 == name then (a.1, value) :: as else a :: set name value as

def remove (name : String) (as : Attributes) : Attributes := as.eraseP (·.1 == name)

end Attributes

inductive Branch (ι : Type) where
  | element (label : ι) (tag : String) (attributes : Attributes) (children : List (Branch ι))
  | text (label : ι) (data : String)
  | comment (label : ι) (data : String)
  deriving Repr, Inhabited

abbrev Forest (ι : Type) := List (Branch ι)

def voidTags : List String :=
  ["area", "base", "br", "col", "embed", "hr", "img", "input", "link", "meta", "param", "source",
   "track", "wbr"]

def isVoid (tag : String) : Bool := voidTags.contains tag

def printAttribute (a : String × String) : List Char :=
  ' ' :: a.1.toList ++
    if a.2.isEmpty then [] else '=' :: '"' :: escapeAttribute a.2.toList ++ ['"']

def printStart (tag : String) (attributes : Attributes) : List Char :=
  '<' :: tag.toList ++ attributes.flatMap printAttribute ++ ['>']

def printEnd (tag : String) : List Char := '<' :: '/' :: tag.toList ++ ['>']

mutual

def Branch.print {ι : Type} : Branch ι → List Char
  | .element _ tag attributes children =>
    printStart tag attributes ++ if isVoid tag then [] else Forest.print children ++ printEnd tag
  | .text _ data => escapeText data.toList
  | .comment _ data => '<' :: '!' :: '-' :: '-' :: data.toList ++ commentEnd

def Forest.print {ι : Type} : Forest ι → List Char
  | [] => []
  | b :: bs => Branch.print b ++ Forest.print bs

end

mutual

def Branch.textContent {ι : Type} : Branch ι → String
  | .element _ _ _ children => Forest.textContent children
  | .text _ data => data
  | .comment _ _ => ""

def Forest.textContent {ι : Type} : Forest ι → String
  | [] => ""
  | b :: bs => Branch.textContent b ++ Forest.textContent bs

end

mutual

def Branch.size {ι : Type} : Branch ι → Nat
  | .element _ _ _ children => 1 + Forest.size children
  | .text _ _ => 1
  | .comment _ _ => 1

def Forest.size {ι : Type} : Forest ι → Nat
  | [] => 0
  | b :: bs => Branch.size b + Forest.size bs

end

def Branch.label {ι : Type} : Branch ι → ι
  | .element label _ _ _ => label
  | .text label _ => label
  | .comment label _ => label

def Branch.isElement {ι : Type} : Branch ι → Bool
  | .element .. => true
  | _ => false

structure Frame where
  tag : String
  attributes : Attributes
  earlier : Forest Unit
  deriving Repr

/-- A tree half read: the finished children of the innermost open element, last first, and the open
elements, innermost first. -/
structure Unfinished where
  finished : Forest Unit
  frames : List Frame
  deriving Repr

namespace Unfinished

def closeFrame (f : Frame) (finished : Forest Unit) : Forest Unit :=
  .element () f.tag f.attributes finished.reverse :: f.earlier

def closeThrough? (tag : String) (finished : Forest Unit) : List Frame → Option Unfinished
  | [] => none
  | f :: fs =>
    if f.tag = tag then some ⟨closeFrame f finished, fs⟩
    else closeThrough? tag (closeFrame f finished) fs

def closeAll (finished : Forest Unit) : List Frame → Forest Unit
  | [] => finished.reverse
  | f :: fs => closeAll (closeFrame f finished) fs

def push (p : Unfinished) (b : Branch Unit) : Unfinished := { p with finished := b :: p.finished }

/-- Attributes with their names in lower case; of two with one name the first stays. -/
def attributes (written : List WrittenAttribute) : Attributes :=
  written.foldl (fun as w =>
    let name := w.1.asciiLower
    if as.any (·.1 == name) then as
    else as ++ [(name, String.ofList (unescape (w.2.getD "").toList))]) []

def add (p : Unfinished) : Item → Unfinished
  | .text s => p.push (.text () (String.ofList (unescape s.toList)))
  | .comment body => p.push (.comment () body)
  | .start name written selfClosing =>
    let tag := name.asciiLower
    if selfClosing || isVoid tag then p.push (.element () tag (attributes written) [])
    else ⟨[], ⟨tag, attributes written, p.finished⟩ :: p.frames⟩
  | .stop name =>
    let tag := name.asciiLower
    if isVoid tag then p else (closeThrough? tag p.finished p.frames).getD p

def finish (p : Unfinished) : Forest Unit := closeAll p.finished p.frames

end Unfinished

def Forest.ofItems (is : List Item) : Forest Unit := (is.foldl Unfinished.add ⟨[], []⟩).finish

def Forest.parse (source : String) : Forest Unit := Forest.ofItems (scan source)

end LiveMarkup.Markup
