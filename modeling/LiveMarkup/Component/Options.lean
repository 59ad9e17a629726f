/-!
Options of directives: which attributes make an element conditional or clickable, and what encloses a
placeholder.
-/

namespace LiveMarkup

structure DirectiveOptions where
  showIf : String
  onClick : String
  opening : String
  closing : String
  deriving DecidableEq, Repr

def DirectiveOptions.default : DirectiveOptions :=
  ⟨"show-if", "on-click", "\x7b\x7b", "\x7d\x7d"⟩

end LiveMarkup
