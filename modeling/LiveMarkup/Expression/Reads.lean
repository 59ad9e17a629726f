import LiveMarkup.Expression.Node

/-!
The fields that an expression may read, as far as its nodes tell. A method may read any.
-/

namespace LiveMarkup.Expression

/-- The names are in increasing order, each once. -/
inductive Reads where
  | any
  | only (names : List String)
  deriving DecidableEq, Repr

namespace Reads

def none : Reads := .only []

def insertName (name : String) : List String → List String
  | [] => [name]
  | n :: ns =>
    if name < n then name :: n :: ns
    else if name = n then n :: ns
    else n :: insertName name ns

theorem mem_insertName {name other : String} {ns : List String} :
    other ∈ insertName name ns ↔ other = name ∨ other ∈ ns := by
  induction ns with
  | nil => simp [insertName]
  | cons n ns ih =>
    simp only [insertName]
    split
    · simp
    · split
      · next h => subst h; simp
      · simp only [List.mem_cons, ih]
        exact ⟨fun h => by rcases h with h | h | h <;> simp [h],
          fun h => by rcases h with h | h | h <;> simp [h]⟩

def insert (name : String) : Reads → Reads
  | .any => .any
  | .only ns => .only (insertName name ns)

def includes (name : String) : Reads → Bool
  | .any => true
  | .only ns => ns.contains name

theorem includes_insert {name other : String} {r : Reads} :
    (r.insert name).includes other = (other == name || r.includes other) := by
  cases r with
  | any => simp [insert, includes]
  | only ns =>
    simp only [insert, includes]
    rw [Bool.eq_iff_iff]
    simp [mem_insertName]

def names? : Reads → Option (List String)
  | .any => Option.none
  | .only ns => some ns

def addNode (r : Reads) : Node → Reads
  | .call .. => .any
  | .field name _ => r.insert name
  | _ => r

def ofNodes (ns : List Node) : Reads := ns.foldl addNode none

end Reads

end LiveMarkup.Expression
