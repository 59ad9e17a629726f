import LiveMarkup.Reactive.Directive
import LiveMarkup.Reactive.Script

/-!
Stores of fields with their observers, and the world that observers act on: a store, the document,
the presence of conditional elements, and the memory of scripts.
-/

namespace LiveMarkup

inductive Observer (σ : Type) where
  | script (body : Event → Script σ)
  /-- A directive with the methods it may call; a tracked one hears only of fields it may read. -/
  | directive (methods : Methods σ) (tracked : Bool) (d : Directive)

structure Store (σ : Type) where
  fields : Table Value
  observers : List (Nat × Observer σ)
  issued : Nat

namespace Store

variable {σ : Type}

def ofFields (fields : Table Value) : Store σ := ⟨fields, [], 0⟩

def fieldsOfJson : Json → Table Value
  | .object entries => Table.mapValues Value.ofJson entries
  | _ => []

def ofJson (data : Json) : Store σ := ofFields (fieldsOfJson data)

def jsonOfFields (fields : Table Value) : Json := .object (Table.mapValues Value.toJson fields)

def toJson (s : Store σ) : Json := jsonOfFields s.fields

def get (s : Store σ) (field : String) : Value := Script.fieldOf s.fields field

def contains (s : Store σ) (field : String) : Bool := s.fields.contains field

def holds (s : Store σ) (field : String) (value : Value) : Bool := (s.get field).strictEq value

def put (s : Store σ) (field : String) (value : Value) : Store σ :=
  { s with fields := s.fields.insert field value }

def subscribe (s : Store σ) (o : Observer σ) : Store σ :=
  { s with observers := s.observers ++ [(s.issued, o)], issued := s.issued + 1 }

def isSubscribed (s : Store σ) (id : Nat) : Bool := s.observers.any (·.1 == id)

def unsubscribe (s : Store σ) (id : Nat) : Store σ :=
  { s with observers := s.observers.filter (·.1 != id) }

end Store

structure World (σ : Type) where
  store : Store σ
  document : Document
  presences : Array Presence
  memory : σ

namespace World

variable {σ : Type}

def presence (w : World σ) (cell : CellId) : Presence := w.presences.getD cell .attached

def setPresence (w : World σ) (cell : CellId) (p : Presence) : World σ :=
  { w with presences := w.presences.setIfInBounds cell p }

def isGated (w : World σ) (i : Interpolation) : Bool :=
  i.gates.any fun cell => w.presence cell == .detached

end World

end LiveMarkup
