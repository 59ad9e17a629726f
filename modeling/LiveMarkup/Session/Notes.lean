import LiveMarkup.Reactive.Script

/-!
What the scripts of a session keep in mind: a record of what happened, and the numbers of observers by
name.
-/

namespace LiveMarkup.Session

inductive Entry where
  | read (field : String)
  | call (method : String) (arguments : List Value)
  | event (watcher : String) (e : Event)
  | unsubscribed (result : Option Bool)
  deriving Repr

structure Notes where
  record : List Entry
  watchers : Table Nat
  deriving Repr

namespace Notes

def empty : Notes := ⟨[], []⟩

def add (e : Entry) (n : Notes) : Notes := { n with record := n.record ++ [e] }

def name (watcher : String) (id : Nat) (n : Notes) : Notes :=
  { n with watchers := n.watchers.insert watcher id }

end Notes

end LiveMarkup.Session
