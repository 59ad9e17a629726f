import LiveMarkup.Session.Notes

/-!
Observers described by data. A watcher notes every event, and may react to it.
-/

namespace LiveMarkup.Session

open LiveMarkup.Expression

mutual

inductive Reaction where
  | nothing
  | fail (message : String)
  | set (field : String) (value : Value)
  | count (field : String) (limit : Float)
  | unsubscribe (watcher : String)
  | subscribe (other : Watcher)

inductive Watcher where
  | mk (name : String) (on : Option String) (reaction : Reaction)

end

def Watcher.name : Watcher → String
  | .mk name _ _ => name

def finished : Script Notes := .give .undefined

def writeAndFinish (field : String) (value : Value) : Script Notes :=
  .writeThen field value .undefined

def countUp (field : String) (limit : Float) : Script Notes :=
  .read field fun v =>
    let next := v.toNumber + 1
    if next ≤ limit then writeAndFinish field (.number next) else finished

def unsubscribeNamed (watcher : String) (next : Option Bool → Script Notes) : Script Notes :=
  .recall fun notes =>
    match notes.watchers.find? watcher with
    | none => next none
    | some id => .unsubscribe id fun present => next (some present)

def isOn (on : Option String) (e : Event) : Bool :=
  match on with
  | none => true
  | some field => field == e.field

mutual

def Reaction.script (name : String) : Reaction → Script Notes
  | .nothing => finished
  | .fail message => .fail (.method name message)
  | .set field value => writeAndFinish field value
  | .count field limit => countUp field limit
  | .unsubscribe watcher =>
    unsubscribeNamed watcher fun r => .note (Notes.add (.unsubscribed r)) finished
  | .subscribe other =>
    .subscribe other.body fun id => .note (Notes.name other.name id) finished

def Watcher.body : Watcher → Event → Script Notes
  | .mk name on reaction => fun e =>
    .note (Notes.add (.event name e)) (if isOn on e then reaction.script name else finished)

end

def Watcher.subscribe (w : Watcher) : Script Notes :=
  .subscribe w.body fun id => .note (Notes.name w.name id) finished

end LiveMarkup.Session
