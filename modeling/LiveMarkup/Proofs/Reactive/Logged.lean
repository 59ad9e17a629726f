import LiveMarkup.Proofs.Reactive.Paired
import LiveMarkup.Proofs.Reactive.Settling

/-!
Runs that keep a log. A logged script notes its requests and their answers, a logged delivery notes
what is told to whom and when it ends. The log lies in the memory, where only these notes reach it:
apart from it, worlds and results are the same as without.
-/

namespace LiveMarkup

open LiveMarkup.Expression

variable {σ : Type}

inductive Mark where
  | write (field : String) (value : Value)
  | answer (r : Except EvalError Bool)
  | announce (field : String)
  | announced (r : Except EvalError Unit)
  | opened (e : Event) (ids : List Nat)
  | told (id : Nat) (e : Event) (fields : Table Value)
  | heard (id : Nat) (r : Except EvalError Unit)
  | closed (r : Except EvalError Unit)
  | subscribed (id : Nat)
  | unsubscribed (id : Nat) (present : Bool)

abbrev Log := List Mark

def Script.mark (m : Mark) : Script (σ × Log) → Script (σ × Log) :=
  Script.note fun memory => (memory.1, memory.2 ++ [m])

def Script.logged : Script σ → Script (σ × Log)
  | .done result => .done result
  | .look next => .look fun fields => (next fields).logged
  | .write field value next =>
    mark (.write field value) (.write field value fun r => mark (.answer r) (next r).logged)
  | .announce field next =>
    mark (.announce field) (.announce field fun r => mark (.announced r) (next r).logged)
  | .subscribe body next =>
    .subscribe (fun e => (body e).logged) fun id => mark (.subscribed id) (next id).logged
  | .unsubscribe id next =>
    .unsubscribe id fun present => mark (.unsubscribed id present) (next present).logged
  | .recall next => .recall fun memory => (next memory.1).logged
  | .remember memory next => .note (fun m => (memory, m.2)) next.logged

def Methods.logged (methods : Methods σ) : Methods (σ × Log) :=
  Table.mapValues (fun method vs => (method vs).logged) methods

def Observer.logged : Observer σ → Observer (σ × Log)
  | .script body => .script fun e => (body e).logged
  | .directive methods tracked d => .directive methods.logged tracked d

def Store.logged (s : Store σ) : Store (σ × Log) :=
  ⟨s.fields, s.observers.map fun o => (o.1, o.2.logged), s.issued⟩

def World.logged (w : World σ) (log : Log) : World (σ × Log) :=
  ⟨w.store.logged, w.document, w.presences, (w.memory, log)⟩

def World.ids (w : World σ) : List Nat := w.store.observers.map Prod.fst

namespace Run

def mark (m : Mark) : Run (σ × Log) Unit :=
  modify fun w => { w with memory := (w.memory.1, w.memory.2 ++ [m]) }

def deliverLogged (emit : Emit (σ × Log)) (e : Event) :
    List (Nat × Observer (σ × Log)) → Act (σ × Log) Unit
  | [] => pure ()
  | o :: os => do
    let w ← Act.world
    Act.ofRun (mark (.told o.1 e w.store.fields))
    let first ← Act.attempt (receive emit e o.2)
    Act.ofRun (mark (.heard o.1 first))
    let others ← Act.attempt (deliverLogged emit e os)
    Act.ofResult (firstError first others)

def broadcastLogged : Nat → Emit (σ × Log)
  | 0 => fun _ => Act.ofRun failure
  | depth + 1 => fun e => do
    let w ← Act.world
    Act.ofRun (mark (.opened e w.ids))
    let r ← Act.attempt (deliverLogged (broadcastLogged depth) e w.store.observers)
    Act.ofRun (mark (.closed r))
    Act.ofResult r

end Run

theorem Table.find?_mapValues {α β : Type} (f : α → β) (name : String) (t : Table α) :
    (t.mapValues f).find? name = (t.find? name).map f := by
  induction t with
  | nil => rfl
  | cons e rest ih =>
    rw [mapValues, List.map_cons, find?, find?]
    split
    · rfl
    · exact ih

namespace World

variable (w : World σ) (log : Log)

theorem ids_logged : (w.logged log).ids = w.ids := by
  simp [ids, logged, Store.logged, Function.comp_def]

theorem logged_subscribe (o : Observer σ) :
    World.logged { w with store := w.store.subscribe o } log =
      { w.logged log with store := (w.logged log).store.subscribe o.logged } := by
  simp [logged, Store.logged, Store.subscribe]

theorem logged_unsubscribe (id : Nat) :
    World.logged { w with store := w.store.unsubscribe id } log =
      { w.logged log with store := (w.logged log).store.unsubscribe id } := by
  simp [logged, Store.logged, Store.unsubscribe, List.filter_map, Function.comp_def]

theorem isSubscribed_eq (id : Nat) : w.store.isSubscribed id = w.ids.contains id := by
  rw [Store.isSubscribed, ids, List.contains_eq_any_beq, List.any_map]
  exact congrArg (List.any _) (funext fun o => BEq.comm)

theorem isSubscribed_logged (id : Nat) :
    (w.logged log).store.isSubscribed id = w.store.isSubscribed id := by
  rw [isSubscribed_eq, isSubscribed_eq, ids_logged]

theorem logged_refreshed (i : Interpolation) :
    (w.refreshed i).logged log = (w.logged log).refreshed i := by
  have hg : (w.logged log).isGated i = w.isGated i := rfl
  unfold refreshed
  rw [hg]
  split <;> rfl

theorem logged_refreshAll (is : List Interpolation) :
    (is.foldl refreshed w).logged log = is.foldl refreshed (w.logged log) := by
  induction is generalizing w with
  | nil => rfl
  | cons i is ih => rw [List.foldl_cons, List.foldl_cons, ih, logged_refreshed]

theorem logged_settled (c : Conditional) (visible : Bool) :
    (w.settled c visible).logged log = (w.logged log).settled c visible := by
  have hp : (w.logged log).presence c.cell = w.presence c.cell := rfl
  cases visible <;> cases h : w.presence c.cell <;> simp only [settled, h, hp]
  · rfl
  · have hr := logged_refreshAll (w.setPresence c.cell .attached) log c.inside
    have hset : (w.setPresence c.cell .attached).logged log =
        (w.logged log).setPresence c.cell .attached := rfl
    rw [restored, restored, ← hset, ← hr]
    rfl

end World

section Ends

variable {α : Type} {w : World σ} {log : Log} {x : α}

theorem Run.ends_mark {m : Mark} {u : Unit} {v : World (σ × Log)} :
    Run.Ends (mark m) (w.logged log) u v ↔ v = w.logged (log ++ [m]) := Run.ends_modify

theorem Act.ends_mark_bind {m : Mark} {f : Unit → Act (σ × Log) α} {r : Except EvalError α}
    {v : World (σ × Log)} :
    Act.Ends (Act.ofRun (Run.mark m) >>= f) (w.logged log) r v ↔
      Act.Ends (f ()) (w.logged (log ++ [m])) r v := by
  rw [Act.ends_ofRun_bind]
  constructor
  · rintro ⟨_, w₁, hm, h⟩
    rwa [← Run.ends_mark.1 hm]
  · intro h
    exact ⟨(), _, Run.ends_mark.2 rfl, h⟩

theorem Script.ends_note {emit : Emit σ} {change : σ → σ} {s : Script σ}
    {r : Except EvalError Value} {w' : World σ} :
    Act.Ends ((s.note change).run emit) w r w' ↔
      Act.Ends (s.run emit) { w with memory := change w.memory } r w' := by
  refine Act.ends_world_bind.trans (Act.ends_ofRun_bind.trans ?_)
  constructor
  · rintro ⟨_, w₁, hm, h⟩
    rwa [← Run.ends_modify.1 hm]
  · intro h
    exact ⟨(), _, Run.ends_modify.2 rfl, h⟩

theorem Script.ends_mark {emit : Emit (σ × Log)} {m : Mark} {s : Script (σ × Log)}
    {r : Except EvalError Value} {v : World (σ × Log)} :
    Act.Ends ((s.mark m).run emit) (w.logged log) r v ↔
      Act.Ends (s.run emit) (w.logged (log ++ [m])) r v := Script.ends_note

end Ends

end LiveMarkup
