import LiveMarkup.Proofs.Reactive.Record
import Mathlib.Data.Finset.Card
import Mathlib.Data.Finset.Filter

/-!
Feedback dies out. Observers may write in answer to writes, but if all of them write the same values,
each write that is told to them leaves one field fewer to be written.
-/

namespace LiveMarkup

open LiveMarkup.Expression

variable {σ α β : Type}

structure Target where
  fields : Finset String
  value : String → Value
  equal : ∀ f ∈ fields, (value f).strictEq (value f) = true

def Script.Heeds (t : Target) : Script σ → Prop
  | .done _ => True
  | .look next => ∀ fields, (next fields).Heeds t
  | .write field value next => field ∈ t.fields ∧ value = t.value field ∧ ∀ r, (next r).Heeds t
  | .recall next => ∀ memory, (next memory).Heeds t
  | .remember _ next => next.Heeds t
  | .announce _ _ => False
  | .subscribe _ _ => False
  | .unsubscribe _ _ => False

def Methods.HeedsAt (t : Target) (methods : Methods σ) (name : String) : Prop :=
  ∀ method, methods.find? name = some method → ∀ vs, (method vs).Heeds t

def Observer.Heeds (t : Target) : Observer σ → Prop
  | .script body => ∀ e, (body e).Heeds t
  | .directive methods _ d => d.Calls (methods.HeedsAt t)

def World.Heeds (t : Target) (w : World σ) : Prop := ∀ o ∈ w.store.observers, o.2.Heeds t

namespace Mark

def isOpened : Mark → Bool
  | .opened _ _ => true
  | _ => false

def isTold (id : Nat) : Mark → Bool
  | .told other _ _ => other == id
  | _ => false

end Mark

namespace Log

def broadcasts (l : Log) : Nat := l.countP Mark.isOpened

def turns (id : Nat) (l : Log) : Nat := l.countP (Mark.isTold id)

@[simp] theorem broadcasts_nil : broadcasts [] = 0 := rfl

@[simp] theorem broadcasts_cons (m : Mark) (l : Log) :
    broadcasts (m :: l) = broadcasts l + if m.isOpened then 1 else 0 := List.countP_cons

@[simp] theorem broadcasts_append (l l' : Log) :
    broadcasts (l ++ l') = broadcasts l + broadcasts l' := List.countP_append

variable (id : Nat)

@[simp] theorem turns_nil : turns id [] = 0 := rfl

@[simp] theorem turns_cons (m : Mark) (l : Log) :
    turns id (m :: l) = turns id l + if m.isTold id then 1 else 0 := List.countP_cons

@[simp] theorem turns_append (l l' : Log) : turns id (l ++ l') = turns id l + turns id l' :=
  List.countP_append

end Log

theorem Store.holds_put (s : Store σ) (field other : String) (value x : Value) :
    (s.put field value).holds other x =
      if other = field then value.strictEq x else s.holds other x := by
  unfold holds get put Script.fieldOf
  rw [Table.find?_insert]
  split <;> rfl

namespace Target

variable (t : Target)

def pending (s : Store σ) : Nat := (t.fields.filter fun f => s.holds f (t.value f) = false).card

theorem pending_put {s : Store σ} {field : String} (hmem : field ∈ t.fields)
    (h : s.holds field (t.value field) = false) :
    t.pending (s.put field (t.value field)) < t.pending s := by
  have hself : (s.put field (t.value field)).holds field (t.value field) = true := by
    rw [Store.holds_put, if_pos rfl]
    exact t.equal field hmem
  refine Finset.card_lt_card (Finset.ssubset_iff_of_subset ?_ |>.2 ⟨field, ?_, ?_⟩)
  · intro f hf
    obtain ⟨hf, hnot⟩ := Finset.mem_filter.1 hf
    have hne : f ≠ field := by
      rintro rfl
      simp [hself] at hnot
    rw [Store.holds_put, if_neg hne] at hnot
    exact Finset.mem_filter.2 ⟨hf, hnot⟩
  · exact Finset.mem_filter.2 ⟨hmem, h⟩
  · simp [hself]

theorem pending_le_put (s : Store σ) (field : String) (value : Value) :
    t.pending s ≤ t.pending (s.put field value) + 1 := by
  have hothers : (t.fields.filter fun f => s.holds f (t.value f) = false) ⊆
      insert field (t.fields.filter fun f => (s.put field value).holds f (t.value f) = false) := by
    intro f hf
    by_cases h : f = field
    · exact Finset.mem_insert.2 (.inl h)
    · refine Finset.mem_insert_of_mem (Finset.mem_filter.2 ⟨(Finset.mem_filter.1 hf).1, ?_⟩)
      rw [Store.holds_put, if_neg h]
      exact (Finset.mem_filter.1 hf).2
  exact (Finset.card_le_card hothers).trans (Finset.card_insert_le ..)

/-- From one world to another: every broadcast that is noted is paid from the budget, and what is
pending in the end is left of it. In a broadcast each observer has one turn, and those that are told
have another one. -/
structure Spends (budget : Nat) (told : List Nat) (w w' : World σ) (l : Log) : Prop where
  observers : w'.store.observers = w.store.observers
  paid : l.broadcasts + t.pending w'.store ≤ budget
  turns : ∀ id, l.turns id = told.count id + w.ids.count id * l.broadcasts

namespace Spends

variable {t} {budget budget' : Nat} {told told' : List Nat} {u v w w' : World σ} {l l' : Log}

theorem ids (h : t.Spends budget told w w' l) : w'.ids = w.ids :=
  congrArg (List.map Prod.fst) h.observers

theorem heeds (h : t.Spends budget told w w' l) (hw : w.Heeds t) : w'.Heeds t := by
  intro o ho
  exact hw o (h.observers ▸ ho)

theorem of_store (h : w'.store = w.store) : t.Spends (t.pending w.store) [] w w' [] where
  observers := by rw [h]
  paid := by simp [h]
  turns := by simp

theorem mono (h : t.Spends budget told w w' l) (hb : budget ≤ budget') :
    t.Spends budget' told w w' l := ⟨h.observers, h.paid.trans hb, h.turns⟩

theorem append (h : t.Spends budget told u v l)
    (h' : t.Spends (t.pending v.store) told' v w l') :
    t.Spends budget (told ++ told') u w (l ++ l') where
  observers := h'.observers.trans h.observers
  paid := by
    have hfirst := h.paid
    have hrest := h'.paid
    rw [Log.broadcasts_append]
    omega
  turns id := by
    rw [Log.turns_append, Log.broadcasts_append, h.turns, h'.turns, h.ids, List.count_append,
      Nat.mul_add]
    omega

theorem note {m : Mark} (w : World σ) (hm : m.isOpened = false) (hid : ∀ id, m.isTold id = false) :
    t.Spends (t.pending w.store) [] w w [m] where
  observers := rfl
  paid := by simp [hm]
  turns := by simp [hm, hid]

theorem turn (w : World σ) (id : Nat) (e : Event) (fields : Table Value) :
    t.Spends (t.pending w.store) [id] w w [.told id e fields] where
  observers := rfl
  paid := by simp [Mark.isOpened]
  turns := by simp [Mark.isOpened, Mark.isTold, List.count_cons]

theorem broadcast {e : Event} {r : Except EvalError Unit}
    (h : t.Spends (t.pending w.store) w.ids w w' l) :
    t.Spends (t.pending w.store + 1) [] w w' (.opened e w.ids :: (l ++ [.closed r])) where
  observers := h.observers
  paid := by
    have hpaid := h.paid
    simp [Mark.isOpened]
    omega
  turns id := by
    simp [Mark.isOpened, Mark.isTold, h.turns, Nat.mul_add]
    omega

end Spends

variable {t} {n : Nat}

/-- Both runs come to one end, but for a log that spends no more than it may. -/
def Accounts (t : Target) (budget : Nat) (told : List Nat) (w : World σ) (a : Run σ α)
    (b : Run (σ × Log) α) : Prop :=
  ∃ x w' l, Run.Ends a w x w' ∧ (∀ log, Run.Ends b (w.logged log) x (w'.logged (log ++ l))) ∧
    t.Spends budget told w w' l

theorem Accounts.of_map {a : Run σ α} {b : Run (σ × Log) α} {w w' : World σ} {x : α}
    (ha : Run.Ends a w x w') (hb : ∀ log, Run.Ends b (w.logged log) x (w'.logged log))
    (hstore : w'.store = w.store) : t.Accounts (t.pending w.store) [] w a b := by
  refine ⟨x, w', [], ha, fun log => ?_, .of_store hstore⟩
  rw [List.append_nil]
  exact hb log

theorem Accounts.pure (t : Target) (w : World σ) (x : α) :
    t.Accounts (t.pending w.store) [] w (pure x) (pure x) :=
  .of_map (Run.ends_pure.2 ⟨rfl, rfl⟩) (fun _ => Run.ends_pure.2 ⟨rfl, rfl⟩) rfl

theorem Accounts.mono {budget budget' : Nat} {told : List Nat} {w : World σ} {a : Run σ α}
    {b : Run (σ × Log) α} (h : t.Accounts budget told w a b) (hb : budget ≤ budget') :
    t.Accounts budget' told w a b := by
  obtain ⟨x, w', l, ha, hlogged, hs⟩ := h
  exact ⟨x, w', l, ha, hlogged, hs.mono hb⟩

theorem Accounts.bind {a : Run σ α} {b : Run (σ × Log) α} {f : α → Run σ β}
    {g : α → Run (σ × Log) β} {w : World σ} {budget : Nat} {told told' : List Nat}
    (hab : t.Accounts budget told w a b)
    (hfg : ∀ x w₁, w₁.store.observers = w.store.observers → t.pending w₁.store ≤ budget →
      t.Accounts (t.pending w₁.store) told' w₁ (f x) (g x)) :
    t.Accounts budget (told ++ told') w (a >>= f) (b >>= g) := by
  obtain ⟨x, w₁, l, ha, hb, hs⟩ := hab
  obtain ⟨y, w', l', hf, hg, hs'⟩ := hfg x w₁ hs.observers (Nat.le_of_add_left_le hs.paid)
  refine ⟨y, w', l ++ l', Run.ends_bind.2 ⟨x, w₁, ha, hf⟩, fun log => ?_, hs.append hs'⟩
  rw [← List.append_assoc]
  exact Run.ends_bind.2 ⟨x, _, hb log, hg _⟩

def heeding (t : Target) (n : Nat) : Pairing σ (σ × Log) where
  Rel a b := ∀ w, w.Heeds t → t.pending w.store ≤ n → t.Accounts (t.pending w.store) [] w a b
  pure x w _ _ := .pure t w x
  bind hab hfg w hw hn := by
    refine (hab w hw hn).bind fun x w₁ ho hn₁ => hfg x w₁ ?_ (hn₁.trans hn)
    intro o hmem
    exact hw o (ho ▸ hmem)

def Tells (t : Target) (n : Nat) (emit : Emit σ) (emitLogged : Emit (σ × Log)) : Prop :=
  ∀ e w, w.Heeds t → t.pending w.store < n →
    t.Accounts (t.pending w.store + 1) [] w (emit e).run (emitLogged e).run

section Emit

variable {emit : Emit σ} {emitLogged : Emit (σ × Log)}

theorem accounts_kept (t : Target) {field : String} {value : Value} {w : World σ}
    (h : w.store.holds field value = true) :
    t.Accounts (t.pending w.store) [] w (Run.setField emit field value).run
      (Run.setField emitLogged field value).run := by
  have hlogged (log : Log) : (w.logged log).store.holds field value = true := h
  refine .of_map (x := .ok false) (Run.ends_setField.2 ?_) (fun log => Run.ends_setField.2 ?_) rfl
  · rw [if_pos h]
    exact ⟨rfl, rfl⟩
  · rw [if_pos (hlogged log)]
    exact ⟨rfl, rfl⟩

variable (hemit : t.Tells n emit emitLogged)

include hemit

theorem Tells.put {field : String} {value : Value} {w : World σ} (hw : w.Heeds t)
    (h : w.store.holds field value = false) (hn : t.pending (w.store.put field value) < n) :
    t.Accounts (t.pending (w.store.put field value) + 1) [] w
      (Run.setField emit field value).run (Run.setField emitLogged field value).run := by
  have hnot : ¬w.store.holds field value = true := by simp [h]
  have hlogged (log : Log) : ¬(w.logged log).store.holds field value = true := hnot
  have htell : t.Accounts (t.pending (w.store.put field value) + 1) []
      { w with store := w.store.put field value } (emit ⟨field, value⟩ >>= fun _ => pure true).run
      (emitLogged ⟨field, value⟩ >>= fun _ => pure true).run := by
    refine (hemit ⟨field, value⟩ { w with store := w.store.put field value } hw hn).bind ?_
    intro r w₁ _ _
    cases r <;> exact .pure t w₁ _
  obtain ⟨r, w', l, ha, hb, hs⟩ := htell
  refine ⟨r, w', l, Run.ends_setField.2 ?_, fun log => Run.ends_setField.2 ?_,
    hs.observers, hs.paid, hs.turns⟩
  · rw [if_neg hnot]
    exact ha
  · rw [if_neg (hlogged log)]
    exact hb log

theorem Tells.steer {field : String} {w : World σ} (hw : w.Heeds t) (hn : t.pending w.store ≤ n)
    (hmem : field ∈ t.fields) : t.Accounts (t.pending w.store) [] w
      (Run.setField emit field (t.value field)).run
      (Run.setField emitLogged field (t.value field)).run := by
  cases h : w.store.holds field (t.value field) with
  | true => exact accounts_kept t h
  | false =>
    have hless := t.pending_put hmem h
    exact (hemit.put hw h (Nat.lt_of_lt_of_le hless hn)).mono hless

theorem Tells.script {s : Script σ} (hs : s.Heeds t) :
    (heeding t n).Acts (s.run emit) (s.logged.run emitLogged) := by
  intro w hw hn
  induction s generalizing w with
  | done result => exact (heeding t n).acts_ofResult result w hw hn
  | look next ih =>
    obtain ⟨r, w', l, ha, hb, hspends⟩ := ih w.store.fields (hs _) w hw hn
    exact ⟨r, w', l, Act.ends_world_bind.2 ha, fun log => Act.ends_world_bind.2 (hb log), hspends⟩
  | write field value next ih =>
    obtain ⟨hmem, rfl, hnext⟩ := hs
    obtain ⟨x, w₁, l, ha, hb, hspends⟩ := hemit.steer hw hn hmem
    have hn₁ : t.pending w₁.store ≤ n := (Nat.le_of_add_left_le hspends.paid).trans hn
    obtain ⟨r, w', l', ha', hb', hspends'⟩ := ih x (hnext x) w₁ (hspends.heeds hw) hn₁
    have hasked : t.Spends _ [] w w [.write field (t.value field)] := .note w rfl fun _ => rfl
    have hanswered : t.Spends _ [] w₁ w₁ [.answer x] := .note w₁ rfl fun _ => rfl
    refine ⟨r, w', _, Act.ends_attempt_bind.2 ⟨x, w₁, ha, ha'⟩, fun log => ?_,
      hasked.append (hspends.append (hanswered.append hspends'))⟩
    have hrest : Act.Ends _ _ r _ := hb' (log ++ [.write field (t.value field)] ++ l ++ [.answer x])
    refine Script.ends_mark.2 (Act.ends_attempt_bind.2 ⟨x, _, hb _, Script.ends_mark.2 ?_⟩)
    simpa using hrest
  | «recall» next ih =>
    obtain ⟨r, w', l, ha, hb, hspends⟩ := ih w.memory (hs _) w hw hn
    exact ⟨r, w', l, Act.ends_world_bind.2 ha, fun log => Act.ends_world_bind.2 (hb log), hspends⟩
  | remember memory next ih =>
    obtain ⟨r, w', l, ha, hb, hspends⟩ := ih hs { w with memory := memory } hw hn
    refine ⟨r, w', l, Act.ends_ofRun_bind.2 ⟨(), _, Run.ends_modify.2 rfl, ha⟩,
      fun log => Script.ends_note.2 (hb log), hspends.observers, hspends.paid, hspends.turns⟩
  | announce field next ih => exact hs.elim
  | subscribe body next _ ih => exact hs.elim
  | unsubscribe id next ih => exact hs.elim

theorem Tells.call {methods : Methods σ} {name : String} (hm : methods.HeedsAt t name)
    (vs : List Value) : (heeding t n).Acts ((Run.scope emit methods).call name vs)
      ((Run.scope emitLogged methods.logged).call name vs) := by
  simp only [Run.scope, Methods.logged, Table.find?_mapValues]
  cases h : methods.find? name with
  | none => exact (heeding t n).acts_throw _
  | some method => exact hemit.script (hm method h vs)

theorem Tells.update {methods : Methods σ} {d : Directive} (hd : d.Calls (methods.HeedsAt t)) :
    (heeding t n).Acts (Run.update emit methods d) (Run.update emitLogged methods.logged d) := by
  cases d with
  | interpolation i =>
    refine (heeding t n).acts_ofRun fun w _ _ => ?_
    refine .of_map (x := ()) (Run.ends_refreshUngated.2 rfl) (fun log => ?_)
      (w.reshapes_refreshed i).store
    exact Run.ends_refreshUngated.2 (w.logged_refreshed log i)
  | conditional c =>
    have hfield (name : String) : (heeding t n).Rel ((Run.scope emit methods).field name)
        ((Run.scope emitLogged methods.logged).field name) := by
      intro w _ _
      exact .of_map (Run.ends_getField.2 ⟨rfl, rfl⟩) (fun _ => Run.ends_getField.2 ⟨rfl, rfl⟩) rfl
    have hpredicate := (heeding t n).lockstep.evaluate_tree (fun name (_ : True) => hfield name)
      (fun name vs hname => hemit.call hname vs) hd
    refine (heeding t n).acts_bind hpredicate fun v => (heeding t n).acts_ofRun fun w _ _ => ?_
    refine .of_map (x := ()) (Run.ends_settle.2 rfl) (fun log => ?_)
      (w.reshapes_settled c v.truthy).store
    exact Run.ends_settle.2 (w.logged_settled log c v.truthy)

theorem Tells.receive (e : Event) {o : Observer σ} (ho : o.Heeds t) :
    (heeding t n).Acts (Run.receive emit e o) (Run.receive emitLogged e o.logged) := by
  cases o with
  | script body =>
    exact (heeding t n).acts_bind (hemit.script (ho e)) fun _ => (heeding t n).acts_pure ()
  | directive methods tracked d =>
    simp only [Run.receive, Observer.logged]
    split
    · exact (heeding t n).acts_pure ()
    · exact hemit.update ho

theorem Tells.deliver (e : Event) {os : List (Nat × Observer σ)} (hos : ∀ o ∈ os, o.2.Heeds t)
    {w : World σ} (hw : w.Heeds t) (hn : t.pending w.store ≤ n) :
    t.Accounts (t.pending w.store) (os.map Prod.fst) w (Run.deliver emit e os).run
      (Run.deliverLogged emitLogged e (os.map fun o => (o.1, o.2.logged))).run := by
  induction os generalizing w with
  | nil => exact .pure t w _
  | cons o os ih =>
    -- what `o` did leaves the observers as they were, so the others are told in a world that heeds too
    obtain ⟨x, w₁, l, ha, hb, hs⟩ := hemit.receive e (hos o (List.mem_cons_self ..)) w hw hn
    have hn₁ : t.pending w₁.store ≤ n := (Nat.le_of_add_left_le hs.paid).trans hn
    obtain ⟨y, w', l', ha', hb', hs'⟩ :=
      ih (fun o' ho' => hos o' (List.mem_cons_of_mem _ ho')) (hs.heeds hw) hn₁
    have htold : t.Spends _ [o.1] w w _ := .turn w o.1 e w.store.fields
    have hheard : t.Spends _ [] w₁ w₁ [.heard o.1 x] := .note w₁ rfl fun _ => rfl
    refine ⟨_, w', _, Run.ends_deliver_cons.2 ⟨x, w₁, y, ha, ha', rfl⟩, fun log => ?_,
      htold.append (hs.append (hheard.append hs'))⟩
    refine Act.ends_world_bind.2 (Act.ends_mark_bind.2 (Act.ends_attempt_bind.2 ⟨x, _, hb _, ?_⟩))
    refine Act.ends_mark_bind.2 (Act.ends_attempt_bind.2 ⟨y, _, hb' _, ?_⟩)
    refine Act.ends_ofResult.2 ⟨rfl, ?_⟩
    simp
    rfl

end Emit

theorem tells_broadcast {depth depthLogged : Nat} (h : n ≤ depth) (h' : n ≤ depthLogged) :
    t.Tells n (Run.broadcast depth : Emit σ) (Run.broadcastLogged depthLogged) := by
  induction n generalizing depth depthLogged with
  | zero => exact fun e w _ hn => absurd hn (Nat.not_lt_zero _)
  | succ n ih =>
    intro e w hw hn
    obtain ⟨depth, rfl⟩ := Nat.exists_eq_add_of_le' h
    obtain ⟨depthLogged, rfl⟩ := Nat.exists_eq_add_of_le' h'
    -- one level of depth goes with one pending field: whoever is told tells only of what it brings
    have hemit := ih (Nat.le_add_left n depth) (Nat.le_add_left n depthLogged)
    obtain ⟨r, w', l, ha, hb, hs⟩ := hemit.deliver e hw hw (Nat.le_of_lt_succ hn)
    refine ⟨r, w', _, Act.ends_world_bind.2 ha, fun log => ?_,
      hs.broadcast (e := e) (r := r)⟩
    refine Act.ends_world_bind.2 (Act.ends_mark_bind.2 (Act.ends_attempt_bind.2 ⟨r, _, hb _, ?_⟩))
    refine Act.ends_mark_bind.2 (Act.ends_ofResult.2 ⟨rfl, ?_⟩)
    rw [World.ids_logged]
    simp

end Target

theorem World.logged_inj {u v : World σ} {l l' : Log} (ho : u.store.observers = v.store.observers)
    (h : u.logged l = v.logged l') : u = v := by
  have hfields : u.store.fields = v.store.fields := congrArg (·.store.fields) h
  have hissued : u.store.issued = v.store.issued := congrArg (·.store.issued) h
  have hdocument : u.document = v.document := congrArg (·.document) h
  have hpresences : u.presences = v.presences := congrArg (·.presences) h
  have hmemory : u.memory = v.memory := congrArg (·.memory.1) h
  obtain ⟨⟨_, _, _⟩, _, _, _⟩ := u
  obtain ⟨⟨_, _, _⟩, _, _, _⟩ := v
  simp_all

/-- Beyond a depth `n` the act comes to one end, after `n + 1` broadcasts at most. In each of them every
observer has one turn. -/
structure Settles (n : Nat) (w : World σ) (act : Nat → Act σ α) (actLogged : Nat → Act (σ × Log) α)
    (r : Except EvalError α) (w' : World σ) : Prop where
  ends : ∀ depth, n < depth → Act.Ends (act depth) w r w'
  counted : ∀ depth, n < depth →
    ∃ log : Log, Act.Ends (actLogged depth) (w.logged []) r (w'.logged log) ∧
      log.broadcasts ≤ n + 1 ∧ ∀ id, log.turns id = w.ids.count id * log.broadcasts

namespace Target

variable {t : Target} {n : Nat} {w : World σ}

/-- The depths of the two runs need not agree, so each is compared with one run of the other kind. -/
theorem settles_of_accounts {act : Nat → Act σ α} {actLogged : Nat → Act (σ × Log) α}
    (h : ∀ depth depthLogged, n < depth → n < depthLogged →
      t.Accounts (n + 1) [] w (act depth).run (actLogged depthLogged).run) :
    ∃ r w', Settles n w act actLogged r w' := by
  obtain ⟨r, w', l, ha, hb, hs⟩ := h (n + 1) (n + 1) (Nat.lt_succ_self n) (Nat.lt_succ_self n)
  refine ⟨r, w', fun depth hdepth => ?_, fun depth hdepth => ?_⟩
  · obtain ⟨r₁, w₁, l₁, ha₁, hb₁, hs₁⟩ := h depth (n + 1) hdepth (Nat.lt_succ_self n)
    obtain ⟨rfl, hlogged⟩ := Run.ends_det (hb []) (hb₁ [])
    rwa [World.logged_inj (hs.observers.trans hs₁.observers.symm) hlogged]
  · obtain ⟨r₁, w₁, l₁, ha₁, hb₁, hs₁⟩ := h (n + 1) depth (Nat.lt_succ_self n) hdepth
    obtain ⟨rfl, rfl⟩ := Run.ends_det ha ha₁
    refine ⟨l₁, hb₁ [], Nat.le_of_add_right_le hs₁.paid, fun id => ?_⟩
    simpa using hs₁.turns id

/-- If observers only ever bring fields where they are to be, every write and every announcement ends.
It starts at most one broadcast more than there are fields left to be brought there. -/
theorem feedback_ends (hw : w.Heeds t) :
    (∀ field value, ∃ r w', Settles (t.pending (w.store.put field value)) w
      (fun depth => Run.setField (Run.broadcast depth) field value)
      (fun depth => Run.setField (Run.broadcastLogged depth) field value) r w') ∧
    ∀ field, ∃ r w', Settles (t.pending w.store) w
      (fun depth => Run.announce (Run.broadcast depth) field)
      (fun depth => Run.announce (Run.broadcastLogged depth) field) r w' := by
  constructor
  · intro field value
    refine settles_of_accounts (t := t) fun depth depthLogged hdepth hdepthLogged => ?_
    cases h : w.store.holds field value with
    | true => exact (accounts_kept t h).mono (t.pending_le_put w.store field value)
    | false => exact (tells_broadcast hdepth hdepthLogged).put hw h (Nat.lt_succ_self _)
  · intro field
    refine settles_of_accounts (t := t) fun depth depthLogged hdepth hdepthLogged => ?_
    have hemit := tells_broadcast hdepth hdepthLogged ⟨field, w.store.get field⟩ w hw
      (Nat.lt_succ_self _)
    obtain ⟨r, w', l, ha, hb, hs⟩ := hemit
    exact ⟨r, w', l, Act.ends_world_bind.2 ha, fun log => Act.ends_world_bind.2 (hb log), hs⟩

def lamps : Target := ⟨{"left", "right"}, fun _ => .bool true, fun _ _ => rfl⟩

/-- The first observer lights both lamps, whatever happens, and fails; the second one lights the right
one and passes on what fails. -/
def switchboard : World Unit where
  store := ⟨[], [
    (0, .script fun _ => .write "left" (.bool true) fun _ => .write "right" (.bool true) fun _ =>
      .fail (.method "first" "no")),
    (1, .script fun _ => .writeThen "right" (.bool true) .null)], 2⟩
  document := .empty
  presences := #[]
  memory := ()

theorem heeds_switchboard : switchboard.Heeds lamps := by
  have hleft : "left" ∈ lamps.fields := by decide
  have hright : "right" ∈ lamps.fields := by decide
  intro o ho
  rcases List.mem_cons.1 ho with rfl | ho
  · exact fun _ => ⟨hleft, rfl, fun _ => ⟨hright, rfl, fun _ => trivial⟩⟩
  · cases List.mem_singleton.1 ho
    refine fun _ => ⟨hright, rfl, fun r => ?_⟩
    cases r <;> trivial

theorem feedback_ends_lit : switchboard.Heeds lamps ∧
    lamps.pending (switchboard.store.put "day" .null) = 2 ∧
    ∃ r w', Settles 2 switchboard
      (fun depth => Run.setField (Run.broadcast depth) "day" .null)
      (fun depth => Run.setField (Run.broadcastLogged depth) "day" .null) r w' := by
  have hpending : lamps.pending (switchboard.store.put "day" .null) = 2 := by decide +kernel
  exact ⟨heeds_switchboard, hpending, hpending ▸ (feedback_ends heeds_switchboard).1 "day" .null⟩

end Target

end LiveMarkup
