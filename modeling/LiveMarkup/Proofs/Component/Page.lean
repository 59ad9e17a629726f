import LiveMarkup.Proofs.Component.Subscribers

/-!
Pages: one store, on which outside code works and components are mounted, called and dropped, in any
order. After each operation the observers are those outside that were not taken off, and one for each
directive of each component that is alive.
-/

namespace LiveMarkup

open LiveMarkup.Expression

variable {σ : Type} {w w' : World σ} {log l : Log} {depth : Nat} {alive alive' : List (Resident σ)}

namespace Page

inductive Operation (σ : Type) where
  | script (s : Script σ)
  | mount (o : MountOptions σ)
  | call (number : Nat) (call : Component.Call)
  | drop (number : Nat)

inductive Outcome (σ : Type) where
  | answered (r : Except EvalError Value)
  | mounted (r : Except EvalError (Option (Component σ)))
  | called (r : Except EvalError (Option Value))
  | dropped (c : Component σ)
  | absent

def perform (emit : Emit σ) (alive : List (Resident σ)) :
    Operation σ → Run σ (Outcome σ × List (Resident σ))
  | .script s => do
    let r ← (s.run emit).run
    return (.answered r, alive)
  | .mount o => do
    let r ← (Component.mount emit o).run
    return (.mounted r, alive ++ Resident.ofMount o.tracked r)
  | .call number call =>
    match alive[number]? with
    | some m => do
      let r ← (m.component.perform emit call).run
      return (.called r, alive)
    | none => return (.absent, alive)
  | .drop number =>
    match alive[number]? with
    | some m => do
      m.component.drop
      return (.dropped m.component, alive.eraseIdx number)
    | none => return (.absent, alive)

def performAll (emit : Emit σ) (alive : List (Resident σ)) :
    List (Operation σ) → Run σ (List (Outcome σ) × List (Resident σ))
  | [] => return ([], alive)
  | op :: ops => do
    let (r, alive) ← perform emit alive op
    let (rs, alive) ← performAll emit alive ops
    return (r :: rs, alive)

def Operation.logged : Operation σ → Operation (σ × Log)
  | .script s => .script s.logged
  | .mount o => .mount o.logged
  | .call number c => .call number c
  | .drop number => .drop number

def Outcome.logged : Outcome σ → Outcome (σ × Log)
  | .answered r => .answered r
  | .mounted r => .mounted (r.map (Option.map Component.logged))
  | .called r => .called r
  | .dropped c => .dropped c.logged
  | .absent => .absent

inductive Moves (alive : List (Resident σ)) (w : World σ) :
    Log → List (Resident σ) → World σ → Prop
  | joined {l new w'} : w.Gains l (new.flatMap Resident.entries) w' → (∀ m ∈ new, m.Activated) →
    Moves alive w l (alive ++ new) w'
  | left {before m after} : alive = before ++ m :: after →
    Moves alive w [] (before ++ after) (w.without m.component.subscriptions)

theorem Moves.stayed (h : Moves alive w l alive' w') :
    ∀ o ∈ w'.store.observers, o ∈ w.store.observers ∨ w.store.issued ≤ o.1 := by
  cases h with
  | joined hg _ => exact hg.stayed
  | left _ => exact fun o ho => .inl (List.mem_filter.1 ho).1

theorem Moves.of_gains (hg : w.Gains l [] w') : Moves alive w l alive w' := by
  have h : Moves alive w l (alive ++ []) w' := .joined hg fun m hm => absurd hm List.not_mem_nil
  rwa [List.append_nil] at h

theorem Moves.refl (alive : List (Resident σ)) (w : World σ) : Moves alive w [] alive w :=
  .of_gains (.of_store rfl)

def Operation.Leaves (alive : List (Resident σ)) (w : World σ) (alive' : List (Resident σ))
    (w' : World σ) : Operation σ → Outcome σ → Prop
  | .mount o, .mounted (.ok (some c)) => alive' = alive ++ [⟨c, o.tracked⟩]
  | .drop number, .dropped c => ∃ m, alive[number]? = some m ∧ m.component = c ∧
    alive' = alive.eraseIdx number ∧
    w'.store.observers = w.store.observers.filter fun o => !c.subscriptions.contains o.1
  | _, _ => alive' = alive

theorem eraseIdx_eq_of_getElem? {α : Type} {as : List α} {n : Nat} {a : α} (h : as[n]? = some a) :
    as = as.take n ++ a :: as.drop (n + 1) ∧ as.eraseIdx n = as.take n ++ as.drop (n + 1) := by
  obtain ⟨hlt, rfl⟩ := List.getElem?_eq_some_iff.1 h
  refine ⟨?_, List.eraseIdx_eq_take_drop_succ ..⟩
  rw [List.getElem_cons_drop, List.take_append_drop]

/-- With a log the operation ends as it does without; what it did to the observers is a move, of which the
log tells what outside code did. -/
def Operation.Traced (op : Operation σ) (depth : Nat) (alive : List (Resident σ)) (w : World σ)
    (r : Outcome σ) (alive' : List (Resident σ)) (w' : World σ) : Prop :=
  ∃ l, (Moves alive w l alive' w' ∧ op.Leaves alive w alive' w' r) ∧
    ∀ log, Run.Ends (perform (Run.broadcastLogged depth) (alive.map Resident.logged) op.logged)
      (w.logged log) (r.logged, alive'.map Resident.logged) (w'.logged (log ++ l))

theorem traced_mount {o : MountOptions σ} {r : Except EvalError (Option (Component σ))}
    (h : Act.Ends (Component.mount (Run.broadcast depth) o) w r w') :
    (Operation.mount o).Traced depth alive w (.mounted r) (alive ++ Resident.ofMount o.tracked r) w' := by
  obtain ⟨l, ⟨hg, hall⟩, hb⟩ := Component.mount_gains h
  refine ⟨l, ⟨.joined hg hall, ?_⟩, fun log =>
    Run.ends_bind.2 ⟨_, _, hb log, Run.ends_pure.2 ⟨?_, rfl⟩⟩⟩
  · rcases r with e | _ | c
    · exact List.append_nil _
    · exact List.append_nil _
    · rfl
  · rw [List.map_append]
    rcases r with e | _ | c <;> rfl

theorem traced_drop {number : Nat} {m : Resident σ} (hm : alive[number]? = some m) :
    (Operation.drop number).Traced depth alive w (.dropped m.component) (alive.eraseIdx number)
      (w.without m.component.subscriptions) := by
  obtain ⟨hsplit, herase⟩ := eraseIdx_eq_of_getElem? hm
  refine ⟨[], ⟨herase ▸ .left hsplit, m, hm, rfl, rfl, rfl⟩, fun log => ?_⟩
  simp only [Operation.logged, perform, List.getElem?_map, hm]
  refine Run.ends_bind.2 ⟨(), _, ?_, Run.ends_pure.2 ⟨?_, rfl⟩⟩
  · rw [List.append_nil, w.logged_without]
    exact Component.ends_unsubscribeAll.2 rfl
  · rw [herase, List.eraseIdx_eq_take_drop_succ, List.map_append, List.map_take, List.map_drop]
    rfl

theorem ends_perform {op : Operation σ} {r : Outcome σ}
    (h : Run.Ends (perform (Run.broadcast depth) alive op) w (r, alive') w') :
    op.Traced depth alive w r alive' w' := by
  cases op with
  | script s =>
    obtain ⟨x, w₁, hx, h⟩ := Run.ends_bind.1 h
    obtain ⟨hr, rfl⟩ := Run.ends_pure.1 h
    obtain ⟨rfl, rfl⟩ := Prod.mk.inj hr
    obtain ⟨l, ⟨hl, hj⟩, hb⟩ := passing_script depth s w x w' hx
    exact ⟨l, ⟨.of_gains (.of_passes hl hj), rfl⟩, fun log =>
      Run.ends_bind.2 ⟨_, _, hb log, Run.ends_pure.2 ⟨rfl, rfl⟩⟩⟩
  | mount o =>
    obtain ⟨x, w₁, hx, h⟩ := Run.ends_bind.1 h
    obtain ⟨hr, rfl⟩ := Run.ends_pure.1 h
    obtain ⟨rfl, rfl⟩ := Prod.mk.inj hr
    exact traced_mount hx
  | call number call =>
    unfold Operation.Traced
    simp only [Operation.logged, perform, List.getElem?_map] at h ⊢
    cases hm : alive[number]? with
    | none =>
      rw [hm] at h
      obtain ⟨hr, rfl⟩ := Run.ends_pure.1 h
      obtain ⟨rfl, rfl⟩ := Prod.mk.inj hr
      refine ⟨[], ⟨.refl _ _, rfl⟩, fun log => Run.ends_pure.2 ⟨rfl, ?_⟩⟩
      rw [List.append_nil]
    | some m =>
      rw [hm] at h
      obtain ⟨x, w₁, hx, h⟩ := Run.ends_bind.1 h
      obtain ⟨hr, rfl⟩ := Run.ends_pure.1 h
      obtain ⟨rfl, rfl⟩ := Prod.mk.inj hr
      obtain ⟨l, ⟨hl, hj⟩, hb⟩ := m.component.passing_perform depth call w x w' hx
      exact ⟨l, ⟨.of_gains (.of_passes hl hj), rfl⟩, fun log =>
        Run.ends_bind.2 ⟨_, _, hb log, Run.ends_pure.2 ⟨rfl, rfl⟩⟩⟩
  | drop number =>
    simp only [perform] at h
    cases hm : alive[number]? with
    | none =>
      rw [hm] at h
      obtain ⟨hr, rfl⟩ := Run.ends_pure.1 h
      obtain ⟨rfl, rfl⟩ := Prod.mk.inj hr
      refine ⟨[], ⟨.refl _ _, rfl⟩, fun log => ?_⟩
      simp only [Operation.logged, perform, List.getElem?_map, hm]
      refine Run.ends_pure.2 ⟨rfl, ?_⟩
      rw [List.append_nil]
    | some m =>
      rw [hm] at h
      obtain ⟨_, w₁, hoff, h⟩ := Run.ends_bind.1 h
      obtain ⟨hr, rfl⟩ := Run.ends_pure.1 h
      obtain ⟨rfl, rfl⟩ := Prod.mk.inj hr
      obtain rfl := Component.ends_unsubscribeAll.1 hoff
      exact traced_drop hm

structure Tally (alive : List (Resident σ)) (w : World σ) (log : Log) : Prop where
  listed : w.Listed (alive.flatMap Resident.entries) log
  activated : ∀ m ∈ alive, m.Activated

theorem Tally.start (h : w.store.observers = []) : Tally [] w [] := by
  have hids : w.register.ids = [] := by rw [World.register, World.ids, h, List.map_nil]
  refine ⟨⟨⟨?_, ?_⟩, ?_, ?_, fun _ hid => absurd hid List.not_mem_nil, fun pre id post hl => ?_,
    fun pre id b post hl => ?_⟩, fun _ hm => absurd hm List.not_mem_nil⟩
  · rw [hids]
    exact .nil
  · rw [hids]
    exact fun _ hid => absurd hid List.not_mem_nil
  · rw [World.outsiders, h]
    rfl
  · rw [World.directives, h]
    exact .refl _
  · simp at hl
  · simp at hl

theorem Moves.tally (h : Moves alive w l alive' w') (ht : Tally alive w log)
    (hh : Log.Honest (log ++ l)) : Tally alive' w' (log ++ l) := by
  cases h with
  | joined hg hall =>
    refine ⟨?_, fun m hm => (List.mem_append.1 hm).elim (ht.activated m) (hall m)⟩
    rw [List.flatMap_append]
    exact hg.listed ht.listed hh
  | @left before m after hsplit =>
    subst hsplit
    have hm : m.Activated := ht.activated m (List.mem_append_right _ (List.mem_cons_self ..))
    have hlisted := ht.listed
    rw [List.flatMap_append, List.flatMap_cons, ← List.append_assoc] at hlisted
    refine ⟨?_, fun n hn => ht.activated n ?_⟩
    · rw [List.append_nil, List.flatMap_append, ← hm.entries_ids]
      exact hlisted.without_mid
    · rcases List.mem_append.1 hn with hn | hn
      · exact List.mem_append_left _ hn
      · exact List.mem_append_right _ (List.mem_cons_of_mem _ hn)

theorem ends_performAll {ops : List (Operation σ)} {rs : List (Outcome σ)}
    (h : Run.Ends (performAll (Run.broadcast depth) alive ops) w (rs, alive') w') :
    ∃ l, (∀ log, Tally alive w log → Log.Honest (log ++ l) → Tally alive' w' (log ++ l)) ∧
      ∀ log, Run.Ends (performAll (Run.broadcastLogged depth) (alive.map Resident.logged)
        (ops.map Operation.logged)) (w.logged log)
        (rs.map Outcome.logged, alive'.map Resident.logged) (w'.logged (log ++ l)) := by
  induction ops generalizing alive w rs with
  | nil =>
    obtain ⟨hr, rfl⟩ := Run.ends_pure.1 h
    obtain ⟨rfl, rfl⟩ := Prod.mk.inj hr
    refine ⟨[], fun log ht _ => ?_, fun log => Run.ends_pure.2 ⟨rfl, ?_⟩⟩
    · rwa [List.append_nil]
    · rw [List.append_nil]
  | cons op ops ih =>
    obtain ⟨⟨r, alive₁⟩, w₁, hop, h⟩ := Run.ends_bind.1 h
    obtain ⟨⟨rs', alive₂⟩, w₂, hops, h⟩ := Run.ends_bind.1 h
    obtain ⟨hr, rfl⟩ := Run.ends_pure.1 h
    obtain ⟨rfl, rfl⟩ := Prod.mk.inj hr
    obtain ⟨l, ⟨hmoves, -⟩, hb⟩ := ends_perform hop
    obtain ⟨l₁, ht₁, hb₁⟩ := ih hops
    refine ⟨l ++ l₁, fun log ht hh => ?_, fun log => ?_⟩
    · rw [← List.append_assoc] at hh ⊢
      exact ht₁ _ (hmoves.tally ht hh.left) hh
    · rw [← List.append_assoc]
      exact Run.ends_bind.2 ⟨_, _, hb log, Run.ends_bind.2 ⟨_, _, hb₁ _,
        Run.ends_pure.2 ⟨rfl, rfl⟩⟩⟩

/-- Who observes: outside code that was given a number and has not taken it off, and the directives of the
components that are alive, each component's in the order of their activation. -/
structure Accounts (alive : List (Resident σ)) (w : World σ) (log : Log) : Prop where
  increasing : w.ids.Pairwise (· < ·)
  issued : ∀ id ∈ w.ids, id < w.store.issued
  outsiders : w.outsiders = log.remaining
  directives : w.directives.Perm (alive.flatMap Resident.entries)
  activated : ∀ m ∈ alive, m.Activated
  answers : ∀ pre id b post, log = pre ++ .unsubscribed id b :: post →
    (b = true ↔ id ∉ Log.removed pre)

theorem Tally.accounts (h : Tally alive w log) (hh : log.Honest) : Accounts alive w log where
  increasing := h.listed.orderly.increasing
  issued := h.listed.orderly.issued
  outsiders := h.listed.outsiders.trans (replay_eq_remaining hh h.listed.once)
  directives := h.listed.own
  activated := h.activated
  answers pre id b post hsplit := by
    have hanswer := h.listed.answers pre id b post hsplit
    have hgiven : .subscribed id ∈ pre := hh pre id b post hsplit
    subst hsplit
    rw [replay_eq_remaining hh.left h.listed.once.left, Log.mem_remaining] at hanswer
    exact hanswer.trans (and_iff_right hgiven)

theorem Accounts.directives_eq {log' : Log} (h : Accounts alive w log)
    (h' : Accounts alive w' log') : w'.directives = w.directives := by
  have hsorted {w : World σ} (hids : w.ids.Pairwise (· < ·)) :
      w.directives.Pairwise fun o o' => o.1 < o'.1 :=
    (List.pairwise_map.1 hids).sublist List.filter_sublist
  refine List.Perm.eq_of_pairwise (fun o o' _ _ hlt hlt' => absurd hlt' (Nat.lt_asymm hlt))
    (hsorted h'.increasing) (hsorted h.increasing) ?_
  exact h'.directives.trans h.directives.symm

/-- What an operation does to those who observe. Where no component moves in or out, as when a mount fails
or finds nothing, the directives that observe stay the same. -/
structure Operation.Settles (op : Operation σ) (r : Outcome σ) (alive : List (Resident σ)) (w : World σ)
    (alive' : List (Resident σ)) (w' : World σ) : Prop where
  leaves : op.Leaves alive w alive' w' r
  directives : alive' = alive → w'.directives = w.directives
  stayed : ∀ o ∈ w'.store.observers, o ∈ w.store.observers ∨ w.store.issued ≤ o.1

theorem subscribers_accounted {w₀ : World σ} (h₀ : w₀.store.observers = [])
    {ops : List (Operation σ)} {rs : List (Outcome σ)}
    (h : Run.Ends (performAll (Run.broadcast depth) [] ops) w₀ (rs, alive) w)
    {op : Operation σ} {r : Outcome σ}
    (h' : Run.Ends (perform (Run.broadcast depth) alive op) w (r, alive') w') :
    ∃ log l, Run.Ends (performAll (Run.broadcastLogged depth) [] (ops.map Operation.logged))
        (w₀.logged []) (rs.map Outcome.logged, alive.map Resident.logged) (w.logged log) ∧
      Run.Ends (perform (Run.broadcastLogged depth) (alive.map Resident.logged) op.logged)
        (w.logged log) (r.logged, alive'.map Resident.logged) (w'.logged (log ++ l)) ∧
      (Log.Honest (log ++ l) → Accounts alive w log ∧ Accounts alive' w' (log ++ l) ∧
        op.Settles r alive w alive' w') := by
  obtain ⟨log, ht, hb⟩ := ends_performAll h
  obtain ⟨l, ⟨hmoves, hleaves⟩, hb'⟩ := ends_perform h'
  refine ⟨log, l, hb [], hb' log, fun hh => ?_⟩
  have hbefore : Tally alive w log := ht [] (.start h₀) hh.left
  have hacc := hbefore.accounts hh.left
  have hacc' := (hmoves.tally hbefore hh).accounts hh
  refine ⟨hacc, hacc', hleaves, ?_, hmoves.stayed⟩
  rintro rfl
  exact hacc.directives_eq hacc'

def lobby : World Unit where
  store := Store.ofFields [("name", .string "Ann")]
  document := Document.ofForest
    [.element () "p" [("show-if", "name")] [.text () "Hi \x7b\x7bname\x7d\x7d"],
      .element () "div" [("show-if", "join()")]
        [.text () "\x7b\x7bname\x7d\x7d", .element () "b" [("show-if", "fall()")] []]]
  presences := #[]
  memory := ()

def lobbyOptions (selector : String) : MountOptions Unit where
  selector := selector
  methods := [
    ("join", fun _ => .subscribe (fun _ => .give .null) fun _ => .give (.bool true)),
    ("fall", fun _ => .fail (.method "fall" "no"))]
  directives := .default
  tracked := true

def visits : List (Operation Unit) :=
  [.script (.subscribe (fun _ => .give .null) fun _ =>
      .subscribe (fun _ => .give .null) fun _ => .give .null),
    .mount (lobbyOptions "p"), .mount (lobbyOptions "i"), .mount (lobbyOptions "div"),
    .script (.unsubscribe 0 fun _ => .unsubscribe 0 fun _ => .writeThen "name" (.string "Bob") .null)]

/-- The mount that fails leaves behind only what its method subscribed, number 4. -/
theorem subscribers_accounted_visits :
    ∃ rs alive w r alive' w',
      Run.Ends (performAll (Run.broadcast 3) [] visits) lobby (rs, alive) w ∧
      Run.Ends (perform (Run.broadcast 3) alive (.drop 0)) w (r, alive') w' ∧
      w.ids = [1, 2, 3, 4] ∧ w'.ids = [1, 4] ∧
      ∃ log l, Log.Honest (log ++ l) ∧ Accounts alive w log ∧ Accounts alive' w' (log ++ l) ∧
        Operation.Settles (.drop 0) r alive w alive' w' := by
  have hrun : (((performAll (Run.broadcast 3) [] visits).run lobby).bind fun x =>
      ((perform (Run.broadcast 3) x.1.2 (.drop 0)).run x.2).map fun y => (x.2.ids, y.2.ids)) =
      some ([1, 2, 3, 4], [1, 4]) := by
    decide +kernel
  have hlog : (((performAll (Run.broadcastLogged 3) [] (visits.map Operation.logged)).run
      (lobby.logged [])).bind fun x => ((perform (Run.broadcastLogged 3) x.1.2 (.drop 0)).run x.2).map
        fun y => Log.permits [] y.2.memory.2) = some true := by
    decide +kernel
  obtain ⟨⟨⟨rs, alive⟩, w⟩, h, hrest⟩ := Option.bind_eq_some_iff.1 hrun
  obtain ⟨⟨⟨r, alive'⟩, w'⟩, h', hids⟩ := Option.map_eq_some_iff.1 hrest
  obtain ⟨hbefore, hafter⟩ := Prod.mk.inj hids
  obtain ⟨log, l, hb, hb', hall⟩ := subscribers_accounted rfl h h'
  have hhonest : Log.Honest (log ++ l) := by
    rw [hb, Option.bind_some] at hlog
    obtain ⟨_, hend, hpermits⟩ := Option.map_eq_some_iff.1 hlog
    cases hend.symm.trans hb'
    exact Log.honest_of_permits hpermits
  exact ⟨rs, alive, w, r, alive', w', h, h', hbefore, hafter, log, l, hhonest, hall hhonest⟩

end Page

end LiveMarkup
