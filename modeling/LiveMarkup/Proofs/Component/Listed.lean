import LiveMarkup.Proofs.Component.Calls
import LiveMarkup.Proofs.Reactive.Lasting
import LiveMarkup.Proofs.Reactive.Replay
import Mathlib.Data.List.Nodup

/-!
The list of observers, with the log of outside code. Scripts are on it as the log tells; directives are
on it from when they are subscribed until they are taken off, whatever outside code does meanwhile.
-/

namespace LiveMarkup

open LiveMarkup.Expression

variable {σ α : Type} {w w' : World σ} {own : List (Nat × Observer σ)} {log l : Log}

def Observer.isScript : Observer σ → Bool
  | .script _ => true
  | .directive .. => false

namespace World

def outsiders (w : World σ) : List Nat := (w.store.observers.filter (·.2.isScript)).map Prod.fst

def directives (w : World σ) : List (Nat × Observer σ) :=
  w.store.observers.filter fun o => !o.2.isScript

/-- The scripts that observe are those that the log tells of, and the directives are `own`. -/
structure Listed (w : World σ) (own : List (Nat × Observer σ)) (log : Log) : Prop where
  orderly : w.register.Orderly
  outsiders : w.outsiders = replay log []
  own : w.directives.Perm own
  given : ∀ id, .subscribed id ∈ log → id < w.store.issued ∧ id ∉ w.directives.map Prod.fst
  once : log.Once
  answers : ∀ pre id b post, log = pre ++ .unsubscribed id b :: post →
    (b = true ↔ id ∈ replay pre [])

theorem nodup_ids (h : w.register.Orderly) : w.ids.Nodup := h.increasing.imp Nat.ne_of_lt

theorem directive_mem_ids {id : Nat} (h : id ∈ w.directives.map Prod.fst) : id ∈ w.ids :=
  (List.filter_sublist.map Prod.fst).subset h

def outside (w : World σ) (id : Nat) : Bool := id ∉ w.directives.map Prod.fst

theorem outside_iff {id : Nat} : w.outside id = true ↔ id ∉ w.directives.map Prod.fst :=
  decide_eq_true_iff

theorem isScript_eq (h : w.register.Orderly) {o : Nat × Observer σ} (ho : o ∈ w.store.observers) :
    o.2.isScript = w.outside o.1 := by
  rw [Bool.eq_iff_iff, outside_iff]
  constructor
  · intro hs hmem
    obtain ⟨o', ho', heq⟩ := List.mem_map.1 hmem
    obtain ⟨ho', hd⟩ := List.mem_filter.1 ho'
    rw [List.inj_on_of_nodup_map (nodup_ids h) ho' ho heq, hs] at hd
    cases hd
  · intro hn
    by_contra hs
    refine hn (List.mem_map_of_mem (List.mem_filter.2 ⟨ho, ?_⟩))
    rw [Bool.not_eq_true] at hs
    rw [hs]
    rfl

theorem isScript_eq_of_joined (h : w.register.Orderly) (hj : w.Joined w') {o : Nat × Observer σ}
    (ho : o ∈ w'.store.observers) : o.2.isScript = w.outside o.1 := by
  rcases hj.observers o ho with ho | ⟨hid, body, hbody⟩
  · exact isScript_eq h ho
  · rw [hbody]
    refine (outside_iff.2 fun hmem => ?_).symm
    exact Nat.not_lt.2 hid (h.issued _ (directive_mem_ids hmem))

theorem split_ids {p : Nat → Bool} (h : ∀ o ∈ w.store.observers, o.2.isScript = p o.1) :
    w.outsiders = w.ids.filter p ∧ w.directives.map Prod.fst = w.ids.filter fun id => !p id := by
  rw [outsiders, directives, ids, List.filter_map, List.filter_map, List.filter_congr h,
    List.filter_congr fun o ho => congrArg not (h o ho)]
  exact ⟨rfl, rfl⟩

theorem nodup_directives (h : w.register.Orderly) : (w.directives.map Prod.fst).Nodup :=
  (nodup_ids h).sublist (List.filter_sublist.map _)

theorem perm_directives (h : w.register.Orderly) (hj : w.Joined w')
    (hsame : w'.directives.map Prod.fst = w.directives.map Prod.fst) :
    w'.directives.Perm w.directives := by
  have hnodup := nodup_directives h
  have hmem (o) (ho : o ∈ w'.directives) : o ∈ w.directives := by
    obtain ⟨ho, hd⟩ := List.mem_filter.1 ho
    rcases hj.observers o ho with ho | ⟨-, body, hbody⟩
    · exact List.mem_filter.2 ⟨ho, hd⟩
    · rw [hbody] at hd
      cases hd
  refine (List.perm_ext_iff_of_nodup (hsame ▸ hnodup).of_map hnodup.of_map).2 fun o =>
    ⟨hmem o, fun ho => ?_⟩
  have hin : o.1 ∈ w'.directives.map Prod.fst := hsame ▸ List.mem_map_of_mem ho
  obtain ⟨o', ho', heq⟩ := List.mem_map.1 hin
  exact List.inj_on_of_nodup_map hnodup (hmem o' ho') ho heq ▸ ho'

end World

namespace World.Listed

open World

section Passes

variable (h : w.Listed own log) (hl : w.register.Passes l w'.register)

include h hl

theorem outside_of_subscribed {id : Nat} (hid : .subscribed id ∈ l) : w.outside id = true :=
  outside_iff.2 fun hmem =>
    Nat.not_lt.2 (hl.fresh id hid).1 (h.orderly.issued id (directive_mem_ids hmem))

theorem outside_of_unsubscribed (hh : Log.Honest (log ++ l)) {id : Nat} {b : Bool}
    (hid : .unsubscribed id b ∈ l) : w.outside id = true := by
  obtain ⟨pre, post, rfl⟩ := List.append_of_mem hid
  rcases List.mem_append.1 (hh (log ++ pre) id b post (List.append_assoc ..).symm) with hmem | hmem
  · exact outside_iff.2 (h.given id hmem).2
  · exact h.outside_of_subscribed hl (List.mem_append_left _ hmem)

theorem passes (hj : w.Joined w') (hh : Log.Honest (log ++ l)) : w'.Listed own (log ++ l) := by
  have hsub (id) (hid : .subscribed id ∈ l) : w.outside id = true := h.outside_of_subscribed hl hid
  have hunsub (id b) (hid : .unsubscribed id b ∈ l) : w.outside id = true :=
    h.outside_of_unsubscribed hl hh hid
  have hids : w'.ids = replay l w.ids := hl.ids
  obtain ⟨hout, hdir⟩ := split_ids fun o ho => isScript_eq h.orderly ho
  obtain ⟨hout', hdir'⟩ := split_ids fun o ho => isScript_eq_of_joined h.orderly hj ho
  have hsame : w'.directives.map Prod.fst = w.directives.map Prod.fst := by
    rw [hdir', hdir, hids]
    exact filter_replay_of_not (fun id hid => by rw [hsub id hid]; rfl)
      (fun id b hid => by rw [hunsub id b hid]; rfl) _
  refine ⟨hl.orderly h.orderly, ?_, (perm_directives h.orderly hj hsame).trans h.own,
    fun id hid => ?_, ?_, fun pre id b post hsplit => ?_⟩
  · rw [hout', hids, filter_replay hsub, ← hout, h.outsiders, replay_append]
  · rw [hsame]
    rcases List.mem_append.1 hid with hid | hid
    · exact ⟨Nat.lt_of_lt_of_le (h.given id hid).1 hl.issued, (h.given id hid).2⟩
    · exact ⟨(hl.fresh id hid).2, outside_iff.1 (hsub id hid)⟩
  · refine h.once.append hl.once fun id hid hid' => ?_
    exact Nat.not_lt.2 (hl.fresh id hid').1 (h.given id hid).1
  · rcases append_eq_mid hsplit with ⟨mid, hold, rfl⟩ | ⟨mid, rfl, rfl⟩
    · exact h.answers pre id b mid hold
    · have hmid := filter_replay (fun i hi => hsub i (List.mem_append_left _ hi)) w.ids (l := mid)
      rw [hl.answers mid id b post rfl, List.contains_iff_mem, replay_append, ← h.outsiders, hout,
        ← hmid, List.mem_filter, hunsub id b (List.mem_append_right _ (List.mem_cons_self ..))]
      exact (and_iff_left rfl).symm

end Passes

theorem subscribe (h : w.Listed own log) (methods : Methods σ) (tracked : Bool) (d : Directive) :
    World.Listed { w with store := w.store.subscribe (.directive methods tracked d) }
      (own ++ [(w.store.issued, .directive methods tracked d)]) log := by
  let o : Nat × Observer σ := (w.store.issued, .directive methods tracked d)
  let w' : World σ := { w with store := w.store.subscribe o.2 }
  have hobs : w'.store.observers = w.store.observers ++ [o] := rfl
  have hdir : w'.directives = w.directives ++ [o] := by
    rw [directives, hobs, List.filter_append]
    rfl
  refine ⟨?_, ?_, ?_, fun id hid => ?_, h.once, h.answers⟩
  · rw [register_subscribe]
    exact (Register.Passes.subscribed _).orderly h.orderly
  · have hout : w'.outsiders = w.outsiders := by
      rw [World.outsiders, hobs, List.filter_append, List.filter_cons_of_neg (by exact nofun),
        List.filter_nil, List.append_nil, World.outsiders]
    exact hout.trans h.outsiders
  · exact hdir ▸ h.own.append_right [o]
  · obtain ⟨hlt, hnot⟩ := h.given id hid
    refine ⟨Nat.lt_succ_of_lt hlt, fun hmem => ?_⟩
    have hmem : id ∈ (w.directives ++ [o]).map Prod.fst := hdir ▸ hmem
    rw [List.map_append, List.mem_append, List.map_singleton, List.mem_singleton] at hmem
    exact hmem.elim hnot (Nat.ne_of_lt hlt)

end World.Listed

namespace World

theorem logged_without (w : World σ) (log : Log) (ids : List Nat) :
    (w.without ids).logged log = (w.logged log).without ids := by
  simp [logged, Store.logged, without, List.filter_map, Function.comp_def]

theorem Listed.without (h : w.Listed own log) {ids : List Nat}
    (hids : ∀ id ∈ ids, id ∈ own.map Prod.fst) :
    (w.without ids).Listed (own.filter fun o => !ids.contains o.1) log := by
  let keep (o : Nat × Observer σ) : Bool := !ids.contains o.1
  have hobs : (w.without ids).store.observers = w.store.observers.filter keep := rfl
  have hdir : (w.without ids).directives = w.directives.filter keep := by
    rw [directives, hobs, List.filter_filter, directives, List.filter_filter]
    exact List.filter_congr fun o _ => Bool.and_comm ..
  have hids' (id) (hid : id ∈ ids) : id ∈ w.directives.map Prod.fst :=
    (h.own.map Prod.fst).mem_iff.2 (hids id hid)
  refine ⟨⟨?_, fun id hid => ?_⟩, ?_, ?_, fun id hid => ?_, h.once, h.answers⟩
  · exact h.orderly.increasing.sublist (List.filter_sublist.map _)
  · exact h.orderly.issued id ((List.filter_sublist.map Prod.fst).subset hid)
  · rw [World.outsiders, hobs, List.filter_filter, ← h.outsiders, World.outsiders]
    refine congrArg _ (List.filter_congr fun o ho => ?_)
    cases hs : o.2.isScript with
    | false => rfl
    | true =>
      have hnot : o.1 ∉ ids := fun hmem =>
        outside_iff.1 ((isScript_eq h.orderly ho).symm.trans hs) (hids' _ hmem)
      rw [Bool.true_and, Bool.not_eq_true', ← Bool.not_eq_true, List.contains_iff_mem]
      exact hnot
  · rw [hdir]
    exact h.own.filter keep
  · obtain ⟨hlt, hnot⟩ := h.given id hid
    refine ⟨hlt, fun hmem => hnot ?_⟩
    rw [hdir] at hmem
    exact (List.filter_sublist.map Prod.fst).subset hmem

theorem Listed.without_mid {before mid after : List (Nat × Observer σ)}
    (h : w.Listed (before ++ mid ++ after) log) :
    (w.without (mid.map Prod.fst)).Listed (before ++ after) log := by
  let keep (o : Nat × Observer σ) : Bool := !(mid.map Prod.fst).contains o.1
  have hkeep {o : Nat × Observer σ} : keep o = true ↔ o.1 ∉ mid.map Prod.fst := by
    rw [Bool.not_eq_true', ← Bool.not_eq_true, List.contains_iff_mem]
  have hnodup := (h.own.map Prod.fst).nodup_iff.1 (nodup_directives h.orderly)
  rw [List.map_append, List.map_append, List.nodup_append, List.nodup_append] at hnodup
  obtain ⟨⟨-, -, hbefore⟩, -, hafter⟩ := hnodup
  have heq : (before ++ mid ++ after).filter keep = before ++ after := by
    rw [List.filter_append, List.filter_append, List.filter_eq_self.2 fun o ho => hkeep.2 ?_,
      List.filter_eq_nil_iff.2 fun o ho hk => hkeep.1 hk (List.mem_map_of_mem ho),
      List.filter_eq_self.2 fun o ho => hkeep.2 ?_, List.append_nil]
    · intro hmem
      exact hafter _ (List.mem_append_right _ hmem) _ (List.mem_map_of_mem ho) rfl
    · intro hmem
      exact hbefore _ (List.mem_map_of_mem ho) _ hmem rfl
  refine heq ▸ h.without fun id hid => ?_
  rw [List.map_append, List.map_append]
  exact List.mem_append_left _ (List.mem_append_right _ hid)

end World

end LiveMarkup
