import LiveMarkup.Proofs.Document.Journal
import LiveMarkup.Proofs.Reactive.Record
import Mathlib.Data.List.Induction

/-!
What a log says of the observers. Numbers are given in growing order and never twice, the log tells
which of them observe, and the answer to a removal tells whether it was the first.
-/

namespace LiveMarkup

open LiveMarkup.Expression

variable {g g₁ g' : Register} {l l' pre post : Log} {m : Mark} {ids : List Nat} {p : Nat → Bool}

def Mark.shift : Mark → List Nat → List Nat
  | .subscribed id, ids => ids ++ [id]
  | .unsubscribed id _, ids => ids.filter (· != id)
  | _, ids => ids

def Mark.given? : Mark → Option Nat
  | .subscribed id => some id
  | _ => none

def Mark.removed? : Mark → Option Nat
  | .unsubscribed id _ => some id
  | _ => none

def Mark.silent : Mark → Bool
  | .subscribed _ => false
  | .unsubscribed _ _ => false
  | _ => true

def replay (l : Log) (ids : List Nat) : List Nat := l.foldl (fun ids m => m.shift ids) ids

/-- Outside code takes off only numbers that it was given. -/
def Log.Honest (l : Log) : Prop :=
  ∀ pre id b post, l = pre ++ .unsubscribed id b :: post → .subscribed id ∈ pre

def Log.Once (l : Log) : Prop :=
  ∀ pre id post, l = pre ++ .subscribed id :: post → .subscribed id ∉ pre

theorem replay_append (l l' : Log) (ids : List Nat) :
    replay (l ++ l') ids = replay l' (replay l ids) := List.foldl_append

theorem Log.Honest.left (h : Log.Honest (l ++ l')) : l.Honest := by
  intro pre id b post hl
  exact h pre id b (post ++ l') (by rw [hl, List.append_assoc, List.cons_append])

theorem Log.Once.left (h : Log.Once (l ++ l')) : l.Once := by
  intro pre id post hl
  exact h pre id (post ++ l') (by rw [hl, List.append_assoc, List.cons_append])

def Log.permits (given : List Nat) : Log → Bool
  | [] => true
  | .subscribed id :: l => permits (id :: given) l
  | .unsubscribed id _ :: l => given.contains id && permits given l
  | _ :: l => permits given l

theorem Log.mem_of_permits {given : List Nat} {id : Nat} {b : Bool} (h : l.permits given = true)
    (hl : l = pre ++ .unsubscribed id b :: post) : id ∈ given ∨ .subscribed id ∈ pre := by
  induction l generalizing given pre with
  | nil => simp at hl
  | cons m l ih =>
    cases pre with
    | nil =>
      obtain ⟨rfl, -⟩ := List.cons.inj hl
      obtain ⟨hid, -⟩ := (Bool.and_eq_true ..).mp h
      exact .inl (List.contains_iff_mem.1 hid)
    | cons m' pre =>
      obtain ⟨rfl, htail⟩ := List.cons.inj hl
      have hrest {given' : List Nat} (h' : Log.permits given' l = true)
          (hgiven : id ∈ given' → id ∈ given ∨ m = .subscribed id) :
          id ∈ given ∨ .subscribed id ∈ m :: pre := by
        rcases ih h' htail with hid | hid
        · refine (hgiven hid).imp_right ?_
          rintro rfl
          exact List.mem_cons_self ..
        · exact .inr (List.mem_cons_of_mem _ hid)
      cases m with
      | subscribed j =>
        refine hrest h fun hid => (List.mem_cons.1 hid).symm.imp_right ?_
        rintro rfl
        rfl
      | unsubscribed j c => exact hrest ((Bool.and_eq_true ..).mp h).2 .inl
      | _ => exact hrest h .inl

theorem Log.honest_of_permits (h : l.permits [] = true) : l.Honest := fun _ _ _ _ hl =>
  (mem_of_permits h hl).resolve_left List.not_mem_nil

theorem Mark.shift_of_silent (h : m.silent = true) (ids : List Nat) : m.shift ids = ids := by
  cases m <;> first | rfl | cases h

theorem Log.Once.append (h : l.Once) (h' : l'.Once)
    (hapart : ∀ id, .subscribed id ∈ l → .subscribed id ∉ l') : Log.Once (l ++ l') := by
  intro pre id post hl hmem
  rcases append_eq_mid hl with ⟨mid, hold, rfl⟩ | ⟨mid, rfl, hl'⟩
  · exact h pre id mid hold hmem
  · rcases List.mem_append.1 hmem with hmem | hmem
    · exact hapart id hmem (hl' ▸ List.mem_append_right _ (List.mem_cons_self ..))
    · exact h' mid id post hl' hmem

theorem filter_replay (hsub : ∀ id, .subscribed id ∈ l → p id = true) (ids : List Nat) :
    (replay l ids).filter p = replay l (ids.filter p) := by
  induction l generalizing ids with
  | nil => rfl
  | cons m l ih =>
    have hshift : (m.shift ids).filter p = m.shift (ids.filter p) := by
      cases m with
      | subscribed id =>
        have hid : p id = true := hsub id (List.mem_cons_self ..)
        rw [Mark.shift, Mark.shift, List.filter_append, List.filter_cons_of_pos hid, List.filter_nil]
      | unsubscribed id b =>
        simp only [Mark.shift, List.filter_filter, Bool.and_comm]
      | _ => rfl
    have hrest := ih (fun id hid => hsub id (List.mem_cons_of_mem _ hid)) (m.shift ids)
    rw [hshift] at hrest
    exact hrest

theorem filter_replay_of_not (hsub : ∀ id, .subscribed id ∈ l → p id = false)
    (hunsub : ∀ id b, .unsubscribed id b ∈ l → p id = false) (ids : List Nat) :
    (replay l ids).filter p = ids.filter p := by
  induction l generalizing ids with
  | nil => rfl
  | cons m l ih =>
    have hshift : (m.shift ids).filter p = ids.filter p := by
      cases m with
      | subscribed id =>
        have hid : p id = false := hsub id (List.mem_cons_self ..)
        rw [Mark.shift, List.filter_append, List.filter_cons_of_neg (Bool.not_eq_true _ ▸ hid),
          List.filter_nil, List.append_nil]
      | unsubscribed id b =>
        have hid : p id = false := hunsub id b (List.mem_cons_self ..)
        rw [Mark.shift, List.filter_filter]
        refine List.filter_congr fun n _ => ?_
        by_cases hn : n = id
        · rw [hn, hid, Bool.false_and]
        · rw [bne_iff_ne.2 hn, Bool.and_true]
      | _ => rfl
    refine Eq.trans (ih (fun id hid => hsub id (List.mem_cons_of_mem _ hid))
      (fun id b hid => hunsub id b (List.mem_cons_of_mem _ hid)) (m.shift ids)) hshift

namespace Log

def given (l : Log) : List Nat := l.filterMap Mark.given?

def removed (l : Log) : List Nat := l.filterMap Mark.removed?

def remaining (l : Log) : List Nat := l.given.filter (· ∉ l.removed)

variable {id : Nat}

theorem mem_given : id ∈ l.given ↔ .subscribed id ∈ l := by
  rw [given, List.mem_filterMap]
  constructor
  · rintro ⟨m, hm, hid⟩
    cases m <;> cases hid
    exact hm
  · exact fun h => ⟨_, h, rfl⟩

theorem mem_removed : id ∈ l.removed ↔ ∃ b, .unsubscribed id b ∈ l := by
  rw [removed, List.mem_filterMap]
  constructor
  · rintro ⟨m, hm, hid⟩
    cases m <;> cases hid
    exact ⟨_, hm⟩
  · exact fun ⟨_, h⟩ => ⟨_, h, rfl⟩

theorem mem_remaining : id ∈ l.remaining ↔ .subscribed id ∈ l ∧ id ∉ l.removed := by
  rw [remaining, List.mem_filter, mem_given, decide_eq_true_iff]

theorem remaining_subscribed (h : id ∉ l.removed) :
    Log.remaining (l ++ [.subscribed id]) = l.remaining ++ [id] := by
  have hgiven : Log.given (l ++ [.subscribed id]) = l.given ++ [id] := List.filterMap_append
  have hremoved : Log.removed (l ++ [.subscribed id]) = l.removed :=
    List.filterMap_append.trans (List.append_nil _)
  rw [remaining, hgiven, hremoved, List.filter_append,
    List.filter_cons_of_pos (by simpa using h)]
  rfl

theorem remaining_unsubscribed (id : Nat) (b : Bool) :
    Log.remaining (l ++ [.unsubscribed id b]) = l.remaining.filter (· != id) := by
  have hgiven : Log.given (l ++ [.unsubscribed id b]) = l.given :=
    List.filterMap_append.trans (List.append_nil _)
  have hremoved : Log.removed (l ++ [.unsubscribed id b]) = l.removed ++ [id] :=
    List.filterMap_append
  rw [remaining, hgiven, hremoved, remaining, List.filter_filter]
  refine List.filter_congr fun j _ => ?_
  rw [Bool.eq_iff_iff]
  simp [and_comm]

theorem remaining_of_silent (hm : m.silent = true) : Log.remaining (l ++ [m]) = l.remaining := by
  have hgiven : Log.given (l ++ [m]) = l.given := by
    cases m <;> first | exact List.filterMap_append.trans (List.append_nil _) | cases hm
  have hremoved : Log.removed (l ++ [m]) = l.removed := by
    cases m <;> first | exact List.filterMap_append.trans (List.append_nil _) | cases hm
  rw [remaining, hgiven, hremoved, remaining]

theorem Honest.subscribed (h : l.Honest) (hid : id ∈ l.removed) : .subscribed id ∈ l := by
  obtain ⟨b, hmem⟩ := mem_removed.1 hid
  obtain ⟨pre, post, rfl⟩ := List.append_of_mem hmem
  exact List.mem_append_left _ (h pre id b post rfl)

end Log

theorem replay_eq_remaining (hh : l.Honest) (ho : l.Once) : replay l [] = l.remaining := by
  induction l using List.reverseRecOn with
  | nil => rfl
  | append_singleton l m ih =>
    rw [replay_append, ih hh.left ho.left]
    cases m with
    | subscribed id =>
      exact (Log.remaining_subscribed fun hid => ho l id [] rfl (hh.left.subscribed hid)).symm
    | unsubscribed id b => exact (Log.remaining_unsubscribed id b).symm
    | _ => exact (Log.remaining_of_silent rfl).symm

structure Register.Orderly (g : Register) : Prop where
  increasing : g.ids.Pairwise (· < ·)
  issued : ∀ id ∈ g.ids, id < g.issued

structure Register.Passes (g : Register) (l : Log) (g' : Register) : Prop where
  ids : g'.ids = replay l g.ids
  issued : g.issued ≤ g'.issued
  fresh : ∀ id, .subscribed id ∈ l → g.issued ≤ id ∧ id < g'.issued
  once : l.Once
  orderly : g.Orderly → g'.Orderly
  answers : ∀ pre id b post, l = pre ++ .unsubscribed id b :: post →
    b = (replay pre g.ids).contains id

namespace Register.Passes

theorem refl (g : Register) : g.Passes [] g where
  ids := rfl
  issued := Nat.le_refl _
  fresh _ h := absurd h List.not_mem_nil
  once pre id post h := by simp at h
  orderly := id
  answers pre id b post h := by simp at h

theorem append (h : g.Passes l g₁) (h' : g₁.Passes l' g') : g.Passes (l ++ l') g' where
  ids := by rw [h'.ids, h.ids, replay_append]
  issued := Nat.le_trans h.issued h'.issued
  fresh id hid := by
    rcases List.mem_append.1 hid with hid | hid
    · exact ⟨(h.fresh id hid).1, Nat.lt_of_lt_of_le (h.fresh id hid).2 h'.issued⟩
    · exact ⟨Nat.le_trans h.issued (h'.fresh id hid).1, (h'.fresh id hid).2⟩
  once := by
    refine h.once.append h'.once fun id hid hid' => ?_
    exact Nat.lt_irrefl _ (Nat.lt_of_lt_of_le (h.fresh id hid).2 (h'.fresh id hid').1)
  orderly := h'.orderly ∘ h.orderly
  answers pre id b post hl := by
    rcases append_eq_mid hl with ⟨mid, hold, rfl⟩ | ⟨mid, rfl, hl'⟩
    · exact h.answers pre id b mid hold
    · rw [replay_append, ← h.ids]
      exact h'.answers mid id b post hl'

theorem note (hm : m.silent = true) (h : g.Passes l g') : g.Passes (m :: l) g' := by
  have hne (x : Mark) (hx : x.silent = false) : x ∉ [m] := by
    rw [List.mem_singleton]
    rintro rfl
    exact Bool.false_ne_true (hx.symm.trans hm)
  have hone (x : Mark) (hx : x.silent = false) {pre post : Log} : [m] ≠ pre ++ x :: post := by
    intro hl
    exact hne x hx (hl ▸ List.mem_append_right _ (List.mem_cons_self ..))
  have hnoted : g.Passes [m] g :=
    ⟨(Mark.shift_of_silent hm _).symm, Nat.le_refl _, fun id hid => absurd hid (hne _ rfl),
      fun pre id post hl => absurd hl (hone _ rfl), id,
      fun pre id b post hl => absurd hl (hone _ rfl)⟩
  exact hnoted.append h

theorem noted (h : g.Passes l g') (hm : m.silent = true) : g.Passes (l ++ [m]) g' :=
  h.append (.note hm (.refl g'))

theorem of_note (hm : m.silent = true) (h : g.Passes (m :: l) g') : g.Passes l g' := by
  have hshift (pre : Log) : replay (m :: pre) g.ids = replay pre g.ids :=
    congrArg (replay pre) (Mark.shift_of_silent hm g.ids)
  refine ⟨h.ids.trans (hshift l), h.issued, fun id hid => h.fresh id (List.mem_cons_of_mem _ hid),
    fun pre id post hl hid => ?_, h.orderly, fun pre id b post hl => ?_⟩
  · exact h.once (m :: pre) id post (hl ▸ rfl) (List.mem_cons_of_mem _ hid)
  · exact hshift pre ▸ h.answers (m :: pre) id b post (hl ▸ rfl)

theorem of_noted (hm : m.silent = true) (h : g.Passes (l ++ [m]) g') : g.Passes l g' := by
  have hids : g'.ids = replay l g.ids := by
    rw [h.ids, replay_append]
    exact Mark.shift_of_silent hm _
  refine ⟨hids, h.issued, fun id hid => h.fresh id (List.mem_append_left _ hid),
    fun pre id post hl => h.once pre id (post ++ [m]) ?_, h.orderly,
    fun pre id b post hl => h.answers pre id b (post ++ [m]) ?_⟩
  · rw [hl, List.append_assoc, List.cons_append]
  · rw [hl, List.append_assoc, List.cons_append]

theorem subscribed (g : Register) : g.Passes [.subscribed g.issued] g.subscribe where
  ids := rfl
  issued := Nat.le_succ _
  fresh id hid := by
    cases List.mem_singleton.1 hid
    exact ⟨Nat.le_refl _, Nat.lt_succ_self _⟩
  once pre id post hl := by
    rcases List.singleton_eq_append_iff.1 hl with ⟨rfl, -⟩ | ⟨-, hnil⟩
    · exact List.not_mem_nil
    · cases hnil
  orderly h := by
    refine ⟨List.pairwise_append.2 ⟨h.increasing, List.pairwise_singleton .., ?_⟩, fun id hid => ?_⟩
    · intro id hid j hj
      exact List.mem_singleton.1 hj ▸ h.issued id hid
    · rcases List.mem_append.1 hid with hid | hid
      · exact Nat.lt_succ_of_lt (h.issued id hid)
      · exact List.mem_singleton.1 hid ▸ Nat.lt_succ_self _
  answers pre id b post hl := by
    rcases List.singleton_eq_append_iff.1 hl with ⟨-, hm⟩ | ⟨-, hnil⟩
    · cases hm
    · cases hnil

theorem unsubscribed (g : Register) (id : Nat) :
    g.Passes [.unsubscribed id (g.ids.contains id)] (g.unsubscribe id) where
  ids := rfl
  issued := Nat.le_refl _
  fresh j hj := by cases List.mem_singleton.1 hj
  once pre j post hl := by
    rcases List.singleton_eq_append_iff.1 hl with ⟨-, hm⟩ | ⟨-, hnil⟩
    · cases hm
    · cases hnil
  orderly h := ⟨h.increasing.filter _, fun j hj => h.issued j (List.mem_filter.1 hj).1⟩
  answers pre j b post hl := by
    rcases List.singleton_eq_append_iff.1 hl with ⟨rfl, hm⟩ | ⟨-, hnil⟩
    · cases hm
      rfl
    · cases hnil

theorem of_put {field : String} {value : Value} (h : (g.put field value).Passes l g') :
    g.Passes l g' := ⟨h.ids, h.issued, h.fresh, h.once, fun hg => h.orderly ⟨hg.1, hg.2⟩, h.answers⟩

end Register.Passes

mutual

theorem Record.passes {g g' : Register} {l : Log} : Record g l g' → g.Passes l g'
  | .nil _ => .refl _
  | .append h h' => h.passes.append h'.passes
  | .kept _ => .note rfl (.note rfl (.refl _))
  | .changed _ h => .note rfl (.noted (.of_put h.passes) rfl)
  | .announced h => .note rfl (.noted h.passes rfl)
  | .subscribed g => .subscribed g
  | .unsubscribed g id => .unsubscribed g id

theorem Telling.passes {e : Event} {g g' : Register} {l : Log} {r : Except EvalError Unit} :
    Telling e g l r g' → g.Passes l g'
  | .mk h => .note rfl (.noted h.passes rfl)

theorem Round.passes {e : Event} {ids : List Nat} {g g' : Register} {l : Log}
    {rs : List (Except EvalError Unit)} : Round e ids g l rs g' → g.Passes l g'
  | .nil _ _ => .refl _
  | .cons h h' => .note rfl (h.passes.append (.note rfl h'.passes))

end

end LiveMarkup
