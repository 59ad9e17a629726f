import LiveMarkup.Proofs.Document.Editing
import Mathlib.Logic.Function.Basic

/-!
The journal as a history. However often it is taken away in between, its entries one after the other turn
the parents at the beginning into those at the end; each fits where it stands, and none is missing. Nodes may
hang below themselves, and the root below others.
-/

namespace LiveMarkup.Document

variable {d d₀ : Document}

def parents (d : Document) (n : NodeId) : Option NodeId := (d.node n).parent

/-- The parents after an entry, if they are such before it that it could happen. -/
def Mutation.replay? (parents : NodeId → Option NodeId) : Mutation → Option (NodeId → Option NodeId)
  | .inserted p n => if parents n = none then some (Function.update parents n (some p)) else none
  | .removed p n => if parents n = some p then some (Function.update parents n none) else none
  | .textChanged _ => some parents

def replay? (parents : NodeId → Option NodeId) (ms : List Mutation) :
    Option (NodeId → Option NodeId) :=
  ms.foldlM Mutation.replay? parents

inductive Operation where
  | edit (e : Edit)
  | takeJournal
  deriving DecidableEq, Repr

def Operation.run (d : Document) : Operation → List Mutation × Document
  | .edit e => ([], e.run d)
  | .takeJournal => (d.journal, d.drained)

def after (d : Document) (ops : List Operation) : Document :=
  ops.foldl (fun d op => (op.run d).2) d

def taken : Document → List Operation → List Mutation
  | _, [] => []
  | d, op :: ops => (op.run d).1 ++ taken (op.run d).2 ops

def history (d : Document) (ops : List Operation) : List Mutation :=
  taken d ops ++ (after d ops).journal

/-- The nodes that an edit looks up; to a reference others are only compared. -/
def Edit.nodes : Edit → List NodeId
  | .createText _ => []
  | .createElement _ => []
  | .insert _ parent child => [parent, child]
  | .removeChild parent _ => [parent]
  | .setText id _ => [id]
  | .setAttribute id _ _ => [id]
  | .removeAttribute id _ => [id]

/-- An edit that looks up a node that is not there has no outcome. -/
def Edit.Possible (d : Document) (e : Edit) : Prop := ∀ n ∈ e.nodes, n < d.nodes.size

def Operation.Possible (d : Document) : Operation → Prop
  | .edit e => e.Possible d
  | .takeJournal => True

def PossibleAll : Document → List Operation → Prop
  | _, [] => True
  | d, op :: ops => op.Possible d ∧ PossibleAll (op.run d).2 ops

instance (d : Document) : DecidablePred (Operation.Possible d)
  | .edit e => inferInstanceAs (Decidable (∀ n ∈ e.nodes, n < d.nodes.size))
  | .takeJournal => inferInstanceAs (Decidable True)

instance decidablePossibleAll : (d : Document) → DecidablePred (PossibleAll d)
  | _, [] => inferInstanceAs (Decidable True)
  | d, op :: ops =>
    have := decidablePossibleAll (op.run d).2 ops
    inferInstanceAs (Decidable (op.Possible d ∧ PossibleAll (op.run d).2 ops))

def Edit.entries (d : Document) : Edit → List Mutation
  | .insert _ parent child =>
    (d.parents child).toList.map (.removed · child) ++ [.inserted parent child]
  | .removeChild parent child =>
    if d.parents child = some parent then [.removed parent child] else []
  | .setText id data => if (d.node id).data = data then [] else [.textChanged id]
  | _ => []

def Operation.entries (d : Document) : Operation → List Mutation
  | .edit e => e.entries d
  | .takeJournal => []

def told : Document → List Operation → List Mutation
  | _, [] => []
  | d, op :: ops => op.entries d ++ told (op.run d).2 ops

/-- What an edit tells: moves that lead from the old parents to the new ones, a text when it is set to
another, and nothing when nothing is done. -/
structure Edit.Recorded (d : Document) (e : Edit) : Prop where
  journal : (e.run d).journal = d.journal ++ e.entries d
  replays : Document.replay? d.parents (e.entries d) = some (e.run d).parents
  texts : ∀ n, .textChanged n ∈ e.entries d ↔ ∃ data, e = .setText n data ∧ (d.node n).data ≠ data
  sameText : ∀ n data, e = .setText n data → (d.node n).data = data →
    e.entries d = [] ∧ e.run d = d
  noChild : ∀ p n, e = .removeChild p n → (d.node p).children.contains n = false →
    e.entries d = [] ∧ e.run d = d

theorem replay?_append (parents : NodeId → Option NodeId) (ms ms' : List Mutation) :
    replay? parents (ms ++ ms') = (replay? parents ms).bind (replay? · ms') :=
  List.foldlM_append

theorem replay?_singleton (parents : NodeId → Option NodeId) (m : Mutation) :
    replay? parents [m] = m.replay? parents := by
  simp [replay?]

theorem Edit.mutual_run {e : Edit} (h : d.Mutual) (he : e.Possible d) : (e.run d).Mutual := by
  cases e with
  | insert position parent child =>
    have hsize := (rewires_detach d child).size
    have hp : parent < d.nodes.size := he parent (by simp [Edit.nodes])
    have hc : child < d.nodes.size := he child (by simp [Edit.nodes])
    rw [Edit.run, Position.insert_eq_place]
    exact (h.detach child).place (hsize ▸ hp) (hsize ▸ hc) (h.parent_detach child)
      (position.perm_arrange child)
  | removeChild parent child => exact h.removeChild parent child
  | _ => exact h.congr (Edit.links_run rfl)

theorem removeChild_of_not_mem {parent child : NodeId}
    (h : (d.node parent).children.contains child = false) : d.removeChild parent child = d := by
  rw [removeChild, h]
  rfl

theorem Mutual.contains_iff (h : d.Mutual) (parent child : NodeId) :
    (d.node parent).children.contains child = true ↔ d.parents child = some parent :=
  List.contains_iff_mem.trans (h.links parent child)

theorem Mutual.journal_removeChild (h : d.Mutual) (parent child : NodeId) :
    (d.removeChild parent child).journal =
      d.journal ++ if d.parents child = some parent then [.removed parent child] else [] := by
  unfold Document.removeChild
  by_cases hp : d.parents child = some parent
  · rw [if_pos ((h.contains_iff parent child).2 hp), if_pos hp]
    rfl
  · rw [if_neg (mt (h.contains_iff parent child).1 hp), if_neg hp, List.append_nil]

theorem Mutual.parents_removeChild (h : d.Mutual) (parent child : NodeId) :
    (d.removeChild parent child).parents =
      if d.parents child = some parent then Function.update d.parents child none
      else d.parents := by
  funext n
  rw [parents, parent_removeChild]
  by_cases hp : d.parents child = some parent
  · have hmem : child ∈ (d.node parent).children := (h.links parent child).2 hp
    rw [if_pos hp, Function.update_apply]
    exact if_congr (and_iff_left hmem) rfl rfl
  · have hmem : child ∉ (d.node parent).children := mt (h.links parent child).1 hp
    rw [if_neg hp, if_neg fun hn => hmem hn.2]
    rfl

theorem Mutual.replay?_removeChild (h : d.Mutual) (parent child : NodeId) :
    replay? d.parents (if d.parents child = some parent then [.removed parent child] else []) =
      some (d.removeChild parent child).parents := by
  rw [h.parents_removeChild]
  split
  · next hp => rw [replay?_singleton, Mutation.replay?, if_pos hp]
  · rfl

theorem parents_place {parent child : NodeId} (hc : child < d.nodes.size)
    (arrange : List NodeId → List NodeId) :
    (d.place parent child arrange).parents = Function.update d.parents child (some parent) := by
  funext n
  rw [parents, parent_place, Function.update_apply]
  exact if_congr (and_iff_left_of_imp fun hn => hn ▸ hc) rfl rfl

theorem Mutual.detach_entries (h : d.Mutual) (child : NodeId) :
    (d.detach child).journal = d.journal ++ (d.parents child).toList.map (.removed · child) ∧
      replay? d.parents ((d.parents child).toList.map (.removed · child)) =
        some (d.detach child).parents := by
  unfold Document.detach
  cases hp : (d.node child).parent with
  | none =>
    have hnone : d.parents child = none := hp
    rw [hnone]
    exact ⟨(List.append_nil _).symm, rfl⟩
  | some p =>
    have hsome : d.parents child = some p := hp
    have hreplay := h.replay?_removeChild p child
    rw [if_pos hsome] at hreplay
    rw [hsome]
    exact ⟨by rw [h.journal_removeChild, if_pos hsome]; rfl, hreplay⟩

theorem Edit.journal_run {e : Edit} (h : d.Mutual) :
    (e.run d).journal = d.journal ++ e.entries d := by
  cases e with
  | insert position parent child =>
    have hplace (d : Document) (arrange : List NodeId → List NodeId) :
        (d.place parent child arrange).journal = d.journal ++ [.inserted parent child] := rfl
    rw [Edit.run, Position.insert_eq_place, hplace, (h.detach_entries child).1, Edit.entries,
      List.append_assoc]
  | removeChild parent child => exact h.journal_removeChild parent child
  | setText id data =>
    rw [Edit.run, Edit.entries, Document.setText]
    split
    · exact (List.append_nil _).symm
    · rfl
  | _ => exact (List.append_nil _).symm

theorem Edit.replay?_entries {e : Edit} (h : d.Mutual) (he : e.Possible d) :
    Document.replay? d.parents (e.entries d) = some (e.run d).parents := by
  cases e with
  | insert position parent child =>
    have hc : child < (d.detach child).nodes.size :=
      (rewires_detach d child).size ▸ he child (by simp [Edit.nodes])
    have hfree : (d.detach child).parents child = none := h.parent_detach child
    rw [Edit.run, Position.insert_eq_place, Edit.entries, replay?_append, (h.detach_entries child).2,
      Option.bind_some, replay?_singleton, Mutation.replay?, if_pos hfree, parents_place hc]
  | removeChild parent child => exact h.replay?_removeChild parent child
  | setText id data =>
    have hsame : (d.setText id data).parents = d.parents :=
      funext fun n => (Edit.links_run (e := .setText id data) rfl n).1
    rw [Edit.run, Edit.entries, hsame]
    split
    · rfl
    · rw [replay?_singleton, Mutation.replay?]
  | _ => exact congrArg some (funext fun n => (Edit.links_run rfl n).1.symm)

theorem Edit.textChanged_mem_entries {e : Edit} {n : NodeId} :
    .textChanged n ∈ e.entries d ↔ ∃ data, e = .setText n data ∧ (d.node n).data ≠ data := by
  cases e with
  | setText id data =>
    rw [Edit.entries]
    split
    · next h =>
      refine iff_of_false List.not_mem_nil ?_
      rintro ⟨data', heq, hne⟩
      cases heq
      exact hne h
    · next h =>
      rw [List.mem_singleton, Mutation.textChanged.injEq]
      constructor
      · rintro rfl
        exact ⟨data, rfl, h⟩
      · rintro ⟨data', heq, -⟩
        cases heq
        rfl
  | removeChild parent child =>
    rw [Edit.entries]
    split <;> simp
  | _ => simp [Edit.entries]

theorem Edit.recorded {e : Edit} (h : d.Mutual) (he : e.Possible d) : e.Recorded d where
  journal := Edit.journal_run h
  replays := Edit.replay?_entries h he
  texts _ := Edit.textChanged_mem_entries
  sameText n data heq hdata := by
    subst heq
    exact ⟨if_pos hdata, setText_of_data hdata⟩
  noChild p n heq hn := by
    subst heq
    have hp : d.parents n ≠ some p := fun hp =>
      Bool.false_ne_true (hn.symm.trans ((h.contains_iff p n).2 hp))
    exact ⟨if_neg hp, removeChild_of_not_mem hn⟩

theorem Operation.mutual_run {op : Operation} (h : d.Mutual) (hop : op.Possible d) :
    (op.run d).2.Mutual := by
  cases op with
  | edit e => exact Edit.mutual_run h hop
  | takeJournal => exact h.congr fun _ => ⟨rfl, rfl⟩

theorem mutual_after {ops : List Operation} (h : d.Mutual) (hops : PossibleAll d ops) :
    (after d ops).Mutual := by
  induction ops generalizing d with
  | nil => exact h
  | cons op ops ih => exact ih (Operation.mutual_run h hops.1) hops.2

theorem possible_of_split {before rest : List Operation} {op : Operation}
    (h : PossibleAll d (before ++ op :: rest)) :
    PossibleAll d before ∧ op.Possible (after d before) := by
  induction before generalizing d with
  | nil => exact ⟨trivial, h.1⟩
  | cons op' before ih =>
    obtain ⟨hbefore, hop⟩ := ih h.2
    exact ⟨⟨h.1, hbefore⟩, hop⟩

theorem history_eq_told {ops : List Operation} (h : d.Mutual) (hops : PossibleAll d ops) :
    history d ops = d.journal ++ told d ops := by
  induction ops generalizing d with
  | nil => exact (List.append_nil _).symm
  | cons op ops ih =>
    have hrest := ih (Operation.mutual_run h hops.1) hops.2
    cases op with
    | edit e =>
      have hstep : history d (.edit e :: ops) = history (e.run d) ops := rfl
      rw [hstep, told]
      refine hrest.trans ?_
      rw [Operation.run, Operation.entries, Edit.journal_run h, List.append_assoc]
    | takeJournal =>
      have hstep : history d (.takeJournal :: ops) = d.journal ++ history d.drained ops :=
        List.append_assoc ..
      rw [hstep]
      exact congrArg (d.journal ++ ·) hrest

theorem replay?_told {ops : List Operation} (h : d.Mutual) (hops : PossibleAll d ops) :
    replay? d.parents (told d ops) = some (after d ops).parents := by
  induction ops generalizing d with
  | nil => rfl
  | cons op ops ih =>
    have hrest := ih (Operation.mutual_run h hops.1) hops.2
    cases op with
    | edit e =>
      rw [told, replay?_append, Operation.entries, Edit.replay?_entries h hops.1]
      exact hrest
    | takeJournal => exact hrest

theorem history_replays (hd : d₀ = .empty ∨ ∃ source, d₀ = .parse source) (ops : List Operation)
    (hops : PossibleAll d₀ ops) :
    replay? d₀.parents (history d₀ ops) = some (after d₀ ops).parents ∧
      (∀ p n, n ∈ ((after d₀ ops).node p).children ↔ (after d₀ ops).parents n = some p) ∧
        history d₀ ops = told d₀ ops ∧
          ∀ before e rest, ops = before ++ .edit e :: rest → e.Recorded (after d₀ before) := by
  have hstart : d₀.Mutual ∧ d₀.journal = [] := by
    rcases hd with rfl | ⟨source, rfl⟩
    · exact ⟨(consistent_ofForest _).toMutual, rfl⟩
    · exact ⟨(consistent_parse source).toMutual, rfl⟩
  have htold : history d₀ ops = told d₀ ops := by
    rw [history_eq_told hstart.1 hops, hstart.2, List.nil_append]
  refine ⟨?_, (mutual_after hstart.1 hops).links, htold, fun before e rest hsplit => ?_⟩
  · rw [htold]
    exact replay?_told hstart.1 hops
  · rw [hsplit] at hops
    obtain ⟨hbefore, he⟩ := possible_of_split hops
    exact Edit.recorded (mutual_after hstart.1 hbefore) he

/-- A node is moved before itself, another one below itself; an absent node is a reference, a text is
set to what it is, and a child is taken from a parent that it does not have. -/
theorem history_replays_tangled :
    let d₀ := Document.parse "<p>a</p><q></q>"
    let ops : List Operation := [.edit (.insert (.before 1) Document.root 1), .takeJournal,
      .edit (.createText "b"), .edit (.insert (.after 9) 1 4), .edit (.setText 2 "a"),
      .edit (.insert .first 3 3), .edit (.setText 2 "c"), .takeJournal, .edit (.removeChild 3 1)]
    PossibleAll d₀ ops ∧
      history d₀ ops = [.removed 0 1, .inserted 0 1, .inserted 1 4, .removed 0 3, .inserted 3 3,
        .textChanged 2] ∧
      replay? d₀.parents (history d₀ ops) = some (after d₀ ops).parents := by
  intro d₀ ops
  have hops : PossibleAll d₀ ops := by decide +kernel
  have hreplay := history_replays (.inr ⟨_, rfl⟩) ops hops
  exact ⟨hops, by decide +kernel, hreplay.1⟩

end LiveMarkup.Document
