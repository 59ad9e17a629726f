import LiveMarkup.Proofs.Component.Checked

/-!
Mounted components and what is true of them throughout: between any two updates, from the first one that
mounts them on, however deep these nest.
-/

namespace LiveMarkup.Component

variable {σ : Type} {P Q : World σ → Prop} {o : MountOptions σ} {beyond : Emit σ} {depth : Nat}
  {c : Component σ} {w₀ w₁ w : World σ}

/-- Mounting on `w₀` gave `c` in `w₁`, and `w` is reached from there: `Q` holds after each of the updates
that mount it, before and after each observer is told of an event, and in the end. -/
structure Throughout (Q : World σ → Prop) (o : MountOptions σ) (beyond : Emit σ) (depth : Nat)
    (c : Component σ) (w₀ w₁ w : World σ) : Prop where
  mount : Act.Ends (mount (Run.broadcastChecked Q beyond depth) o) w₀ (.ok (some c)) w₁
  activated : ∀ n r w', Run.Ends (activate (Run.broadcastOver beyond depth) c.methods o.tracked
    (c.directives.take n)) (prepare o.directives c.root w₀) r w' → Q w'
  reaches : Reaches (Run.broadcastChecked Q beyond depth) c w₁ w
  holds : Q w

theorem exists_planned {emit : Emit σ} (h : Act.Ends (Component.mount emit o) w₀ (.ok (some c)) w₁) :
    c.methods = o.methods ∧ c.directives = c.root.directives ∧ ∃ element,
      w₀.document.query o.selector = some element ∧
        Mirror.ofElement o.directives w₀.document w₀.presences.size element = some c.root := by
  obtain ⟨root, hplan, hstart⟩ := ends_mount_some h
  obtain ⟨ids, -, rfl⟩ := ends_start_ok.1 hstart
  exact ⟨rfl, rfl, ofElement_of_planned hplan⟩

theorem throughout (hb : Run.Idle beyond)
    (hs : ∀ o ∈ w₀.store.observers, ∃ body, o.2 = .script body)
    (hmount : Act.Ends (mount (Run.broadcastOver beyond depth) o) w₀ (.ok (some c)) w₁)
    (h : Reaches (Run.broadcastOver beyond depth) c w₁ w)
    (hP : Upheld c.directives P) (hprepare : P (prepare o.directives c.root w₀))
    (hQ : ∀ {w}, w.Kept c.methods c.directives P → Q w) : Throughout Q o beyond depth c w₀ w₁ w := by
  obtain ⟨root, hplan, hstart⟩ := ends_mount_some hmount
  have hkept : World.Kept c.methods c.directives P (prepare o.directives c.root w₀) := by
    refine ⟨fun ob hob => ?_, hprepare⟩
    obtain ⟨body, hbody⟩ := hs ob hob
    rw [hbody]
    trivial
  have hemit := concur_broadcast hP hQ hb.concur depth
  obtain ⟨ids, -, rfl⟩ := ends_start_ok.1 hstart
  obtain ⟨hstart', hw₁⟩ := start_upheld hP hemit rfl hkept hstart
  obtain ⟨hreach, hw⟩ := h.upheld hP hemit rfl rfl hw₁
  refine ⟨ends_mount_of_start hplan hstart', fun n r w' hr => hQ ?_, hreach, hQ hw⟩
  have htake : ∀ d ∈ root.directives.take n, d ∈ root.directives := fun _ => List.mem_of_mem_take
  exact (upholding_activate hP hemit o.tracked htake _ _ _ hkept hr).2

end LiveMarkup.Component
