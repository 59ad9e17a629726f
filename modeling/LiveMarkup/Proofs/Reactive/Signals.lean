import LiveMarkup.Proofs.Reactive.Abreast
import LiveMarkup.Proofs.Reactive.Feedback
import LiveMarkup.Proofs.Reactive.Lasting

/-!
Signals: what comes to a store from outside. They are sent one after another, whether they fail or not.
-/

namespace LiveMarkup

open LiveMarkup.Expression

variable {σ : Type}

inductive Signal where
  | set (field : String) (value : Value)
  | notify (field : String)

namespace Signal

def send (emit : Emit σ) : Signal → Act σ Unit
  | .set field value => do
    let _ ← Run.setField emit field value
    return ()
  | .notify field => Run.announce emit field

def sendAll (emit : Emit σ) : List Signal → Run σ Unit
  | [] => return ()
  | s :: ss => do
    let _ ← (s.send emit).run
    sendAll emit ss

section Emit

variable {emit : Emit σ} {R : World σ → World σ → Prop}

theorem abreast_send (hR : Bearing R)
    (hemit : ∀ e {p w}, R p w → Act.Abreast R (emit e) (emit e) p w) {p w : World σ} (h : R p w)
    (s : Signal) : Act.Abreast R (s.send emit) (s.send emit) p w := by
  cases s with
  | set field value => exact (hR.setField hemit h field value).map (fun _ => ()) fun _ => ()
  | notify field => exact hR.announce hemit h field

theorem abreast_sendAll (hR : Bearing R)
    (hemit : ∀ e {p w}, R p w → Act.Abreast R (emit e) (emit e) p w) {p w : World σ} (h : R p w)
    (ss : List Signal) : Run.Abreast R (sendAll emit ss) (sendAll emit ss) p w := by
  induction ss generalizing p w with
  | nil => exact .pure () () h
  | cons s ss ih => exact (abreast_send hR hemit h s).bind fun _ _ => ih

theorem keeps_send (hR : Scripted R) (hemit : ∀ e, Act.Keeps R (emit e)) (s : Signal) :
    Act.Keeps R (s.send emit) := by
  cases s with
  | set field value =>
    exact Act.keeps_bind hR.toSteady (hR.keeps_setField hemit field value) fun _ =>
      Act.keeps_pure hR.toSteady ()
  | notify field => exact Scripted.keeps_announce hemit field

theorem keeps_sendAll (hR : Scripted R) (hemit : ∀ e, Act.Keeps R (emit e)) (ss : List Signal) :
    Run.Keeps R (sendAll emit ss) := by
  induction ss with
  | nil => exact Run.keeps_pure hR.toSteady ()
  | cons s ss ih =>
    exact Run.keeps_bind hR.toSteady (keeps_send hR hemit s) fun _ => ih

end Emit

end Signal

theorem Script.Quiet.heeds {s : Script σ} (h : s.Quiet) (t : Target) : s.Heeds t := by
  induction s with
  | done r => trivial
  | look next ih => exact fun fields => ih fields (h fields)
  | «recall» next ih => exact fun memory => ih memory (h memory)
  | remember memory next ih => exact ih h
  | write field value next ih => exact h.1.elim
  | announce field next ih => exact h.1.elim
  | subscribe body next ihb ihn => exact h.1.elim
  | unsubscribe id next ih => exact h.1.elim

theorem Methods.QuietAt.heeds {methods : Methods σ} {name : String} (h : methods.QuietAt name)
    (t : Target) : methods.HeedsAt t name := fun method hm vs => (h method hm vs).heeds t

namespace Signal

section Heeded

variable {t : Target} {depth : Nat} {w : World σ}

theorem exists_send (hw : w.Heeds t) (hdepth : t.fields.card < depth) (s : Signal) :
    ∃ r w', Act.Ends (s.send (Run.broadcast depth)) w r w' ∧ w'.Heeds t := by
  have hpending (s : Store σ) : t.pending s < depth :=
    Nat.lt_of_le_of_lt (Finset.card_filter_le ..) hdepth
  have hemit := Target.tells_broadcast (σ := σ) (t := t) (Nat.le_refl depth) (Nat.le_refl depth)
  cases s with
  | set field value =>
    have hset : ∃ r w', Act.Ends (Run.setField (Run.broadcast depth) field value) w r w' ∧
        w'.Heeds t := by
      cases h : w.store.holds field value with
      | true => exact ⟨.ok false, w, Run.ends_setField.2 (by rw [if_pos h]; exact ⟨rfl, rfl⟩), hw⟩
      | false =>
        obtain ⟨r, w', l, hr, -, hspends⟩ := hemit.put hw h (hpending _)
        exact ⟨r, w', hr, hspends.heeds hw⟩
    obtain ⟨e | b, w', hr, hw'⟩ := hset
    · exact ⟨.error e, w', Act.ends_bind.2 (.inl ⟨e, hr, rfl⟩), hw'⟩
    · exact ⟨.ok (), w', Act.ends_bind.2 (.inr ⟨b, w', hr, Act.ends_pure.2 ⟨rfl, rfl⟩⟩), hw'⟩
  | notify field =>
    obtain ⟨r, w', l, hr, -, hspends⟩ := hemit ⟨field, w.store.get field⟩ w hw (hpending _)
    exact ⟨r, w', Act.ends_world_bind.2 hr, hspends.heeds hw⟩

theorem exists_sendAll (hw : w.Heeds t) (hdepth : t.fields.card < depth) (ss : List Signal) :
    ∃ w', Run.Ends (sendAll (Run.broadcast depth) ss) w () w' := by
  induction ss generalizing w with
  | nil => exact ⟨w, Run.ends_pure.2 ⟨rfl, rfl⟩⟩
  | cons s ss ih =>
    obtain ⟨r, w₁, hr, hw₁⟩ := exists_send hw hdepth s
    obtain ⟨w', hrest⟩ := ih hw₁
    exact ⟨w', Run.ends_bind.2 ⟨r, w₁, hr, hrest⟩⟩

end Heeded

end Signal

end LiveMarkup
