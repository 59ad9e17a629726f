import LiveMarkup.Proofs.Markup.Reread
import Mathlib.Data.List.TakeWhile

/-!
What a parsed tree is like, whatever the text was: names come out as a printed name is read, void
elements stay empty, and no comment holds the end of one.
-/

namespace LiveMarkup.Markup

open LiveMarkup.Text

theorem isLower_toLower_of_isAlpha {c : Char} (h : c.isAlpha = true) :
    c.toLower.isLower = true := by
  cases hu : c.isUpper with
  | false =>
    rw [toLower_of_not_isUpper hu]
    exact (isAlpha_iff.1 h).resolve_left (Bool.eq_false_iff.1 hu)
  | true =>
    obtain ⟨hA, hZ⟩ := isUpper_iff.1 hu
    have hsum : c.toLower.toNat = c.toNat + 32 := by
      have hshift : (c.val + ('a'.val - 'A'.val)).toNat = c.toNat + 32 := by
        rw [UInt32.toNat_add]
        exact Nat.mod_eq_of_lt (Nat.lt_of_le_of_lt (Nat.add_le_add_right hZ _) (by decide))
      unfold Char.toLower
      rw [dif_pos (of_decide_eq_true hu)]
      exact hshift
    rw [isLower_iff, hsum]
    omega

theorem isPlainChar_toLower {c : Char} (h : isNameChar c = true) :
    isPlainChar c.toLower = true := by
  cases hu : c.isUpper with
  | true => exact isPlainChar_of_isLower (isLower_toLower_of_isAlpha (isAlpha_iff.2 (.inl hu)))
  | false =>
    rw [toLower_of_not_isUpper hu, isPlainChar, h, hu]
    rfl

theorem toLower_ne_equals {c : Char} (h : c ≠ '=') : c.toLower ≠ '=' := by
  cases hu : c.isUpper with
  | true =>
    have hl := isLower_toLower_of_isAlpha (isAlpha_iff.2 (.inl hu))
    rintro heq
    rw [heq] at hl
    cases hl
  | false => rwa [toLower_of_not_isUpper hu]

theorem isTagName_asciiLower {c : Char} {cs : List Char} (hc : c.isAlpha = true)
    (hcs : ∀ d ∈ cs, isNameChar d = true) :
    isTagName (String.ofList (c :: cs)).asciiLower.toList = true := by
  rw [String.asciiLower, String.toList_map, String.toList_ofList, List.map_cons, isTagName,
    isLower_toLower_of_isAlpha hc, Bool.true_and, List.all_eq_true]
  intro d hd
  obtain ⟨e, he, rfl⟩ := List.mem_map.1 hd
  exact isPlainChar_toLower (hcs e he)

theorem isWrittenName_asciiLower {c : Char} {cs : List Char} (hc : isNameChar c = true)
    (hcs : ∀ d ∈ cs, isAttributeNameChar d = true) :
    isWrittenName (String.ofList (c :: cs)).asciiLower.toList = true := by
  rw [String.asciiLower, String.toList_map, String.toList_ofList, List.map_cons, isWrittenName,
    isPlainChar_toLower hc, Bool.true_and, List.all_eq_true]
  intro d hd
  obtain ⟨e, he, rfl⟩ := List.mem_map.1 hd
  have hname := hcs e he
  rw [isAttributeNameChar, Bool.and_eq_true, bne_iff_ne] at hname
  rw [isPlainChar_toLower hname.1, Bool.true_and, bne_iff_ne]
  exact toLower_ne_equals hname.2

def Item.Legible : Item → Prop
  | .text _ => True
  | .start name written _ =>
    isTagName name.asciiLower.toList = true ∧
      ∀ w ∈ written, isWrittenName w.1.asciiLower.toList = true
  | .stop _ => True
  | .comment body => ¬commentEnd <:+: body.toList

theorem tagBody_legible (cs : List Char) :
    ∀ w ∈ (tagBody cs).1.attributes, isWrittenName w.1.asciiLower.toList = true := by
  fun_induction tagBody cs with
  | case1 => exact List.forall_mem_nil _
  | case2 cs => exact List.forall_mem_nil _
  | case3 cs => exact List.forall_mem_nil _
  | case4 c cs _ _ _ ih => exact ih
  | case5 c cs hclose _ hskip body rest hr ih =>
    intro w hw
    rcases List.mem_cons.1 hw with rfl | hw
    · simp only [Bool.or_eq_true, beq_iff_eq, not_or, Bool.not_eq_true] at hskip
      have hc : isNameChar c = true := by
        have hne : c ≠ '>' := hclose
        simp [isNameChar, hskip.1, hskip.2, hne]
      have hname : (readAttribute c cs).1.1 =
          String.ofList (c :: cs.takeWhile isAttributeNameChar) := by
        unfold readAttribute
        dsimp only
        split <;> rfl
      rw [hname]
      exact isWrittenName_asciiLower hc fun d => List.mem_takeWhile_imp
    · rw [hr] at ih
      exact ih w hw

theorem startTag_legible {c : Char} {cs : List Char} (hc : c.isAlpha = true) :
    (startTag (c :: cs)).1.Legible := by
  have hname : (c :: cs).takeWhile isNameChar = c :: cs.takeWhile isNameChar := by
    rw [List.takeWhile_cons, isNameChar_of_isAlpha hc, if_pos rfl]
  unfold startTag
  rw [hname]
  exact ⟨isTagName_asciiLower hc fun d => List.mem_takeWhile_imp, tagBody_legible _⟩

theorem not_infix_of_splitText_eq_none {needle cs : List Char} (h : splitText needle cs = none) :
    ¬needle <:+: cs := by
  induction cs with
  | nil =>
    cases needle with
    | nil => cases h
    | cons c needle => simp
  | cons c cs ih =>
    rw [splitText] at h
    split at h
    · cases h
    · next hb =>
      rw [List.infix_cons_iff]
      rintro (⟨rest, hrest⟩ | hi)
      · rw [behind?_eq_some.2 hrest.symm] at hb
        cases hb
      · exact ih (Option.map_eq_none_iff.1 h) hi

theorem not_infix_before {needle cs before after : List Char} (hne : needle ≠ [])
    (h : splitText needle cs = some (before, after)) : ¬needle <:+: before := by
  induction cs generalizing before with
  | nil =>
    have hcs := splitText_eq_some h
    simp [hne] at hcs
  | cons c cs ih =>
    have hcs := splitText_eq_some h
    rw [splitText] at h
    split at h
    · cases h
      simpa using hne
    · next hb =>
      obtain ⟨p, hp, hq⟩ := Option.map_eq_some_iff.1 h
      cases hq
      rw [List.infix_cons_iff]
      rintro (⟨rest, hrest⟩ | hi)
      · rw [hcs, ← hrest, List.append_assoc, List.append_assoc, behind?_eq_some.2 rfl] at hb
        cases hb
      · exact ih hp hi

theorem comment_legible (cs : List Char) : (comment cs).1.Legible := by
  unfold comment
  cases h : splitText commentEnd cs with
  | none =>
    rw [Option.getD_none, Item.Legible, String.toList_ofList]
    exact not_infix_of_splitText_eq_none h
  | some p =>
    rw [Option.getD_some, Item.Legible, String.toList_ofList]
    exact not_infix_before (by decide) h

theorem next_legible (c : Char) (cs : List Char) : ∀ i ∈ (next c cs).1, i.Legible := by
  intro i hi
  unfold next at hi
  split at hi
  · next hopens =>
    split at hi
    · next rest => exact Option.mem_some_iff.1 hi ▸ comment_legible rest
    · cases hi
    · cases hi
    · next rest =>
      unfold endTag at hi
      split at hi
      · cases hi
      · dsimp only at hi
        split at hi
        · cases hi
        · exact Option.mem_some_iff.1 hi ▸ trivial
    · next hcomment hdeclaration hquestion hslash =>
      unfold opensMarkup at hopens
      split at hopens
      · next d ds heq =>
        have hcs := (List.cons.inj heq).2
        subst hcs
        have hd : d.isAlpha = true := by
          simp only [Bool.or_eq_true, beq_iff_eq] at hopens
          rcases hopens with ((rfl | rfl) | rfl) | halpha
          · exact absurd rfl (hdeclaration ds)
          · exact absurd rfl (hquestion ds)
          · exact absurd rfl (hslash ds)
          · exact halpha
        exact Option.mem_some_iff.1 hi ▸ startTag_legible hd
      · cases hopens
  · exact Option.mem_some_iff.1 hi ▸ trivial

theorem items_legible (cs : List Char) : ∀ i ∈ items cs, i.Legible := by
  fun_induction items cs with
  | case1 => nofun
  | case2 c cs ih =>
    intro i hi
    rcases List.mem_append.1 hi with hi | hi
    · exact next_legible c cs i (Option.mem_toList.1 hi)
    · exact ih i hi

mutual

def Branch.Every {ι : Type} (p : Branch ι → Prop) : Branch ι → Prop
  | .element label tag attributes children =>
    p (.element label tag attributes children) ∧ Forest.Every p children
  | .text label data => p (.text label data)
  | .comment label data => p (.comment label data)

def Forest.Every {ι : Type} (p : Branch ι → Prop) : Forest ι → Prop
  | [] => True
  | b :: bs => Branch.Every p b ∧ Forest.Every p bs

end

mutual

instance Branch.decidableEvery {ι : Type} {p : Branch ι → Prop} [DecidablePred p] :
    (b : Branch ι) → Decidable (b.Every p)
  | .element label tag attributes children =>
    have := Forest.decidableEvery (p := p) children
    inferInstanceAs (Decidable (p (.element label tag attributes children) ∧
      Forest.Every p children))
  | .text label data => inferInstanceAs (Decidable (p (.text label data)))
  | .comment label data => inferInstanceAs (Decidable (p (.comment label data)))

instance Forest.decidableEvery {ι : Type} {p : Branch ι → Prop} [DecidablePred p] :
    (f : Forest ι) → Decidable (Forest.Every p f)
  | [] => inferInstanceAs (Decidable True)
  | b :: bs =>
    have := Branch.decidableEvery (p := p) b
    have := Forest.decidableEvery (p := p) bs
    inferInstanceAs (Decidable (Branch.Every p b ∧ Forest.Every p bs))

end

theorem Forest.every_iff {ι : Type} {p : Branch ι → Prop} {f : Forest ι} :
    Forest.Every p f ↔ ∀ b ∈ f, b.Every p := by
  induction f with
  | nil => simp [Forest.Every]
  | cons b bs ih => simp [Forest.Every, ih]

def Branch.Scanned {ι : Type} : Branch ι → Prop
  | .element _ tag attributes children =>
    isTagName tag.toList = true ∧ attributes.Named ∧ (isVoid tag = true → children = [])
  | .text _ _ => True
  | .comment _ data => ¬commentEnd <:+: data.toList

namespace Unfinished

structure FrameScanned (f : Frame) : Prop where
  tag : isTagName f.tag.toList = true
  void : isVoid f.tag = false
  attributes : f.attributes.Named
  earlier : Forest.Every Branch.Scanned f.earlier

structure Scanned (p : Unfinished) : Prop where
  finished : Forest.Every Branch.Scanned p.finished
  frames : ∀ f ∈ p.frames, FrameScanned f

theorem every_closeFrame {f : Frame} {finished : Forest Unit} (hf : FrameScanned f)
    (h : Forest.Every Branch.Scanned finished) :
    Forest.Every Branch.Scanned (closeFrame f finished) := by
  refine ⟨⟨⟨hf.tag, hf.attributes, fun hv => ?_⟩, ?_⟩, hf.earlier⟩
  · rw [hf.void] at hv
    cases hv
  · rw [Forest.every_iff] at h ⊢
    exact fun b hb => h b (List.mem_reverse.1 hb)

theorem scanned_closeThrough? {tag : String} {finished : Forest Unit} {frames : List Frame}
    {p : Unfinished} (h : Forest.Every Branch.Scanned finished)
    (hframes : ∀ f ∈ frames, FrameScanned f) (hp : closeThrough? tag finished frames = some p) :
    p.Scanned := by
  induction frames generalizing finished with
  | nil => cases hp
  | cons f fs ih =>
    have hclosed := every_closeFrame (hframes f (List.mem_cons_self ..)) h
    have hrest : ∀ g ∈ fs, FrameScanned g := fun g hg => hframes g (List.mem_cons_of_mem _ hg)
    rw [closeThrough?] at hp
    split at hp
    · cases hp
      exact ⟨hclosed, hrest⟩
    · exact ih hclosed hrest hp

theorem every_closeAll {finished : Forest Unit} {frames : List Frame}
    (h : Forest.Every Branch.Scanned finished) (hframes : ∀ f ∈ frames, FrameScanned f) :
    Forest.Every Branch.Scanned (closeAll finished frames) := by
  induction frames generalizing finished with
  | nil =>
    rw [closeAll]
    rw [Forest.every_iff] at h ⊢
    exact fun b hb => h b (List.mem_reverse.1 hb)
  | cons f fs ih =>
    exact ih (every_closeFrame (hframes f (List.mem_cons_self ..)) h) fun g hg =>
      hframes g (List.mem_cons_of_mem _ hg)

theorem attributes_named {written : List WrittenAttribute}
    (h : ∀ w ∈ written, isWrittenName w.1.asciiLower.toList = true) :
    (attributes written).Named := by
  unfold attributes
  refine List.foldlRecOn written _ ⟨nofun, List.nodup_nil⟩ fun as has w hw => ?_
  dsimp only
  split
  · exact has
  · next hnew =>
    refine ⟨fun a ha => ?_, ?_⟩
    · rcases List.mem_append.1 ha with ha | ha
      · exact has.names a ha
      · rw [List.mem_singleton.1 ha]
        exact h w hw
    · have hfresh : w.1.asciiLower ∉ as.map Prod.fst := by
        intro hmem
        obtain ⟨a, ha, heq⟩ := List.mem_map.1 hmem
        exact hnew (List.any_eq_true.2 ⟨a, ha, beq_iff_eq.2 heq⟩)
      rw [List.map_append, List.nodup_append]
      refine ⟨has.nodup, by simp, fun x hx y hy hxy => ?_⟩
      rw [List.map_singleton, List.mem_singleton] at hy
      rw [hxy, hy] at hx
      exact hfresh hx

theorem Scanned.push {p : Unfinished} (h : p.Scanned) {b : Branch Unit} (hb : b.Every Branch.Scanned) :
    (p.push b).Scanned := ⟨⟨hb, h.finished⟩, h.frames⟩

theorem Scanned.add {p : Unfinished} (h : p.Scanned) {i : Item} (hi : i.Legible) :
    (p.add i).Scanned := by
  cases i with
  | text s => exact h.push trivial
  | comment body => exact h.push hi
  | start name written selfClosing =>
    have hnamed := attributes_named hi.2
    rw [Unfinished.add]
    split
    · exact h.push ⟨⟨hi.1, hnamed, fun _ => rfl⟩, trivial⟩
    · next hopen =>
      simp only [Bool.or_eq_true, not_or, Bool.not_eq_true] at hopen
      refine ⟨trivial, fun f hf => ?_⟩
      rcases List.mem_cons.1 hf with rfl | hf
      · exact ⟨hi.1, hopen.2, hnamed, h.finished⟩
      · exact h.frames f hf
  | stop name =>
    rw [Unfinished.add]
    split
    · exact h
    · cases hc : closeThrough? name.asciiLower p.finished p.frames with
      | none => exact h
      | some q => exact scanned_closeThrough? h.finished h.frames hc

end Unfinished

theorem Forest.scanned_parse (source : String) :
    Forest.Every Branch.Scanned (Forest.parse source) := by
  have hp : ((scan source).foldl Unfinished.add ⟨[], []⟩).Scanned :=
    List.foldlRecOn (scan source) _ ⟨trivial, nofun⟩ fun _ hp i hi =>
      hp.add (items_legible _ i hi)
  exact Unfinished.every_closeAll hp.finished hp.frames

end LiveMarkup.Markup
