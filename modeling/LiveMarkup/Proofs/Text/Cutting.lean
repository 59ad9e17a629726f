import LiveMarkup.Text.Cut

/-!
Cuts undo what was put around and between texts: trimming takes off the blanks at both ends, splitting
takes out the separators.
-/

namespace LiveMarkup.Text

variable {c : Char} {cs ds lead rest rest' trail : List Char}

def Blank (cs : List Char) : Prop := ∀ c ∈ cs, isBlank c = true

instance (cs : List Char) : Decidable (Blank cs) := List.decidableBAll _ _

structure Trimmed (cs : List Char) : Prop where
  head : ∀ c ∈ cs.head?, isBlank c = false
  last : ∀ c ∈ cs.getLast?, isBlank c = false

theorem isWordChar_of_mem (h : isWord cs = true) (hc : c ∈ cs) : isWordChar c = true := by
  simp only [isWord, Bool.and_eq_true, List.all_eq_true] at h
  exact h.2 c hc

theorem toNat_of_isWordChar (h : isWordChar c = true) : 0x20 < c.toNat ∧ c.toNat < 0x80 := by
  have hcases : ((c.isUpper = true ∨ c.isLower = true) ∨ c.isDigit = true) ∨ c = '_' := by
    rw [isWordChar, Bool.or_eq_true, beq_iff_eq] at h
    exact h.imp_left fun h => (Bool.or_eq_true_iff.1 h).imp_left Bool.or_eq_true_iff.1
  have hrange {low high : UInt32} (hlow : low ≤ c.val) (hhigh : c.val ≤ high) (hlow' : 0x20 < low.toNat)
      (hhigh' : high.toNat < 0x80) : 0x20 < c.toNat ∧ c.toNat < 0x80 :=
    ⟨Nat.lt_of_lt_of_le hlow' hlow, Nat.lt_of_le_of_lt hhigh hhigh'⟩
  rcases hcases with ((h | h) | h) | rfl
  · exact hrange (of_decide_eq_true h).1 (of_decide_eq_true h).2 (by decide) (by decide)
  · obtain ⟨hlow, hhigh⟩ := Bool.and_eq_true_iff.1 h
    exact hrange (of_decide_eq_true hlow) (of_decide_eq_true hhigh) (by decide) (by decide)
  · obtain ⟨hlow, hhigh⟩ := Bool.and_eq_true_iff.1 h
    exact hrange (of_decide_eq_true hlow) (of_decide_eq_true hhigh) (by decide) (by decide)
  · decide

theorem not_isBlank_of_ascii (h : 0x20 < c.toNat ∧ c.toNat < 0x80) : isBlank c = false := by
  rw [← Bool.not_eq_true]
  intro hblank
  simp only [isBlank, blankRanges, List.any_cons, List.any_nil, Bool.or_eq_true, Bool.and_eq_true,
    decide_eq_true_eq, Bool.false_eq_true, or_false] at hblank
  omega

theorem not_isBlank_of_isWordChar (h : isWordChar c = true) : isBlank c = false :=
  not_isBlank_of_ascii (toNat_of_isWordChar h)

theorem blank_takeWhile (cs : List Char) : Blank (cs.takeWhile isBlank) :=
  List.all_eq_true.1 List.all_takeWhile

theorem dropWhile_of_head {p : Char → Bool} (h : ∀ c ∈ cs.head?, p c = false) :
    cs.dropWhile p = cs := by
  cases cs with
  | nil => rfl
  | cons c cs => rw [List.dropWhile_cons, h c rfl, if_neg Bool.false_ne_true]

theorem head_dropWhile (p : Char → Bool) (cs : List Char) :
    ∀ c ∈ (cs.dropWhile p).head?, p c = false := by
  intro c hc
  have hnot := List.head?_dropWhile_not p cs
  rw [Option.mem_def.1 hc] at hnot
  exact hnot

theorem trimEnd_append (cs : List Char) (h : Blank trail) : trimEnd (cs ++ trail) = trimEnd cs := by
  have hreverse : Blank trail.reverse := fun c hc => h c (List.mem_reverse.1 hc)
  rw [trimEnd, List.reverse_append, List.dropWhile_append_of_pos hreverse, trimEnd]

theorem trimEnd_of_last (h : ∀ c ∈ cs.getLast?, isBlank c = false) : trimEnd cs = cs := by
  rw [← List.head?_reverse] at h
  rw [trimEnd, dropWhile_of_head h, List.reverse_reverse]

theorem trim_padded (hlead : Blank lead) (h : Trimmed cs) (htrail : Blank trail) :
    trim (lead ++ cs ++ trail) = cs := by
  rw [trim, trimStart, List.append_assoc, List.dropWhile_append_of_pos hlead]
  cases cs with
  | nil =>
    rw [List.nil_append, ← List.append_nil trail, List.dropWhile_append_of_pos htrail]
    rfl
  | cons c cs =>
    have hhead : ∀ d ∈ (c :: cs ++ trail).head?, isBlank d = false := h.head
    rw [dropWhile_of_head hhead, trimEnd_append _ htrail, trimEnd_of_last h.last]

theorem trim_blank (h : Blank cs) : trim cs = [] := by
  have hnil : Trimmed [] := ⟨nofun, nofun⟩
  simpa using trim_padded h hnil (List.forall_mem_nil _)

theorem exists_trimEnd (cs : List Char) : ∃ trail, Blank trail ∧ cs = trimEnd cs ++ trail := by
  refine ⟨(cs.reverse.takeWhile isBlank).reverse, fun c hc => ?_, ?_⟩
  · exact blank_takeWhile _ c (List.mem_reverse.1 hc)
  · rw [trimEnd, ← List.reverse_append, List.takeWhile_append_dropWhile, List.reverse_reverse]

theorem trimmed_trim (cs : List Char) : Trimmed (trim cs) := by
  obtain ⟨trail, _, htrail⟩ := exists_trimEnd (trimStart cs)
  refine ⟨fun c hc => ?_, fun c hc => ?_⟩
  · -- what is left begins as the text did before its end was trimmed
    obtain ⟨tail, htail⟩ := List.head?_eq_some_iff.1 hc
    rw [show trimEnd (trimStart cs) = c :: tail from htail] at htrail
    exact head_dropWhile isBlank cs c (by rw [← trimStart, htrail]; rfl)
  · rw [trim, trimEnd, List.getLast?_reverse] at hc
    exact head_dropWhile isBlank _ c hc

theorem exists_trim (cs : List Char) :
    ∃ lead trail, Blank lead ∧ Blank trail ∧ cs = lead ++ trim cs ++ trail := by
  obtain ⟨trail, hblank, htrail⟩ := exists_trimEnd (trimStart cs)
  refine ⟨cs.takeWhile isBlank, trail, blank_takeWhile cs, hblank, ?_⟩
  rw [List.append_assoc, trim, ← htrail, trimStart, List.takeWhile_append_dropWhile]

theorem run_append {p : Char → Bool} (h : ∀ c ∈ cs, p c = true)
    (hrest : ∀ c ∈ rest.head?, p c = false) :
    (cs ++ rest).takeWhile p = cs ∧ (cs ++ rest).dropWhile p = rest := by
  rw [List.takeWhile_append_of_pos h, List.dropWhile_append_of_pos h, dropWhile_of_head hrest]
  cases rest with
  | nil => simp
  | cons c rest => simp [hrest c rfl]

theorem run_cancel {p : Char → Bool} (hcs : ∀ c ∈ cs, p c = true) (hds : ∀ c ∈ ds, p c = true)
    (hrest : ∀ c ∈ rest.head?, p c = false) (hrest' : ∀ c ∈ rest'.head?, p c = false)
    (h : cs ++ rest = ds ++ rest') : cs = ds ∧ rest = rest' := by
  obtain ⟨htake, hdrop⟩ := run_append hcs hrest
  obtain ⟨htake', hdrop'⟩ := run_append hds hrest'
  rw [h] at htake hdrop
  exact ⟨htake.symm.trans htake', hdrop.symm.trans hdrop'⟩

theorem cut_cancel (hcs : c ∉ cs) (hds : c ∉ ds) (h : cs ++ c :: rest = ds ++ c :: rest') :
    cs = ds ∧ rest = rest' := by
  have hcut := splitFirst_append rest hcs
  rw [h, splitFirst_append rest' hds] at hcut
  cases hcut
  exact ⟨rfl, rfl⟩

theorem mem_intercalate {d : Char} {texts : List (List Char)} (h : d ∈ [c].intercalate texts) :
    d = c ∨ ∃ cs ∈ texts, d ∈ cs := by
  induction texts with
  | nil => cases h
  | cons cs texts ih =>
    cases texts with
    | nil =>
      rw [List.intercalate_singleton] at h
      exact .inr ⟨cs, List.mem_singleton_self _, h⟩
    | cons ds texts =>
      rw [List.intercalate_cons_cons, List.append_assoc, List.mem_append, List.mem_append] at h
      rcases h with h | h | h
      · exact .inr ⟨cs, List.mem_cons_self .., h⟩
      · exact .inl (List.mem_singleton.1 h)
      · exact (ih h).imp_right fun ⟨es, hes, hd⟩ => ⟨es, List.mem_cons_of_mem _ hes, hd⟩

theorem of_mem_splitAll {piece : List Char} (h : piece ∈ splitAll c cs) : c ∉ piece ∧ piece ⊆ cs := by
  induction cs generalizing piece with
  | nil =>
    cases List.mem_singleton.1 h
    exact ⟨List.not_mem_nil, List.nil_subset _⟩
  | cons d cs ih =>
    rw [splitAll] at h
    split at h
    · rcases List.mem_cons.1 h with rfl | h
      · exact ⟨List.not_mem_nil, List.nil_subset _⟩
      · exact ⟨(ih h).1, List.subset_cons_of_subset _ (ih h).2⟩
    · next hd =>
      split at h
      · cases List.mem_singleton.1 h
        simp [Ne.symm hd]
      · next front pieces hpieces =>
        rcases List.mem_cons.1 h with rfl | h
        · obtain ⟨hnot, hsub⟩ := ih (hpieces ▸ List.mem_cons_self ..)
          exact ⟨by simp [hnot, Ne.symm hd], List.cons_subset_cons d hsub⟩
        · obtain ⟨hnot, hsub⟩ := ih (hpieces ▸ List.mem_cons_of_mem _ h)
          exact ⟨hnot, List.subset_cons_of_subset _ hsub⟩

theorem splitAll_of_not_mem (h : c ∉ cs) : splitAll c cs = [cs] := by
  induction cs with
  | nil => rfl
  | cons d cs ih =>
    simp only [List.mem_cons, not_or] at h
    rw [splitAll, if_neg (Ne.symm h.1), ih h.2]

theorem splitAll_append (h : c ∉ cs) (rest : List Char) :
    splitAll c (cs ++ c :: rest) = cs :: splitAll c rest := by
  induction cs with
  | nil => rw [List.nil_append, splitAll, if_pos rfl]
  | cons d cs ih =>
    simp only [List.mem_cons, not_or] at h
    rw [List.cons_append, splitAll, if_neg (Ne.symm h.1), ih h.2]

theorem splitAll_intercalate {texts : List (List Char)} (hne : texts ≠ [])
    (h : ∀ cs ∈ texts, c ∉ cs) : splitAll c ([c].intercalate texts) = texts := by
  induction texts with
  | nil => exact absurd rfl hne
  | cons cs texts ih =>
    have hcs := h cs (List.mem_cons_self ..)
    cases texts with
    | nil => rw [List.intercalate_singleton, splitAll_of_not_mem hcs]
    | cons ds texts =>
      rw [List.intercalate_cons_cons, List.append_assoc, List.singleton_append,
        splitAll_append hcs, ih (List.cons_ne_nil _ _) fun es hes => h es (List.mem_cons_of_mem _ hes)]

end LiveMarkup.Text
