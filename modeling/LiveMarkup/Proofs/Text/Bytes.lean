import LiveMarkup.Text.Cut

/-!
Texts by byte offset. A text can be cut only where a character ends. A search that goes on byte by byte stops
where one does that goes on character by character, if it looks for ASCII.
-/

namespace LiveMarkup.Text

variable {text pre mid suf cs before after : List Char} {n : Nat}

theorem byteLength_pos (h : cs ≠ []) : 0 < byteLength cs := by
  cases cs with
  | nil => exact absurd rfl h
  | cons c cs => exact Nat.add_pos_left c.utf8Size_pos _

theorem byteLength_lt_append (pre : List Char) (h : cs ≠ []) :
    byteLength pre < byteLength (pre ++ cs) := by
  rw [byteLength_append]
  exact Nat.lt_add_of_pos_right (byteLength_pos h)

/-- What stands before the byte offset `n` and from there on; nothing inside a character or past the
end. -/
def cutBytes? : Nat → List Char → Option (List Char × List Char)
  | 0, cs => some ([], cs)
  | _ + 1, [] => none
  | n + 1, c :: cs =>
    if c.utf8Size ≤ n + 1 then (cutBytes? (n + 1 - c.utf8Size) cs).map fun p => (c :: p.1, p.2)
    else none

theorem cutBytes?_eq_some :
    cutBytes? n cs = some (before, after) ↔ cs = before ++ after ∧ byteLength before = n := by
  induction cs generalizing n before with
  | nil =>
    cases n with
    | zero => cases before <;> simp [cutBytes?, byteLength, eq_comm]
    | succ n => cases before <;> simp [cutBytes?, byteLength]
  | cons c cs ih =>
    have hpos := c.utf8Size_pos
    cases n with
    | zero =>
      cases before with
      | nil => simp [cutBytes?, byteLength, eq_comm]
      | cons d before =>
        have hd := d.utf8Size_pos
        simp [cutBytes?, byteLength]
        omega
    | succ n =>
      rw [cutBytes?]
      cases before with
      | nil => simp [byteLength]
      | cons d before =>
        constructor
        · intro h
          split at h
          · obtain ⟨p, hp, heq⟩ := Option.map_eq_some_iff.1 h
            cases heq
            obtain ⟨rfl, hlength⟩ := ih.1 hp
            exact ⟨rfl, by rw [byteLength]; omega⟩
          · cases h
        · rintro ⟨htext, hlength⟩
          cases htext
          rw [byteLength] at hlength
          rw [if_pos (by omega), ih.2 ⟨rfl, by omega⟩]
          rfl

def dropBytes? (n : Nat) (cs : List Char) : Option (List Char) := (cutBytes? n cs).map Prod.snd

theorem dropBytes?_eq_some :
    dropBytes? n cs = some suf ↔ ∃ pre, cs = pre ++ suf ∧ byteLength pre = n := by
  rw [dropBytes?, Option.map_eq_some_iff]
  constructor
  · rintro ⟨⟨pre, suf⟩, hcut, rfl⟩
    exact ⟨pre, cutBytes?_eq_some.1 hcut⟩
  · rintro ⟨pre, h⟩
    exact ⟨(pre, suf), cutBytes?_eq_some.2 h, rfl⟩

def slice? (text : List Char) (start stop : Nat) : Option (List Char) :=
  if start ≤ stop then
    (dropBytes? start text).bind fun cs => (cutBytes? (stop - start) cs).map Prod.fst
  else none

theorem slice?_eq (h : text = pre ++ (mid ++ suf)) :
    slice? text (byteLength pre) (byteLength (pre ++ mid)) = some mid := by
  have hdrop : dropBytes? (byteLength pre) text = some (mid ++ suf) :=
    dropBytes?_eq_some.2 ⟨pre, h, rfl⟩
  have hpiece : cutBytes? (byteLength mid) (mid ++ suf) = some (mid, suf) :=
    cutBytes?_eq_some.2 ⟨rfl, rfl⟩
  rw [slice?, byteLength_append, if_pos (Nat.le_add_right ..), hdrop, Nat.add_sub_cancel_left,
    Option.bind_some, hpiece]
  rfl

theorem le_of_slice? {start stop : Nat} (h : slice? text start stop = some mid) : start ≤ stop := by
  rw [slice?] at h
  split at h
  · assumption
  · cases h

def find? (needle cs : List Char) : Option Nat := (splitText needle cs).map fun p => byteLength p.1

structure Slice (text : List Char) where
  start : Nat
  stop : Nat
  chars : List Char
  valid : slice? text start stop = some chars

def cut? (text : List Char) (start stop : Nat) : Option (Slice text) :=
  match h : slice? text start stop with
  | some chars => some ⟨start, stop, chars, h⟩
  | none => none

theorem exists_cut? {start stop : Nat} (h : text = pre ++ (mid ++ suf))
    (hstart : start = byteLength pre) (hstop : stop = byteLength (pre ++ mid)) :
    ∃ s, cut? text start stop = some s ∧ s.chars = mid := by
  have hslice : slice? text start stop = some mid := by rw [hstart, hstop, slice?_eq h]
  rw [cut?]
  split
  · next chars hchars => exact ⟨_, rfl, Option.some.inj (hchars.symm.trans hslice)⟩
  · next hnone => cases hnone.symm.trans hslice

theorem bounds_of_cut? {start stop : Nat} {s : Slice text} (h : cut? text start stop = some s) :
    s.start = start ∧ s.stop = stop ∧ start ≤ stop := by
  rw [cut?] at h
  split at h
  · next hchars =>
    cases h
    exact ⟨rfl, rfl, le_of_slice? hchars⟩
  · cases h

/-- One after the other between two offsets, and none reaching into the next. -/
def InOrder {text : List Char} : Nat → List (Slice text) → Nat → Prop
  | start, [], stop => start ≤ stop
  | start, s :: ss, stop => start ≤ s.start ∧ s.start ≤ s.stop ∧ InOrder s.stop ss stop

section Order

variable {ss ss' : List (Slice text)} {start stop m : Nat}

theorem InOrder.le (h : InOrder start ss stop) : start ≤ stop := by
  induction ss generalizing start with
  | nil => exact h
  | cons s ss ih => exact Nat.le_trans (Nat.le_trans h.1 h.2.1) (ih h.2.2)

theorem InOrder.of_le (h : InOrder m ss stop) (hle : start ≤ m) : InOrder start ss stop := by
  cases ss with
  | nil => exact Nat.le_trans hle h
  | cons s ss => exact ⟨Nat.le_trans hle h.1, h.2⟩

theorem InOrder.append (h : InOrder start ss m) (h' : InOrder m ss' stop) :
    InOrder start (ss ++ ss') stop := by
  induction ss generalizing start with
  | nil => exact h'.of_le h
  | cons s ss ih => exact ⟨h.1, h.2.1, ih h.2.2⟩

end Order

def unitsOf (c : Char) : List Char := (String.utf8EncodeChar c).map Char.ofUInt8

/-- The bytes of a text, each as the character of its number. -/
def units (cs : List Char) : List Char := cs.flatMap unitsOf

def unit? (text : List Char) (n : Nat) : Option Char := (units text)[n]?

section Units

variable {c d : Char}

theorem toNat_ofUInt8 (b : UInt8) : (Char.ofUInt8 b).toNat = b.toNat := UInt8.toNat_toUInt32 b

theorem length_unitsOf (c : Char) : (unitsOf c).length = c.utf8Size := by
  rw [unitsOf, List.length_map, String.length_utf8EncodeChar]

theorem unitsOf_ascii (h : c.toNat < 128) : unitsOf c = [c] := by
  have hle : c.val.toNat ≤ 127 := Nat.le_of_lt_succ h
  have hmod : c.val.toNat % 256 = c.val.toNat := Nat.mod_eq_of_lt (by omega)
  rw [unitsOf, String.utf8EncodeChar, if_pos hle, List.map_singleton]
  refine congrArg (fun d => [d]) (Char.toNat_inj.1 ?_)
  rw [toNat_ofUInt8, UInt8.toNat_ofNat']
  exact hmod

theorem byteLength_add_one (h : c.toNat < 128) (cs : List Char) :
    byteLength cs + 1 = byteLength (cs ++ [c]) := by
  have hone := length_unitsOf c
  rw [unitsOf_ascii h, List.length_singleton] at hone
  rw [byteLength_append, byteLength, ← hone]
  rfl

theorem wide_of_mem_unitsOf (h : 128 ≤ c.toNat) (hd : d ∈ unitsOf c) : 128 ≤ d.toNat := by
  obtain ⟨b, hb, rfl⟩ := List.mem_map.1 hd
  have hbyte : 128 ≤ b.toNat := by
    have hnot : ¬c.val.toNat ≤ 127 := Nat.not_le.2 h
    rw [String.utf8EncodeChar, if_neg hnot] at hb
    split at hb
    · simp only [List.mem_cons, List.not_mem_nil, or_false] at hb
      rcases hb with rfl | rfl <;> rw [UInt8.toNat_ofNat'] <;> omega
    · split at hb
      · simp only [List.mem_cons, List.not_mem_nil, or_false] at hb
        rcases hb with rfl | rfl | rfl <;> rw [UInt8.toNat_ofNat'] <;> omega
      · simp only [List.mem_cons, List.not_mem_nil, or_false] at hb
        rcases hb with rfl | rfl | rfl | rfl <;> rw [UInt8.toNat_ofNat'] <;> omega
  rwa [toNat_ofUInt8]

theorem units_cons (c : Char) (cs : List Char) : units (c :: cs) = unitsOf c ++ units cs :=
  List.flatMap_cons

theorem units_cons_ascii (h : c.toNat < 128) (cs : List Char) : units (c :: cs) = c :: units cs := by
  rw [units_cons, unitsOf_ascii h]
  rfl

theorem units_cons_wide (h : 128 ≤ c.toNat) (cs : List Char) :
    ∃ d ds, units (c :: cs) = d :: ds ∧ 128 ≤ d.toNat := by
  have hlength := length_unitsOf c
  have hpos := c.utf8Size_pos
  cases hunits : unitsOf c with
  | nil =>
    rw [hunits, List.length_nil] at hlength
    omega
  | cons d ds =>
    refine ⟨d, ds ++ units cs, by rw [units_cons, hunits, List.cons_append], ?_⟩
    exact wide_of_mem_unitsOf h (hunits ▸ List.mem_cons_self ..)

theorem length_units (cs : List Char) : (units cs).length = byteLength cs := by
  induction cs with
  | nil => rfl
  | cons c cs ih => rw [units_cons, List.length_append, length_unitsOf, ih, byteLength]

theorem drop_units (h : text = pre ++ suf) : (units text).drop (byteLength pre) = units suf := by
  have hsplit : units text = units pre ++ units suf := by rw [h, units, List.flatMap_append]; rfl
  rw [hsplit, ← length_units, List.drop_left]

theorem head?_units (hd : d.toNat < 128) : (units cs).head? = some d ↔ cs.head? = some d := by
  cases cs with
  | nil => exact Iff.rfl
  | cons c cs =>
    by_cases hc : c.toNat < 128
    · rw [units_cons_ascii hc]
      exact Iff.rfl
    · obtain ⟨e, es, hunits, he⟩ := units_cons_wide (Nat.le_of_not_lt hc) cs
      rw [hunits, List.head?_cons, List.head?_cons, Option.some_inj, Option.some_inj]
      constructor
      · rintro rfl
        omega
      · rintro rfl
        omega

theorem unit?_eq_some (h : text = pre ++ suf) (hd : d.toNat < 128) :
    unit? text (byteLength pre) = some d ↔ suf.head? = some d := by
  rw [← head?_units hd, ← drop_units h, List.head?_drop, unit?]

end Units

def seek (stops : List Char → Bool) (text : List Char) (n : Nat) : Nat :=
  if n < byteLength text then
    if stops ((units text).drop n) then n else seek stops text (n + 1)
  else n
termination_by byteLength text - n

def runTo (stops : List Char → Bool) : List Char → List Char
  | [] => []
  | c :: cs => if stops (c :: cs) then [] else c :: runTo stops cs

/-- Looks for ASCII only. -/
structure Bytewise (stops : List Char → Bool) : Prop where
  ascii : ∀ c cs, c.toNat < 128 → stops (c :: units cs) = stops (c :: cs)
  wide : ∀ c cs d ds, 128 ≤ c.toNat → 128 ≤ d.toNat → stops (c :: cs) = stops (d :: ds)

section Seek

variable {stops : List Char → Bool} {c : Char}

theorem le_seek (stops : List Char → Bool) (text : List Char) (n : Nat) : n ≤ seek stops text n := by
  fun_induction seek stops text n with
  | case1 n hlt hstops => exact Nat.le_refl n
  | case2 n hlt hstops ih => exact Nat.le_of_succ_le ih
  | case3 n hge => exact Nat.le_refl n

theorem Bytewise.units (hb : Bytewise stops) (c : Char) (cs : List Char) :
    stops (units (c :: cs)) = stops (c :: cs) := by
  by_cases hc : c.toNat < 128
  · rw [units_cons_ascii hc, hb.ascii c cs hc]
  · have hc := Nat.le_of_not_lt hc
    obtain ⟨d, ds, hunits, hd⟩ := units_cons_wide hc cs
    rw [hunits, hb.wide c cs d ds hc hd]

theorem seek_within (h : text = pre ++ c :: suf)
    (hwide : 128 ≤ c.toNat → ∀ d ds, 128 ≤ d.toNat → stops (d :: ds) = false) {j : Nat}
    (hj : 0 < j) (hle : j ≤ c.utf8Size) :
    seek stops text (byteLength pre + j) = seek stops text (byteLength (pre ++ [c])) := by
  have hend : byteLength (pre ++ [c]) = byteLength pre + c.utf8Size := byteLength_append ..
  induction hn : c.utf8Size - j generalizing j with
  | zero =>
    have hlast : j = c.utf8Size := by omega
    rw [hlast, hend]
  | succ n ih =>
    have hlt : j < c.utf8Size := by omega
    have hc : 128 ≤ c.toNat := by
      refine Nat.le_of_not_lt fun hascii => ?_
      have hone := byteLength_add_one hascii pre
      omega
    have hbound : byteLength pre + j < byteLength text := by
      rw [h, byteLength_append, byteLength]
      omega
    have hdrop : (units text).drop (byteLength pre + j) = (unitsOf c).drop j ++ units suf := by
      rw [← List.drop_drop, drop_units h, units_cons, List.drop_append_of_le_length]
      rw [length_unitsOf]
      exact hle
    have hstops : stops ((unitsOf c).drop j ++ units suf) = false := by
      cases hrest : (unitsOf c).drop j with
      | nil =>
        have hlength := List.drop_eq_nil_iff.1 hrest
        rw [length_unitsOf] at hlength
        omega
      | cons d ds =>
        have hd : d ∈ unitsOf c := List.mem_of_mem_drop (hrest ▸ List.mem_cons_self ..)
        exact hwide hc d _ (wide_of_mem_unitsOf hc hd)
    rw [seek, if_pos hbound, hdrop, if_neg (Bool.eq_false_iff.1 hstops), Nat.add_assoc]
    exact ih (Nat.succ_pos j) hlt (by omega)

theorem seek_eq (hb : Bytewise stops) (h : text = pre ++ suf) :
    seek stops text (byteLength pre) = byteLength (pre ++ runTo stops suf) := by
  induction suf generalizing pre with
  | nil =>
    rw [List.append_nil] at h
    rw [seek, h, if_neg (Nat.lt_irrefl _), runTo, List.append_nil]
  | cons c cs ih =>
    have hbound : byteLength pre < byteLength text :=
      h ▸ byteLength_lt_append pre (List.cons_ne_nil c cs)
    rw [seek, if_pos hbound, drop_units h, hb.units, runTo]
    cases hstops : stops (c :: cs) with
    | true => rw [if_pos rfl, if_pos rfl, List.append_nil]
    | false =>
      have hwide (hc : 128 ≤ c.toNat) (d : Char) (ds : List Char) (hd : 128 ≤ d.toNat) :
          stops (d :: ds) = false := (hb.wide c cs d ds hc hd).symm.trans hstops
      rw [if_neg Bool.false_ne_true, if_neg Bool.false_ne_true,
        seek_within h hwide Nat.one_pos c.utf8Size_pos, ih (h.trans (List.append_cons ..)),
        ← List.append_cons]

theorem seek_succ (hb : Bytewise stops) (hwide : ∀ d ds, 128 ≤ d.toNat → stops (d :: ds) = false)
    (h : text = pre ++ c :: suf) :
    seek stops text (byteLength pre + 1) = byteLength (pre ++ c :: runTo stops suf) := by
  rw [seek_within h (fun _ => hwide) Nat.one_pos c.utf8Size_pos,
    seek_eq hb (h.trans (List.append_cons ..)), ← List.append_cons]

end Seek

def leaves (p : Char → Bool) : List Char → Bool
  | [] => true
  | c :: _ => !p c

theorem runTo_leaves (p : Char → Bool) (cs : List Char) : runTo (leaves p) cs = cs.takeWhile p := by
  induction cs with
  | nil => rfl
  | cons c cs ih =>
    rw [runTo, leaves, ih, List.takeWhile_cons]
    cases p c <;> rfl

theorem bytewise_leaves {p : Char → Bool}
    (h : ∀ c d, 128 ≤ c.toNat → 128 ≤ d.toNat → p c = p d) : Bytewise (leaves p) where
  ascii _ _ _ := rfl
  wide c _ d _ hc hd := congrArg (!·) (h c d hc hd)

end LiveMarkup.Text
