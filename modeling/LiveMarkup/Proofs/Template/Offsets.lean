import LiveMarkup.Proofs.Template.Leftmost
import LiveMarkup.Proofs.Text.Bytes

/-!
Splitting by byte offsets. A text can be cut only where a character ends, and a search goes on behind an
opening delimiter that leads to nothing; no cut fails, and the parts are those of the scan.
-/

namespace LiveMarkup

open LiveMarkup.Text

namespace TemplatePart

variable {opening closing text cs done pre mid suf : List Char}

def candidate? (opening closing text : List Char) (pos : Nat) : Option (Option (Nat × Nat)) := do
  let cs ← dropBytes? pos text
  match find? opening cs with
  | none => some none
  | some found =>
    let inner := pos + found + byteLength opening
    let cs ← dropBytes? inner text
    some ((find? closing cs).map fun length => (pos + found, inner + length))

theorem candidate?_bounds {pos start stop : Nat}
    (h : candidate? opening closing text pos = some (some (start, stop))) :
    pos ≤ byteLength text ∧ pos ≤ start ∧ start + byteLength opening ≤ stop := by
  rw [candidate?] at h
  obtain ⟨cs, hcut, h⟩ := Option.bind_eq_some_iff.1 h
  obtain ⟨before, rfl, rfl⟩ := dropBytes?_eq_some.1 hcut
  refine ⟨by rw [byteLength_append]; exact Nat.le_add_right .., ?_⟩
  split at h
  · cases h
  · obtain ⟨p, -, h⟩ := Option.bind_eq_some_iff.1 h
    obtain ⟨length, -, heq⟩ := Option.map_eq_some_iff.1 (Option.some.inj h)
    cases heq
    omega

def between? (text : List Char) (start stop : Nat) : Option (List TemplatePart) :=
  if start < stop then (slice? text start stop).map fun cs => [.text (String.ofList cs)] else some []

/-- The search goes on behind the first character of an opening delimiter that leads to nothing. -/
def retry : List Char → Nat
  | [] => 1
  | c :: _ => c.utf8Size

theorem retry_pos (opening : List Char) : 0 < retry opening := by
  cases opening with
  | nil => exact Nat.one_pos
  | cons c _ => exact c.utf8Size_pos

def splitFrom? (opening closing text : List Char) (hopening : opening ≠ []) (start pos : Nat) :
    Option (List TemplatePart) :=
  match _h : candidate? opening closing text pos with
  | none => none
  | some none => between? text start (byteLength text)
  | some (some (openAt, closeAt)) => do
    let word ← slice? text (openAt + byteLength opening) closeAt
    if isWord word then
      let before ← between? text start openAt
      let stop := closeAt + byteLength closing
      let parts ← splitFrom? opening closing text hopening stop stop
      some (before ++ .field (String.ofList word) :: parts)
    else splitFrom? opening closing text hopening start (openAt + retry opening)
termination_by byteLength text + 1 - pos
decreasing_by
  · have hbounds := candidate?_bounds _h
    have hlength := byteLength_pos hopening
    omega
  · have hbounds := candidate?_bounds _h
    have hretry := retry_pos opening
    omega

def splitBytes? (opening closing text : String) : Option (List TemplatePart) :=
  if h : opening = "" ∨ closing = "" then some (plain text.toList)
  else splitFrom? opening.toList closing.toList text.toList (mt String.toList_eq_nil_iff.1 (not_or.1 h).1)
    0 0

def pair? (opening closing cs : List Char) : Option (List Char × List Char × List Char) :=
  (splitText opening cs).bind fun p => (splitText closing p.2).map fun q => (p.1, q)

variable {before word rest b : List Char}

theorem pair?_eq_some : pair? opening closing cs = some (before, word, rest) ↔
    ∃ inner, splitText opening cs = some (before, inner) ∧
      splitText closing inner = some (word, rest) := by
  rw [pair?, Option.bind_eq_some_iff]
  constructor
  · rintro ⟨⟨before, inner⟩, hopen, h⟩
    obtain ⟨q, hclose, heq⟩ := Option.map_eq_some_iff.1 h
    cases heq
    exact ⟨inner, hopen, hclose⟩
  · rintro ⟨inner, hopen, hclose⟩
    exact ⟨(before, inner), hopen, by rw [hclose]; rfl⟩

theorem text_of_pair? (h : pair? opening closing cs = some (before, word, rest)) :
    cs = before ++ (opening ++ (word ++ (closing ++ rest))) := by
  obtain ⟨inner, hopen, hclose⟩ := pair?_eq_some.1 h
  rw [splitText_eq_some hopen, splitText_eq_some hclose]
  simp only [List.append_assoc]

variable (opening closing) in
theorem candidate?_eq (h : text = pre ++ cs) :
    candidate? opening closing text (byteLength pre) = some ((pair? opening closing cs).map fun p =>
      (byteLength (pre ++ p.1), byteLength (pre ++ p.1 ++ opening ++ p.2.1))) := by
  have hdrop : dropBytes? (byteLength pre) text = some cs := dropBytes?_eq_some.2 ⟨pre, h, rfl⟩
  rw [candidate?, hdrop, Option.bind_eq_bind, Option.bind_some, find?, pair?]
  cases hopen : splitText opening cs with
  | none => rfl
  | some p =>
    have hinner : byteLength pre + byteLength p.1 + byteLength opening =
        byteLength (pre ++ p.1 ++ opening) := by simp only [byteLength_append]
    have htext : text = pre ++ p.1 ++ opening ++ p.2 := by
      rw [h, splitText_eq_some hopen]
      simp only [List.append_assoc]
    have hdrop : dropBytes? (byteLength (pre ++ p.1 ++ opening)) text = some p.2 :=
      dropBytes?_eq_some.2 ⟨_, htext, rfl⟩
    simp only [Option.map_some, hinner, hdrop, Option.bind_some, find?, Option.map_map]
    refine congrArg some (Option.map_congr fun q _ => ?_)
    simp only [Function.comp_apply, byteLength_append]

theorem between?_eq (h : text = pre ++ (mid ++ suf)) :
    between? text (byteLength pre) (byteLength (pre ++ mid)) = some (plain mid) := by
  rw [between?, plain]
  split
  · next hlt =>
    have hmid : mid ≠ [] := by
      rintro rfl
      rw [List.append_nil] at hlt
      exact absurd hlt (Nat.lt_irrefl _)
    rw [slice?_eq h, if_neg hmid]
    rfl
  · next hnlt =>
    have hmid : mid = [] :=
      Decidable.byContradiction fun hne => hnlt (byteLength_lt_append pre hne)
    rw [if_pos hmid]

theorem Passed.behind (hpassed : Passed opening closing pre suf)
    (h : Starts opening closing (pre ++ suf) b) :
    ∃ b', b = pre ++ b' ∧ Starts opening closing suf b' := by
  have hle := hpassed b h
  obtain ⟨here, word, rest, htext, hplace⟩ := h
  have hinitial : pre <+: b := List.prefix_of_prefix_length_le ⟨suf, rfl⟩ ⟨here, htext.symm⟩ hle
  obtain ⟨b', rfl⟩ := hinitial
  rw [List.append_assoc, List.append_cancel_left_eq] at htext
  exact ⟨b', rfl, here, word, rest, htext, hplace⟩

theorem Starts.pair (h : Starts opening closing cs b) :
    ∃ before word rest, pair? opening closing cs = some (before, word, rest) ∧
      before.length ≤ b.length ∧ (before.length = b.length → isWord word = true) := by
  obtain ⟨here, word, rest, rfl, hplace⟩ := h
  obtain rfl := hplace.text
  have hhere : b ++ (opening ++ (word ++ closing ++ rest)) = b ++ opening ++ (word ++ closing ++ rest) :=
    (List.append_assoc ..).symm
  obtain ⟨⟨before, inner⟩, hopen⟩ :=
    Option.ne_none_iff_exists'.1 fun hnone => splitText_eq_none.1 hnone ⟨b, _, hhere.symm⟩
  have hfirst := first_of_splitText hopen
  have hle := hfirst.least b _ hhere
  have hsuffix : word ++ closing ++ rest <:+ inner := by
    refine List.suffix_of_suffix_length_le ⟨b ++ opening, hhere.symm⟩
      ⟨before ++ opening, hfirst.text.symm⟩ ?_
    have hlength := congrArg List.length hfirst.text
    simp only [List.length_append] at hlength ⊢
    omega
  obtain ⟨⟨word', rest'⟩, hclose⟩ :=
    Option.ne_none_iff_exists'.1 fun hnone => splitText_eq_none.1 hnone
      (List.IsInfix.trans ⟨word, rest, rfl⟩ hsuffix.isInfix)
  refine ⟨before, word', rest', pair?_eq_some.2 ⟨inner, hopen, hclose⟩, hle, fun heq => ?_⟩
  obtain ⟨rfl, hinner⟩ := List.append_inj (hfirst.text.trans (List.append_assoc ..)) heq.symm
  rw [List.append_cancel_left_eq] at hinner
  cases (splitText_eq_some_iff.2 hplace.first).symm.trans (hinner ▸ hclose)
  exact hplace.word

theorem Passed.not_starts (hpassed : Passed opening closing pre suf)
    (hpair : pair? opening closing suf = none) : ¬ Starts opening closing (pre ++ suf) b := by
  intro h
  obtain ⟨b', -, h⟩ := hpassed.behind h
  obtain ⟨before, word, rest, hsome, -⟩ := h.pair
  cases hpair.symm.trans hsome

theorem Passed.leftmost (hpassed : Passed opening closing pre suf)
    (hpair : pair? opening closing suf = some (before, word, rest)) (hword : isWord word = true) :
    Leftmost opening closing (pre ++ suf) (pre ++ before) word rest := by
  obtain ⟨inner, hopen, hclose⟩ := pair?_eq_some.1 hpair
  have hfirst := first_of_splitText hclose
  refine ⟨?_, ⟨rfl, hfirst.text ▸ hfirst, hword⟩, fun b hb => ?_⟩
  · rw [text_of_pair? hpair]
    simp only [List.append_assoc]
  · obtain ⟨b', rfl, hstarts⟩ := hpassed.behind hb
    obtain ⟨before', word', rest', hpair', hle, -⟩ := hstarts.pair
    cases hpair.symm.trans hpair'
    rw [List.length_append, List.length_append]
    exact Nat.add_le_add_left hle _

theorem Passed.retry {c : Char} {cs : List Char} (hpassed : Passed (c :: cs) closing pre suf)
    (hpair : pair? (c :: cs) closing suf = some (before, word, rest)) (hword : isWord word = false) :
    Passed (c :: cs) closing (pre ++ (before ++ [c])) (cs ++ (word ++ (closing ++ rest))) := by
  intro b hb
  have htext : pre ++ suf = pre ++ (before ++ [c]) ++ (cs ++ (word ++ (closing ++ rest))) := by
    rw [text_of_pair? hpair]
    simp
  rw [← htext] at hb
  obtain ⟨b', rfl, hstarts⟩ := hpassed.behind hb
  obtain ⟨before', word', rest', hpair', hle, hisWord⟩ := hstarts.pair
  cases hpair.symm.trans hpair'
  have hne : before.length ≠ b'.length := by
    intro heq
    rw [hisWord heq] at hword
    cases hword
  simp only [List.length_append, List.length_singleton]
  omega

theorem splitFrom?_last {hopening : opening ≠ []} {start pos : Nat}
    (h : candidate? opening closing text pos = some none) :
    splitFrom? opening closing text hopening start pos = between? text start (byteLength text) := by
  rw [splitFrom?]
  split
  · next hc => cases h.symm.trans hc
  · rfl
  · next hc => cases h.symm.trans hc

theorem splitFrom?_next {hopening : opening ≠ []} {start pos openAt closeAt : Nat}
    (h : candidate? opening closing text pos = some (some (openAt, closeAt)))
    (hword : slice? text (openAt + byteLength opening) closeAt = some word) :
    splitFrom? opening closing text hopening start pos =
      if isWord word then do
        let before ← between? text start openAt
        let parts ← splitFrom? opening closing text hopening (closeAt + byteLength closing)
          (closeAt + byteLength closing)
        some (before ++ .field (String.ofList word) :: parts)
      else splitFrom? opening closing text hopening start (openAt + retry opening) := by
  rw [splitFrom?]
  split
  · next hc => cases h.symm.trans hc
  · next hc => cases h.symm.trans hc
  · next hc =>
    cases h.symm.trans hc
    rw [hword]
    rfl

section Step

variable (htext : text = done ++ (pre ++ suf))
  (hpair : pair? opening closing suf = some (before, word, rest))

include htext hpair

theorem splitFrom?_pair {hopening : opening ≠ []} :
    splitFrom? opening closing text hopening (byteLength done) (byteLength (done ++ pre)) =
      if isWord word then do
        let parts ← between? text (byteLength done) (byteLength (done ++ pre ++ before))
        let later ← splitFrom? opening closing text hopening
          (byteLength (done ++ pre ++ before ++ opening ++ word ++ closing))
          (byteLength (done ++ pre ++ before ++ opening ++ word ++ closing))
        some (parts ++ .field (String.ofList word) :: later)
      else splitFrom? opening closing text hopening (byteLength done)
        (byteLength (done ++ pre ++ before) + retry opening) := by
  have hcandidate := candidate?_eq opening closing (htext.trans (List.append_assoc ..).symm)
  rw [hpair] at hcandidate
  have hinner : text = done ++ pre ++ before ++ opening ++ (word ++ (closing ++ rest)) := by
    rw [htext, text_of_pair? hpair]
    simp only [List.append_assoc]
  have hword := slice?_eq hinner
  rw [byteLength_append (done ++ pre ++ before)] at hword
  rw [splitFrom?_next hcandidate hword, byteLength_append _ closing]

theorem splitFrom?_field {hopening : opening ≠ []} (hpassed : Passed opening closing pre suf)
    (hword : isWord word = true)
    (hrest : splitFrom? opening closing text hopening
      (byteLength (done ++ pre ++ before ++ opening ++ word ++ closing))
      (byteLength (done ++ pre ++ before ++ opening ++ word ++ closing)) =
        some (scan opening closing rest)) :
    splitFrom? opening closing text hopening (byteLength done) (byteLength (done ++ pre)) =
      some (scan opening closing (pre ++ suf)) := by
  have hfront : text = done ++ (pre ++ before ++ (opening ++ (word ++ (closing ++ rest)))) := by
    rw [htext, text_of_pair? hpair]
    simp only [List.append_assoc]
  rw [splitFrom?_pair htext hpair, if_pos hword, hrest, List.append_assoc done,
    between?_eq hfront, scan_leftmost (hpassed.leftmost hpair hword)]
  rfl

end Step

theorem splitFrom?_eq (hopening : opening ≠ []) (htext : text = done ++ (pre ++ suf))
    (hpassed : Passed opening closing pre suf) :
    splitFrom? opening closing text hopening (byteLength done) (byteLength (done ++ pre)) =
      some (scan opening closing (pre ++ suf)) := by
  induction hn : suf.length using Nat.strongRecOn generalizing done pre suf with
  | ind n ih =>
    cases hpair : pair? opening closing suf with
    | none =>
      have hcandidate := candidate?_eq opening closing (htext.trans (List.append_assoc ..).symm)
      rw [hpair] at hcandidate
      have hlast : text = done ++ (pre ++ suf ++ []) := htext.trans (by rw [List.append_nil])
      rw [splitFrom?_last hcandidate, scan_eq_plain fun _ => hpassed.not_starts hpair,
        ← between?_eq hlast, htext]
    | some p =>
      obtain ⟨before, word, rest⟩ := p
      have hsuf := text_of_pair? hpair
      cases hword : isWord word with
      | true =>
        have hbehind : text = done ++ pre ++ before ++ opening ++ word ++ closing ++ ([] ++ rest) := by
          rw [htext, hsuf]
          simp only [List.append_assoc, List.nil_append]
        have hlt : rest.length < n := by
          have hlength := List.length_pos_of_ne_nil hopening
          rw [← hn, hsuf]
          simp only [List.length_append]
          omega
        have hrest := ih rest.length hlt hbehind (fun b _ => Nat.zero_le _) rfl
        rw [List.append_nil, List.nil_append] at hrest
        exact splitFrom?_field htext hpair hpassed hword hrest
      | false =>
        obtain ⟨c, cs, rfl⟩ := List.exists_cons_of_ne_nil hopening
        have hlt : (cs ++ (word ++ (closing ++ rest))).length < n := by
          rw [← hn, hsuf]
          simp only [List.length_append, List.length_cons]
          omega
        have hsame : pre ++ (before ++ [c]) ++ (cs ++ (word ++ (closing ++ rest))) = pre ++ suf := by
          rw [hsuf]
          simp
        have hrest := ih _ hlt (htext.trans (congrArg (done ++ ·) hsame.symm)) (hpassed.retry hpair hword) rfl
        have hpos : byteLength (done ++ pre ++ before) + retry (c :: cs) =
            byteLength (done ++ (pre ++ (before ++ [c]))) := by
          rw [← List.append_assoc, ← List.append_assoc, byteLength_append _ [c]]
          rfl
        rw [splitFrom?_pair htext hpair, hword, if_neg Bool.false_ne_true, hpos, hrest, hsame]

theorem splitBytes?_eq (opening closing text : String) :
    splitBytes? opening closing text = some (split opening closing text) := by
  rw [splitBytes?]
  split
  · next h => rw [split_eq_plain h]
  · next h =>
    rw [split_eq_scan (not_or.1 h).1 (not_or.1 h).2]
    have hall : text.toList = [] ++ ([] ++ text.toList) := rfl
    exact splitFrom?_eq _ hall fun _ _ => Nat.zero_le _

/-- Cutting at byte offsets never fails and gives the parts; each field is the leftmost placeholder from
the end of the field before it, and no placeholder is left behind the last. -/
theorem split_leftmost (opening closing text : String) :
    splitBytes? opening closing text = some (split opening closing text) ∧
      (opening ≠ "" → closing ≠ "" →
        Splits opening.toList closing.toList text.toList (split opening closing text)) ∧
      (opening = "" ∨ closing = "" →
        split opening closing text = if text = "" then [] else [.text text]) ∧
      ((Template.ofText? opening closing text).isSome = true ↔ opening ≠ "" ∧ closing ≠ "" ∧
        ∃ before, Starts opening.toList closing.toList text.toList before) := by
  refine ⟨splitBytes?_eq .., fun hopening hclosing => ?_, fun h => ?_, isSome_ofText?_iff⟩
  · rw [split_eq_scan hopening hclosing]
    exact (taken_scan ..).splits
  · rw [split_eq_plain h, plain]
    simp

theorem split_leftmost_brackets :
    "[[" ≠ "" ∧ "]]" ≠ "" ∧
      splitBytes? "[[" "]]" "[[[x]]], [[ü]]" = some [.text "[", .field "x", .text "], [[ü]]"] ∧
      Splits "[[".toList "]]".toList "[[[x]]], [[ü]]".toList
        [.text "[", .field "x", .text "], [[ü]]"] := by
  have hsplit : split "[[" "]]" "[[[x]]], [[ü]]" = [.text "[", .field "x", .text "], [[ü]]"] := by
    decide +kernel
  obtain ⟨hbytes, hsplits, -, -⟩ := split_leftmost "[[" "]]" "[[[x]]], [[ü]]"
  rw [hsplit] at hbytes hsplits
  exact ⟨by decide, by decide, hbytes, hsplits (by decide) (by decide)⟩

end TemplatePart

end LiveMarkup
