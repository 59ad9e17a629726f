import LiveMarkup.Proofs.Expression.Flat
import LiveMarkup.Proofs.Expression.Lockstep
import LiveMarkup.Proofs.Expression.Tiling
import LiveMarkup.Proofs.Text.Cutting

/-!
Which fields an expression or a template reads, told before it runs. Nothing outside the told fields is
read, nothing else decides the result, and every one of them is written in the source.
-/

namespace LiveMarkup

open LiveMarkup.Text LiveMarkup.Expression

variable {σ τ α : Type}

/-- Noting the reads changes nothing else, and the notes to come are reads of fields in sight. -/
def Noted (field : String → Prop) (a : StateT (List Access) (StateM σ) α) (b : StateM σ α) : Prop :=
  ∀ log x, ∃ names : List String, (∀ name ∈ names, field name) ∧
    (a.run log).run x = (((b.run x).1, log ++ names.map Access.read), (b.run x).2)

def Alongside (alike : σ → τ → Prop) (a : StateM σ α) (b : StateM τ α) : Prop :=
  ∀ x y, alike x y → (a.run x).1 = (b.run y).1 ∧ alike (a.run x).2 (b.run y).2

structure ReadsOnly (field : String → Prop)
    (compute : ∀ {m : Type → Type} [Monad m], Scope m → m α) : Prop where
  noted : ∀ {σ : Type} (s : Scope (StateM σ)), Noted field (compute s.noting) (compute s)
  agree : ∀ {σ τ : Type} (alike : σ → τ → Prop) (s : Scope (StateM σ)) (t : Scope (StateM τ)),
    (∀ name, field name → Alongside alike (s.field name) (t.field name)) →
      Alongside alike (compute s) (compute t)

def notedLockstep (σ : Type) (field : String → Prop) :
    Lockstep (StateT (List Access) (StateM σ)) (StateM σ) where
  Rel := Noted field
  pure v log x := ⟨[], List.forall_mem_nil _, by rw [List.map_nil, List.append_nil]; rfl⟩
  bind {_ _ a b f g} hab hfg log x := by
    obtain ⟨names, hnames, ha⟩ := hab log x
    obtain ⟨more, hmore, hf⟩ := hfg (b.run x).1 (log ++ names.map Access.read) (b.run x).2
    refine ⟨names ++ more, List.forall_mem_append.2 ⟨hnames, hmore⟩, ?_⟩
    rw [List.map_append, ← List.append_assoc]
    refine Eq.trans ?_ hf
    rw [StateT.run_bind, StateT.run_bind, ha]
    rfl

def alongsideLockstep (alike : σ → τ → Prop) : Lockstep (StateM σ) (StateM τ) where
  Rel := Alongside alike
  pure _ _ _ h := ⟨rfl, h⟩
  bind {_ _ a b f g} hab hfg x y h := by
    obtain ⟨hresult, hstate⟩ := hab x y h
    change ((f (a.run x).1).run (a.run x).2).1 = ((g (b.run y).1).run (b.run y).2).1 ∧
      alike ((f (a.run x).1).run (a.run x).2).2 ((g (b.run y).1).run (b.run y).2).2
    rw [hresult]
    exact hfg _ _ _ hstate

theorem noted_field (s : Scope (StateM σ)) {field : String → Prop} {name : String}
    (h : field name) : Noted field (s.noting.field name) (s.field name) :=
  fun _ _ => ⟨[name], List.forall_mem_singleton.2 h, rfl⟩

variable {field : String → Prop}

theorem readsOnly_evaluate {ns : List Node} (h : ∀ n ∈ ns, n.Within (fun _ => False) field) :
    ReadsOnly field fun s => ((compile ns).evaluate s).run where
  noted s :=
    (notedLockstep _ field).evaluate (fun _ hname => noted_field s hname) (fun _ _ => False.elim) h
  agree alike _ _ hfield := (alongsideLockstep alike).evaluate hfield (fun _ _ => False.elim) h

theorem readsOnly_render {t : Template} (h : ∀ name, .field name ∈ t.parts → field name) :
    ReadsOnly field fun s => t.render s.field where
  noted s := (notedLockstep _ field).renderParts fun name hname => noted_field s (h name hname)
  agree alike _ _ hfield :=
    (alongsideLockstep alike).renderParts fun name hname => hfield name (h name hname)

def utf8 (name : String) : List UInt8 := name.toByteArray.data.toList

theorem utf8Encode_of_word {cs : List Char} (h : ∀ c ∈ cs, isWordChar c = true) :
    cs.utf8Encode.data.toList = cs.map fun c => c.val.toUInt8 := by
  induction cs with
  | nil => simp
  | cons c cs ih =>
    have hc := (toNat_of_isWordChar (h c (List.mem_cons_self ..))).2
    have hsize : c.utf8Size = 1 := Char.utf8Size_eq_one_iff.2 (Nat.le_of_lt_succ hc)
    rw [List.utf8Encode_cons, List.utf8Encode_singleton, String.utf8EncodeChar_eq_singleton hsize]
    simp [ih fun d hd => h d (List.mem_cons_of_mem _ hd)]

theorem map_lt_map {as bs : List Char} (ha : ∀ c ∈ as, isWordChar c = true)
    (hb : ∀ c ∈ bs, isWordChar c = true) (h : as < bs) :
    (as.map fun c => c.val.toUInt8) < bs.map fun c => c.val.toUInt8 := by
  induction h with
  | nil => exact .nil
  | cons h ih =>
    exact .cons (ih (fun c hc => ha c (List.mem_cons_of_mem _ hc))
      fun c hc => hb c (List.mem_cons_of_mem _ hc))
  | @rel a as b bs h =>
    have hlta := (toNat_of_isWordChar (ha a (List.mem_cons_self ..))).2
    have hltb := (toNat_of_isWordChar (hb b (List.mem_cons_self ..))).2
    have hab : a.toNat < b.toNat := h
    refine .rel (UInt8.lt_iff_toNat_lt.2 ?_)
    have hbyte {c : Char} (hc : c.toNat < 128) : c.val.toUInt8.toNat = c.toNat :=
      UInt32.toNat_toUInt8 c.val ▸ Nat.mod_eq_of_lt (Nat.lt_trans hc (by decide))
    rwa [hbyte hlta, hbyte hltb]

theorem utf8_lt {a b : String} (ha : isWord a.toList = true) (hb : isWord b.toList = true)
    (h : a < b) : utf8 a < utf8 b := by
  have ha := fun c => isWordChar_of_mem (c := c) ha
  have hb := fun c => isWordChar_of_mem (c := c) hb
  rw [utf8, utf8, ← String.utf8Encode_toList, ← String.utf8Encode_toList, utf8Encode_of_word ha,
    utf8Encode_of_word hb]
  exact map_lt_map ha hb h

namespace Expression.Reads

theorem pairwise_insertName (name : String) {names : List String} (h : names.Pairwise (· < ·)) :
    (insertName name names).Pairwise (· < ·) := by
  induction names with
  | nil => exact List.pairwise_singleton _ _
  | cons n names ih =>
    obtain ⟨hn, hnames⟩ := List.pairwise_cons.1 h
    rw [insertName]
    split
    · next hlt =>
      refine List.pairwise_cons.2 ⟨fun other hother => ?_, h⟩
      rcases List.mem_cons.1 hother with rfl | hother
      · exact hlt
      · exact String.lt_trans hlt (hn other hother)
    · split
      · exact h
      · next hle hne =>
        refine List.pairwise_cons.2 ⟨fun other hother => ?_, ih hnames⟩
        rcases mem_insertName.1 hother with rfl | hother
        · exact Std.lt_of_le_of_ne (Std.not_lt.1 hle) (Ne.symm hne)
        · exact hn other hother

def Ordered : Reads → Prop
  | .any => True
  | .only names => names.Pairwise (· < ·)

theorem Ordered.insert {r : Reads} (h : r.Ordered) (name : String) : (r.insert name).Ordered := by
  cases r with
  | any => trivial
  | only names => exact pairwise_insertName name h

theorem ordered_ofNodes (ns : List Node) : (ofNodes ns).Ordered := by
  refine List.foldlRecOn ns addNode List.Pairwise.nil fun r hr n _ => ?_
  cases n with
  | call name as negated => trivial
  | field name negated => exact hr.insert name
  | _ => exact hr

def Listed (r : Reads) : Prop :=
  ∃ names, r.names? = some names ∧ (∀ name, name ∈ names ↔ r.includes name = true) ∧
    names.Pairwise fun a b => utf8 a < utf8 b

theorem Ordered.listed {r : Reads} (h : r.Ordered) (hany : r ≠ .any)
    (hword : ∀ name, r.includes name = true → isWord name.toList = true) : r.Listed := by
  cases r with
  | any => exact absurd rfl hany
  | only names =>
    have hmem (name : String) : name ∈ names ↔ (Reads.only names).includes name = true := by
      rw [includes, List.contains_iff_mem]
    refine ⟨names, rfl, hmem, h.imp_of_mem fun {a b} ha hb hlt => ?_⟩
    exact utf8_lt (hword a ((hmem a).1 ha)) (hword b ((hmem b).1 hb)) hlt

end Expression.Reads

namespace Expression

def Node.mayRead (name : String) : Node → Bool
  | .call .. => true
  | .field other _ => name == other
  | _ => false

theorem foldl_addNode_eq_any {r : Reads} {ns : List Node} :
    ns.foldl Reads.addNode r = .any ↔ r = .any ∨ ns.any Node.isCall := by
  induction ns generalizing r with
  | nil => simp
  | cons n ns ih =>
    rw [List.foldl_cons, ih, List.any_cons, Bool.or_eq_true, ← or_assoc]
    refine or_congr_left ?_
    cases n <;> cases r <;> simp [Reads.addNode, Reads.insert, Node.isCall]

theorem ofNodes_eq_any {ns : List Node} : Reads.ofNodes ns = .any ↔ ns.any Node.isCall := by
  rw [Reads.ofNodes, foldl_addNode_eq_any, or_iff_right nofun]

theorem includes_foldl_addNode {r : Reads} {name : String} {ns : List Node} :
    (ns.foldl Reads.addNode r).includes name ↔ r.includes name ∨ ns.any (Node.mayRead name) := by
  induction ns generalizing r with
  | nil => simp
  | cons n ns ih =>
    rw [List.foldl_cons, ih, List.any_cons, Bool.or_eq_true, ← or_assoc]
    refine or_congr_left ?_
    cases n with
    | call other as negated => simp [Reads.addNode, Reads.includes, Node.mayRead]
    | field other negated => simp [Reads.addNode, Reads.includes_insert, Node.mayRead, or_comm]
    | _ => simp [Reads.addNode, Node.mayRead]

theorem includes_ofNodes {ns : List Node} {name : String} :
    (Reads.ofNodes ns).includes name ↔ ns.any (Node.mayRead name) := by
  rw [Reads.ofNodes, includes_foldl_addNode, or_iff_right nofun]

variable {ns : List Node} (hany : Reads.ofNodes ns ≠ .any)

include hany

theorem includes_iff_field {name : String} :
    (Reads.ofNodes ns).includes name ↔ ∃ negated, .field name negated ∈ ns := by
  rw [Ne, ofNodes_eq_any, List.any_eq_true, not_exists] at hany
  rw [includes_ofNodes, List.any_eq_true]
  constructor
  · rintro ⟨n, hn, hreads⟩
    cases n with
    | call other as negated => exact absurd ⟨hn, rfl⟩ (hany _)
    | field other negated =>
      cases beq_iff_eq.1 hreads
      exact ⟨negated, hn⟩
    | _ => cases hreads
  · rintro ⟨negated, hn⟩
    exact ⟨_, hn, beq_self_eq_true name⟩

theorem within_includes :
    ∀ n ∈ ns, n.Within (fun _ => False) fun name => (Reads.ofNodes ns).includes name := by
  intro n hn
  cases n with
  | call name as negated => exact absurd (ofNodes_eq_any.2 (List.any_eq_true.2 ⟨_, hn, rfl⟩)) hany
  | field name negated => exact (includes_iff_field hany).2 ⟨negated, hn⟩
  | _ => trivial

omit hany

theorem slice_of_mem_tokenize {source : String} {t : Located Token} (h : t ∈ tokenize source) :
    ∃ before after, source.toList = before ++ t.item.text ++ after ∧ t.item.Stands after ∧
      t.span = ⟨byteLength before, byteLength (before ++ t.item.text)⟩ := by
  have htiling := tiling_pieces source.toList
  rw [tokenize, located, tokensOf_locate] at h
  obtain ⟨p, hp, ht⟩ := List.mem_filterMap.1 h
  obtain ⟨before, after, hsplit, hstart, hstop⟩ := slice_of_placed hp
  obtain ⟨⟨start, stop⟩, item⟩ := p
  cases item with
  | token item =>
    cases ht
    refine ⟨before.flatMap Tile.text, after.flatMap Tile.text, ?_, htiling.stands _ _ _ hsplit, ?_⟩
    · rw [← htiling.text, hsplit, List.flatMap_append, List.flatMap_cons, List.append_assoc]
      rfl
    · rw [byteLength_append, ← Nat.zero_add (byteLength (before.flatMap _)), ← hstart]
      exact congrArg _ hstop
  | _ => cases ht

theorem field_mem_nodesOf {t : Token} {name : String} {negated : Bool} :
    .field name negated ∈ nodesOf t ↔ t = ⟨.word name, negated⟩ := by
  obtain ⟨l, negation⟩ := t
  cases l with
  | number digits => cases negation <;> simp [nodesOf, classify]
  | _ => simp [nodesOf, classify, eq_comm]

theorem field_mem_parse {source name : String} {negated : Bool} :
    .field name negated ∈ parse source ↔
      ∃ span, ⟨span, ⟨.word name, negated⟩⟩ ∈ tokenize source := by
  rw [parse, build, List.mem_flatMap]
  simp only [field_mem_nodesOf, exists_eq_right, List.mem_map]
  refine ⟨?_, fun ⟨span, h⟩ => ⟨_, h, rfl⟩⟩
  rintro ⟨t, ht, hitem⟩
  exact ⟨t.span, hitem ▸ ht⟩

def Mentions (source name : String) : Prop :=
  ∃ (before after : List Char) (negated : Bool),
    source.toList = before ++ Token.text ⟨.word name, negated⟩ ++ after ∧
      ⟨⟨byteLength before, byteLength (before ++ Token.text ⟨.word name, negated⟩)⟩,
        ⟨.word name, negated⟩⟩ ∈ tokenize source

theorem mentions_iff {source name : String} :
    Mentions source name ↔ ∃ negated, .field name negated ∈ parse source := by
  constructor
  · rintro ⟨before, after, negated, _, h⟩
    exact ⟨negated, field_mem_parse.2 ⟨_, h⟩⟩
  · rintro ⟨negated, h⟩
    obtain ⟨span, h⟩ := field_mem_parse.1 h
    obtain ⟨before, after, hsource, _, hspan⟩ := slice_of_mem_tokenize h
    exact ⟨before, after, negated, hsource, hspan ▸ h⟩

theorem isWord_of_field_mem {source name : String} {negated : Bool}
    (h : .field name negated ∈ parse source) : isWord name.toList := by
  obtain ⟨span, h⟩ := field_mem_parse.1 h
  obtain ⟨before, after, _, hstands, _⟩ := slice_of_mem_tokenize h
  cases negated with
  | false => exact (show Lexeme.Stands after (.word name) from hstands).1
  | true => exact (show Lexeme.StandsAsWord after (.word name) from hstands).1

end Expression

namespace TemplatePart

def written (opening closing : List Char) : TemplatePart → List Char
  | .text s => s.toList
  | .field name => opening ++ name.toList ++ closing

variable {opening closing : List Char}

theorem written_addChar (c : Char) (parts : List TemplatePart) :
    (addChar c parts).flatMap (written opening closing) =
      c :: parts.flatMap (written opening closing) := by
  cases parts with
  | nil => simp [addChar, written]
  | cons p parts => cases p <;> simp [addChar, written]

theorem field_mem_addChar {c : Char} {parts : List TemplatePart} {name : String} :
    .field name ∈ addChar c parts ↔ .field name ∈ parts := by
  cases parts with
  | nil => simp [addChar]
  | cons p parts => cases p <;> simp [addChar]

variable (opening closing) in
theorem written_scan (cs : List Char) :
    (scan opening closing cs).flatMap (written opening closing) = cs := by
  fun_induction scan opening closing cs with
  | case1 => rfl
  | case2 c cs word rest h ih =>
    rw [List.flatMap_cons, ih, written, String.toList_ofList, (placeholder?_eq_some h).1]
  | case3 c cs h ih => rw [written_addChar, ih]

theorem isWord_of_field_mem_scan {cs : List Char} {name : String}
    (h : .field name ∈ scan opening closing cs) : isWord name.toList := by
  fun_induction scan opening closing cs with
  | case1 => cases h
  | case2 c cs word rest hplace ih =>
    rcases List.mem_cons.1 h with h | h
    · cases h
      rw [String.toList_ofList]
      exact (placeholder?_eq_some hplace).2
    · exact ih h
  | case3 c cs hplace ih => exact ih (field_mem_addChar.1 h)

end TemplatePart

namespace Template

variable {opening closing text name : String} {t : Template}

theorem parts_of_ofText? (h : ofText? opening closing text = some t) :
    t.parts = TemplatePart.scan opening.toList closing.toList text.toList := by
  rw [ofText?, TemplatePart.hasPlaceholder] at h
  split at h
  · next hfield =>
    cases h
    rw [TemplatePart.split] at hfield ⊢
    split at hfield
    · split at hfield <;> cases hfield
    · next hdelimiters => exact if_neg hdelimiters
  · cases h

theorem foldl_addReads_ne_any {r : Reads} (hr : r ≠ .any) (parts : List TemplatePart) :
    parts.foldl addReads r ≠ .any := by
  induction parts generalizing r with
  | nil => exact hr
  | cons p parts ih =>
    refine ih ?_
    cases r with
    | any => exact absurd rfl hr
    | only names => cases p <;> nofun

theorem reads_ne_any (t : Template) : t.reads ≠ .any :=
  foldl_addReads_ne_any (r := Reads.none) nofun t.parts

theorem ordered_reads (t : Template) : t.reads.Ordered := by
  refine List.foldlRecOn t.parts addReads List.Pairwise.nil fun r hr p _ => ?_
  cases p with
  | text s => exact hr
  | field name => exact hr.insert name

theorem includes_foldl_addReads {r : Reads} {parts : List TemplatePart} :
    (parts.foldl addReads r).includes name ↔ r.includes name ∨ .field name ∈ parts := by
  induction parts generalizing r with
  | nil => simp
  | cons p parts ih =>
    rw [List.foldl_cons, ih, List.mem_cons, ← or_assoc]
    refine or_congr_left ?_
    cases p with
    | text s => simp [addReads]
    | field other => simp [addReads, Reads.includes_insert, or_comm]

theorem includes_reads : t.reads.includes name ↔ .field name ∈ t.parts := by
  rw [reads, includes_foldl_addReads, or_iff_right fun h => by cases h]

def Mentions (opening closing text : String) (t : Template) (name : String) : Prop :=
  ∃ before after, t.parts = before ++ .field name :: after ∧
    text.toList = before.flatMap (TemplatePart.written opening.toList closing.toList) ++
      (opening.toList ++ name.toList ++ closing.toList) ++
      after.flatMap (TemplatePart.written opening.toList closing.toList)

theorem mentions_iff (h : ofText? opening closing text = some t) :
    t.Mentions opening closing text name ↔ .field name ∈ t.parts := by
  constructor
  · rintro ⟨before, after, hparts, _⟩
    exact hparts ▸ List.mem_append_right _ (List.mem_cons_self ..)
  · intro hname
    obtain ⟨before, after, hparts⟩ := List.append_of_mem hname
    refine ⟨before, after, hparts, ?_⟩
    have htext := TemplatePart.written_scan opening.toList closing.toList text.toList
    rw [← parts_of_ofText? h, hparts, List.flatMap_append, List.flatMap_cons] at htext
    rw [← htext, List.append_assoc]
    rfl

end Template

/-- A computation gets by with the fields that its reads hold, and the reads hold nothing that the
source does not mention. -/
structure Expression.Reads.Exact (r : Reads)
    (compute : ∀ {m : Type → Type} [Monad m], Scope m → m α) (mentions : String → Prop) : Prop where
  readsOnly : ReadsOnly (fun name => r.includes name) compute
  listed : r.Listed
  mentioned : ∀ name, r.includes name ↔ mentions name

theorem reads_exact :
    (∀ source, (compileSource source).reads ≠ .any →
      (compileSource source).reads.Exact (fun s => ((compileSource source).evaluate s).run)
        (Mentions source)) ∧
    ∀ opening closing text t, Template.ofText? opening closing text = some t →
      t.reads.Exact (fun s => t.render s.field) (t.Mentions opening closing text) := by
  refine ⟨fun source hany => ⟨readsOnly_evaluate (within_includes hany), ?_, fun name => ?_⟩,
    fun opening closing text t h =>
      ⟨readsOnly_render fun name => Template.includes_reads.2, ?_, fun name => ?_⟩⟩
  · refine (Reads.ordered_ofNodes _).listed hany fun name hname => ?_
    obtain ⟨negated, hfield⟩ := (includes_iff_field hany).1 hname
    exact isWord_of_field_mem hfield
  · rw [mentions_iff]
    exact includes_iff_field hany
  · refine t.ordered_reads.listed t.reads_ne_any fun name hname => ?_
    have hfield := Template.includes_reads.1 hname
    rw [Template.parts_of_ofText? h] at hfield
    exact TemplatePart.isWord_of_field_mem_scan hfield
  · rw [Template.mentions_iff h]
    exact Template.includes_reads

theorem reads_exact_of_guard_and_greeting :
    ((compileSource "!ready && count > limit").reads = .only ["count", "limit", "ready"] ∧
      (compileSource "!ready && count > limit").reads.Exact
        (fun s => ((compileSource "!ready && count > limit").evaluate s).run)
        (Mentions "!ready && count > limit")) ∧
    ∃ t, Template.ofText? "[[" "]]" "[[greeting]], [[name]]" = some t ∧
      t.reads = .only ["greeting", "name"] ∧
      t.reads.Exact (fun s => t.render s.field)
        (t.Mentions "[[" "]]" "[[greeting]], [[name]]") := by
  have hreads : (compileSource "!ready && count > limit").reads =
      .only ["count", "limit", "ready"] := by decide +kernel
  have htext : Template.ofText? "[[" "]]" "[[greeting]], [[name]]" =
      some ⟨[.field "greeting", .text ", ", .field "name"]⟩ := by decide +kernel
  refine ⟨⟨hreads, reads_exact.1 _ ?_⟩, _, htext, by decide, reads_exact.2 _ _ _ _ htext⟩
  rw [hreads]
  nofun

end LiveMarkup
