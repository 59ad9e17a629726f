import LiveMarkup.Proofs.Component.Confined
import LiveMarkup.Proofs.Render.Scratch

/-!
Rendered markup does not depend on what the fields hold. Fields that decide the conditions alike give
texts that may differ, and the same elements and comments around them, also when the markup is read
again.
-/

namespace LiveMarkup

open LiveMarkup.Markup LiveMarkup.Expression

variable {σ : Type}

namespace Render

theorem ends_render_nil_ok {emit : Emit σ} {o : MountOptions σ} {w w' : World σ} {html : String}
    (h : Run.Ends (render emit o []) w (.ok html) w') :
    ∃ c w₁, Act.Ends (Component.mount emit o) w (.ok (some c)) w₁ ∧ html = w₁.document.toHtml := by
  obtain ⟨c, w₁, calls, rs, w₂, hmount, -, -, -⟩ := ends_render_ok h
  obtain ⟨w₃, hnil⟩ := ends_render_nil hmount
  obtain ⟨hhtml, -⟩ := Run.ends_det h hnil
  exact ⟨c, w₁, hmount, Except.ok.inj hhtml⟩

/-- Where no attribute name holds an equals sign and both stores decide the conditions alike, the two
results are read back as the same elements and comments: what else the fields hold is text. -/
theorem render_skeleton {source : String} {o : MountOptions σ} {store store' : Store σ}
    {memory memory' : σ} {html html' : String} {w w' : World σ}
    (hnames : Forest.Every Branch.EqualsFree (Forest.parse source))
    (hagree : ∀ element, (Document.parse source).query o.selector = some element →
      (Document.parse source).Agrees o.directives store.fields store'.fields element)
    (h : Run.Ends (render Run.emit o []) ⟨store, Document.parse source, #[], memory⟩ (.ok html) w)
    (h' : Run.Ends (render Run.emit o []) ⟨store', Document.parse source, #[], memory'⟩ (.ok html')
      w') :
    (Document.parse html').skeleton = (Document.parse html).skeleton := by
  obtain ⟨c, w₁, hmount, rfl⟩ := ends_render_nil_ok h
  obtain ⟨c', u₁, hmount', rfl⟩ := ends_render_nil_ok h'
  have hconfined := Component.mount_confined hmount hmount' (Document.linked_parse source)
    (Document.tidy_parse hnames) rfl rfl hagree
  rw [hconfined.right.tidy.skeleton_parse, hconfined.left.tidy.skeleton_parse]
  exact hconfined.document.skeleton_eq

def card : String :=
  "<div id=\"app\"><p title=\"a > b\">\x7b\x7bname\x7d\x7d</p><!-- end -->" ++
    "<em show-if=\"open\">!</em></div>"

theorem ends_of_toOption {source : String} {fields : Table Value} {o : DirectiveOptions}
    {html : String}
    (h : (template source fields "#app" o true []).bind (fun r => r.1.toOption) = some html) :
    ∃ w, Run.Ends (render Run.emit ⟨"#app", Builtin.methods, o, true⟩ []) (page source fields)
      (.ok html) w := by
  obtain ⟨⟨r, w⟩, hr, hhtml⟩ := Option.bind_eq_some_iff.1 h
  cases r with
  | error e => cases hhtml
  | ok text =>
    cases hhtml
    exact ⟨w, hr⟩

/-- A field that closes tags, opens a comment and spells a reference is text where it is shown. -/
theorem render_skeleton_card :
    let marked : Table Value := [("name", .string "</p><!-- &lt;"), ("open", .bool true)]
    let plain : Table Value := [("name", .string "Ann"), ("open", .string "yes")]
    let html := "<div id=\"app\"><p title=\"a &gt; b\">&lt;/p&gt;&lt;!-- &amp;lt;</p><!-- end -->" ++
      "<em show-if=\"open\">!</em></div>"
    let html' := "<div id=\"app\"><p title=\"a &gt; b\">Ann</p><!-- end -->" ++
      "<em show-if=\"open\">!</em></div>"
    ∃ w w', template card marked "#app" .default true [] = some (.ok html, w) ∧
      template card plain "#app" .default true [] = some (.ok html', w') ∧
      (Document.parse html').skeleton = (Document.parse html).skeleton := by
  intro marked plain html html'
  have hnames : Forest.Every Branch.EqualsFree (Forest.parse card) := by decide +kernel
  have hagree : ∀ n < (Document.parse card).nodes.size,
      (Document.parse card).AgreesAt .default marked plain n := by decide +kernel
  have hmarked : (template card marked "#app" .default true []).bind (fun r => r.1.toOption) =
      some html := by decide +kernel
  have hplain : (template card plain "#app" .default true []).bind (fun r => r.1.toOption) =
      some html' := by decide +kernel
  obtain ⟨w, h⟩ := ends_of_toOption hmarked
  obtain ⟨w', h'⟩ := ends_of_toOption hplain
  exact ⟨w, w', h, h', render_skeleton hnames
    (fun element _ => Document.agrees_of_nodes hagree element) h h'⟩

end Render

end LiveMarkup
