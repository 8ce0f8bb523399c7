import XamlDoc.Proofs.Render.Neighbours
import XamlDoc.Proofs.Render.Wording

/-!
# Hosts of spans

The spans of a paragraph wait as runs and comments, in document order, until the end of the paragraph, which writes
them at once: in one label if there is a run, else as the comments that they are.
-/

namespace XamlDoc

open Markup

/-! ### Spans that only wait -/

/-- The node shows text, the number of a footnote or a comment, and writes nothing itself. An expression does so if
there is nobody to evaluate it. -/
def Node.isFlowing (x : Extensions) : Node → Bool
  | .superscript _ | .subscript _ | .footnoteReference _ false | .inlineHtml _ => true
  | n => n.isWording x

theorem Node.isInline_of_isFlowing {x : Extensions} {n : Node} (h : ∀ m ∈ n.walk, m.isFlowing x = true) :
    n.isInline = true := by
  refine isInline_of_walk (fun n hn hc => ?_) h
  cases n with
  | superscript _ | subscript _ | footnoteReference _ _ | inlineHtml _ => rfl
  | _ => exact isInline_of_children (x := x) hn hc

def Node.inlineMarkup? : Node → Option String
  | .inlineHtml markup => some markup
  | _ => none

def RunItem.comment? : RunItem → Option String
  | .run _ => none
  | .comment t => some t

namespace Document

variable (d : Document)

/-- The key that a plain reference to a declared footnote refers to. -/
def footnoteKey? : Node → Option String
  | .footnoteReference key false => if (d.footnotes.get? key).isSome then some key else none
  | _ => none

def textItems (t : String) (st : Style) : List RunItem := if t = "" then [] else [.run (.ofStyle t st)]

def metaItems (key : String) (st : Style) : List RunItem :=
  match d.metadata.joined? key with
  | some value => textItems value st
  | none => []

def numberItems (n : Numbering) (key : String) (st : Style) : List RunItem :=
  match d.footnotes.get? key with
  | some _ => textItems (toString ((n.number? key).getD 0)) { st with superscript := true }
  | none => []

mutual

/-- What is to wait for a span in a style, when the footnotes have been numbered. -/
def spanItems (n : Numbering) (st : Style) : Node → List RunItem
  | .text t | .hashTag t => textItems t st
  | .lineBreak => textItems "\n" st
  | .emoji e => textItems e.unicode st
  | .htmlEntity name => textItems (Html.entityText name) st
  | .htmlEntityUnicode code =>
    match Html.charOfCode? code with
    | some c => textItems c.toString st
    | none => []
  | .inlineCode t | .inlineScript t _ => textItems t { st with code := true }
  | .autoLinkMail address => textItems address { st with hyperlink := some ("mailto:" ++ address) }
  | .autoLinkUrl url => textItems url { st with hyperlink := some url }
  | .metaReference key => d.metaItems key st
  | .footnoteReference key _ => d.numberItems n key st
  | .inlineHtml markup => [.comment markup]
  | .strong l => spanItemsAll n { st with bold := true } l
  | .emphasize l => spanItemsAll n { st with italic := true } l
  | .delete l => spanItemsAll n { st with strikeThrough := true } l
  | .insert l | .underline l => spanItemsAll n { st with underline := true } l
  | .superscript l => spanItemsAll n { st with superscript := true } l
  | .subscript l => spanItemsAll n { st with subscript := true } l
  | .link url l => spanItemsAll n { st with hyperlink := some url } l
  | .linkReference label l =>
    spanItemsAll n { st with hyperlink := ((d.references.get? label).map MediaItem.url).or st.hyperlink } l
  | .abbreviation _ l | .nestedBlock l => spanItemsAll n st l
  | .singleChild m => spanItems n st m
  | _ => []

def spanItemsAll (n : Numbering) (st : Style) : List Node → List RunItem
  | [] => []
  | m :: r => spanItems n st m ++ spanItemsAll n st r

end

/-! ### Comments -/

theorem comments_textItems (t : String) (st : Style) : (textItems t st).filterMap RunItem.comment? = [] := by
  rw [textItems]
  split <;> rfl

theorem comments_metaItems (key : String) (st : Style) : (d.metaItems key st).filterMap RunItem.comment? = [] := by
  rw [metaItems]
  split
  · exact comments_textItems _ st
  · rfl

theorem comments_numberItems (n : Numbering) (key : String) (st : Style) :
    (d.numberItems n key st).filterMap RunItem.comment? = [] := by
  rw [numberItems]
  split
  · exact comments_textItems _ _
  · rfl

theorem comments_all {n : Numbering} {st : Style} {l : List Node}
    (h : ∀ m ∈ l, (d.spanItems n st m).filterMap RunItem.comment? = m.walk.filterMap Node.inlineMarkup?) :
    (d.spanItemsAll n st l).filterMap RunItem.comment? = (Node.walkAll l).filterMap Node.inlineMarkup? := by
  induction l with
  | nil => rfl
  | cons m r ih =>
    rw [spanItemsAll, Node.walkAll, List.filterMap_append, List.filterMap_append, h m (List.mem_cons_self ..),
      ih fun q hq => h q (List.mem_cons_of_mem m hq)]

variable {d} in
theorem comments_spanItems {x : Extensions} {m : Node} (hm : ∀ q ∈ m.walk, q.isFlowing x = true) (n : Numbering)
    (st : Style) :
    (d.spanItems n st m).filterMap RunItem.comment? = m.walk.filterMap Node.inlineMarkup? := by
  induction m using Node.induction generalizing st with
  | step m ih =>
    have child (st : Style) (q : Node) (hq : q ∈ m.children) :=
      ih q hq (fun r hr => hm r (Node.mem_walk_of_child hq hr)) st
    have all (st : Style) {l : List Node} (hl : ∀ q ∈ l, q ∈ m.children) :=
      d.comments_all fun q hq => child st q (hl q hq)
    have hf : m.isFlowing x = true := hm m m.self_mem_walk
    cases m with
    | inlineHtml markup => rfl
    | metaReference key => exact d.comments_metaItems key st
    | footnoteReference key _ => exact d.comments_numberItems n key st
    | htmlEntityUnicode code =>
      simp only [spanItems]
      split
      · exact comments_textItems _ st
      · rfl
    | strong _ | emphasize _ | delete _ | insert _ | underline _ | superscript _ | subscript _ | link _ _
    | linkReference _ _ | abbreviation _ _ | nestedBlock _ => exact all _ fun _ hq => hq
    | singleChild q => exact child st q (List.mem_singleton_self q)
    | _ => first | exact comments_textItems _ _ | cases hf

variable {d} in
theorem comments_spanItemsAll {x : Extensions} {l : List Node} (hl : ∀ n ∈ Node.walkAll l, n.isFlowing x = true)
    (n : Numbering) (st : Style) :
    (d.spanItemsAll n st l).filterMap RunItem.comment? = (Node.walkAll l).filterMap Node.inlineMarkup? :=
  d.comments_all fun _ hm => comments_spanItems (fun q hq => hl q (Node.mem_walkAll_of_mem hm hq)) n st

end Document

/-! ### What waits -/

namespace RunBuffer

variable {a : Alignment} {b : RunBuffer} {k : List RunItem}

def add (a : Alignment) (b : RunBuffer) : RunItem → RunBuffer
  | .run r => b.append r a
  | .comment t => b.appendComment t

/-- The items, one after the other, wait behind those that wait already. -/
def collect (b : RunBuffer) (a : Alignment) (items : List RunItem) : RunBuffer := items.foldl (add a) b

theorem collect_append (k l : List RunItem) : b.collect a (k ++ l) = (b.collect a k).collect a l := List.foldl_append

theorem items_collect : (b.collect a k).items = b.items ++ k := by
  induction k generalizing b with
  | nil => exact (List.append_nil _).symm
  | cons i r ih =>
    have hi : (b.add a i).items = b.items ++ [i] := by cases i <;> exact List.reverse_cons
    rw [show b.collect a (i :: r) = (b.add a i).collect a r from rfl, ih, hi, List.append_assoc]
    rfl

theorem alignment?_collect :
    (b.collect a k).alignment? = b.alignment?.or (if k.any RunItem.isRun then some a else none) := by
  induction k generalizing b with
  | nil => exact (Option.or_none).symm
  | cons i r ih =>
    rw [show b.collect a (i :: r) = (b.add a i).collect a r from rfl, ih]
    cases i with
    | run _ => cases h : b.alignment? <;> simp [add, append, RunItem.isRun, h]
    | comment _ => rfl

/-- The items in one label if there is a run among them, else the bare comments. -/
def hosted (p : Profile) (a : Alignment) (items : List RunItem) : List Content :=
  let content := items.map (RunItem.content p)
  if items.any RunItem.isRun then
    [.element "Label" [("LineBreakMode", "WordWrap"), ("HorizontalTextAlignment", a.ofLabel)]
      [.element "Label.FormattedText" [] [.element "FormattedString" [] content]]]
  else content

theorem contents_collect (p : Profile) : ((∅ : RunBuffer).collect a k).contents p = hosted p a k := by
  have hi : ((∅ : RunBuffer).collect a k).items = k := items_collect
  have hn : ((∅ : RunBuffer).collect a k).hasNoRun = !k.any RunItem.isRun := by
    rw [hasNoRun, ← List.any_reverse]
    exact congrArg (fun l => !l.any RunItem.isRun) hi
  rw [contents, hosted, hi, hn, alignment?_collect]
  cases k.any RunItem.isRun <;> rfl

end RunBuffer

/-- From every state, the rendering makes items wait in the alignment and numbers the keys, or ends because the token
has fired. Which items these are is told by any numbering in which the footnotes have the numbers that they have now. -/
def Collects (a : Alignment) (keys : List String) (items : Numbering → List RunItem) (m : Rendering Unit) : Prop :=
  ∀ p : Progress, (m p = .done (.error .cancelled) ∧ ¬ p.traversal.Rests) ∨
    ∃ (t : Traversal) (k : List RunItem), m p = .done (.ok ((), ⟨t, p.runs.collect a k⟩)) ∧
      (p.traversal.Rests → t.Rests) ∧ t.numbering = p.traversal.numbering.addAll keys ∧
      ∀ n : Numbering, t.numbering.keys <+: n.keys → items n = k

namespace Collects

open Document (textItems)

variable {a : Alignment} {keys keys' : List String} {items items' : Numbering → List RunItem} {m m' : Rendering Unit}

theorem done (k : List RunItem) (hm : ∀ p, m p = .done (.ok ((), ⟨p.traversal, p.runs.collect a k⟩))) :
    Collects a [] (fun _ => k) m :=
  fun p => .inr ⟨p.traversal, k, hm p, id, rfl, fun _ _ => rfl⟩

theorem nothing : Collects a [] (fun _ => []) (pure ()) := done [] fun _ => rfl

theorem text_apply (t : String) (st : Style) (p : Progress) :
    Rendering.text t st p = .done (.ok ((), ⟨p.traversal, p.runs.collect st.alignment (textItems t st)⟩)) := by
  rw [Rendering.text, textItems]
  split <;> rfl

theorem text (t : String) (st : Style) : Collects st.alignment [] (fun _ => textItems t st) (Rendering.text t st) :=
  done _ (text_apply t st)

theorem comment (t : String) : Collects a [] (fun _ => [.comment t]) (Rendering.comment t) :=
  done [.comment t] fun _ => rfl

theorem visit (h : Collects a keys items m) : Collects a keys items (Rendering.visit m) := by
  intro p
  rw [Render.visit_apply]
  split
  · rename_i hs
    exact .inl ⟨rfl, Traversal.not_rests_of_stops hs⟩
  · have hticks (hp : p.traversal.Rests) : p.traversal.tick.Rests := hp.tick.symm ▸ hp
    rcases h ⟨p.traversal.tick, p.runs⟩ with ⟨he, hr⟩ | ⟨t, k, hm, hr, hn, hk⟩
    · exact .inl ⟨he, fun hp => hr (hticks hp)⟩
    · exact .inr ⟨t, k, hm, fun hp => hr (hticks hp), by rw [hn, Traversal.numbering_tick], hk⟩

theorem seq (h : Collects a keys items m) (h' : Collects a keys' items' m') :
    Collects a (keys ++ keys') (fun n => items n ++ items' n) (do m; m') := by
  intro p
  rw [Rendering.bind_apply]
  rcases h p with ⟨he, hp⟩ | ⟨t, k, hm, hr, hn, hk⟩
  · exact .inl ⟨by rw [he]; rfl, hp⟩
  rw [hm]
  rcases h' ⟨t, p.runs.collect a k⟩ with ⟨he, hp⟩ | ⟨t', k', hm', hr', hn', hk'⟩
  · exact .inl ⟨he, fun h => hp (hr h)⟩
  · refine .inr ⟨t', k ++ k', ?_, fun h => hr' (hr h), ?_, fun n hp => ?_⟩
    · rw [RunBuffer.collect_append]
      exact hm'
    · rw [hn', hn, Numbering.addAll_append]
    · -- what is numbered later leaves the numbers in the first items as they are
      have hkeys : t.numbering.keys <+: t'.numbering.keys := hn' ▸ Numbering.prefix_addAll
      show items n ++ items' n = k ++ k'
      rw [hk n (hkeys.trans hp), hk' n hp]

/-! ### Nodes -/

variable {s : Scope}

theorem metaText (s : Scope) (st : Style) (key : String) :
    Collects st.alignment [] (fun _ => s.document.metaItems key st) (Render.metaText s st key) := by
  rw [Render.metaText, Document.metaItems]
  cases s.document.metadata.joined? key with
  | none => exact nothing
  | some value => exact text value st

theorem charOfCode (code : UInt32) (st : Style) :
    Collects st.alignment [] (fun n => Document.spanItems s.document n st (.htmlEntityUnicode code))
      (match Html.charOfCode? code with
        | some c => Rendering.text c.toString st
        | none => pure ()) := by
  simp only [Document.spanItems]
  cases Html.charOfCode? code with
  | none => exact nothing
  | some c => exact text c.toString st

/-- A plain reference numbers its footnote and shows the number, which no later reference changes. -/
theorem reference (s : Scope) (st : Style) (key : String) :
    Collects st.alignment ([Node.footnoteReference key false].filterMap s.document.footnoteKey?)
      (fun n => s.document.numberItems n key st) (Render.footnoteReference s st key false) := by
  rw [Render.footnoteReference]
  simp only [Document.numberItems, Document.footnoteKey?, List.filterMap_cons, List.filterMap_nil]
  cases s.document.footnotes.get? key with
  | none => exact nothing
  | some f =>
    intro p
    let t : Traversal := (p.traversal.reference key).2
    obtain ⟨number, hn⟩ : ∃ number, t.numbering.number? key = some number :=
      Numbering.number?_of_mem (Numbering.mem_add.2 (.inr rfl))
    have hnumber : (p.traversal.reference key).1 = number := congrArg (fun n : Option Nat => n.getD _) hn
    refine .inr ⟨t, textItems (toString number) { st with superscript := true }, ?_, fun hr => ⟨hr.1, hr.2, hr.3⟩, rfl,
      fun n hp => ?_⟩
    · rw [← hnumber]
      exact text_apply _ { st with superscript := true } ⟨t, p.runs⟩
    · show textItems (toString ((n.number? key).getD 0)) _ = _
      rw [Numbering.number?_of_prefix hp hn]
      rfl

theorem nodes {st : Style} {l : List Node}
    (h : ∀ n ∈ l, Collects st.alignment (n.walk.filterMap s.document.footnoteKey?)
      (fun numbering => s.document.spanItems numbering st n) (Render.node s n st)) :
    Collects st.alignment ((Node.walkAll l).filterMap s.document.footnoteKey?)
      (fun numbering => s.document.spanItemsAll numbering st l) (Render.nodes s l st) := by
  induction l with
  | nil => exact nothing
  | cons n r ih =>
    rw [Node.walkAll, List.filterMap_append]
    exact (h n (List.mem_cons_self ..)).seq (ih fun m hm => h m (List.mem_cons_of_mem n hm))

theorem node {n : Node} (hn : ∀ m ∈ n.walk, m.isFlowing s.extensions = true) (st : Style) :
    Collects st.alignment (n.walk.filterMap s.document.footnoteKey?)
      (fun numbering => s.document.spanItems numbering st n) (Render.node s n st) := by
  induction n using Node.induction generalizing st with
  | step n ih =>
    have child (st : Style) (m : Node) (hm : m ∈ n.children) :=
      ih m hm (fun q hq => hn q (Node.mem_walk_of_child hm hq)) st
    -- marks change no alignment, so all spans wait with that of the paragraph
    have all (st : Style) {l : List Node} (hl : ∀ m ∈ l, m ∈ n.children) :=
      nodes fun m hm => child st m (hl m hm)
    have hi : n.isInline = true := Node.isInline_of_isFlowing hn
    have hf : n.isFlowing s.extensions = true := hn n n.self_mem_walk
    cases n with
    | text t | hashTag t => exact visit (text t st)
    | emoji e => exact visit (text e.unicode st)
    | htmlEntity name => exact visit (text _ st)
    | htmlEntityUnicode code => exact visit (charOfCode code st)
    | lineBreak => exact visit (text "\n" st)
    | inlineCode t => exact visit (text t { st with code := true })
    | autoLinkMail address => exact visit (text address { st with hyperlink := some ("mailto:" ++ address) })
    | autoLinkUrl url => exact visit (text url { st with hyperlink := some url })
    | inlineHtml markup => exact visit (comment markup)
    | metaReference key => exact visit (metaText s st key)
    | strong l => exact visit (all { st with bold := true } fun _ hm => hm)
    | emphasize l => exact visit (all { st with italic := true } fun _ hm => hm)
    | delete l => exact visit (all { st with strikeThrough := true } fun _ hm => hm)
    | insert l | underline l => exact visit (all { st with underline := true } fun _ hm => hm)
    | superscript l => exact visit (all { st with superscript := true } fun _ hm => hm)
    | subscript l => exact visit (all { st with subscript := true } fun _ hm => hm)
    | link url l => exact visit (all { st with hyperlink := some url } fun _ hm => hm)
    | linkReference label l =>
      rw [Render.node]
      simp only [Document.spanItems]
      refine visit ?_
      cases s.document.references.get? label with
      | none => exact all st fun _ hm => hm
      | some target => exact all { st with hyperlink := some target.url } fun _ hm => hm
    | abbreviation _ l => exact visit (all st fun _ hm => hm)
    | footnoteReference key autoExpand =>
      cases autoExpand with
      | true => cases hf
      | false => exact visit (reference s st key)
    | inlineScript expression alone =>
      have hx : s.extensions.evaluator? = none := Option.isNone_iff_eq_none.1 hf
      rw [Render.node, Render.script, hx]
      exact visit (text expression { st with code := true })
    | singleChild m =>
      have hi : m.isInline = true := hi
      rw [Render.node, Render.spanOrBlock, if_pos hi]
      exact visit (child st m (List.mem_singleton_self m))
    | nestedBlock l =>
      rw [Render.node, if_pos hi]
      exact visit (all st fun _ hm => hm)
    | _ => cases hf

theorem flushed (h : Collects a keys items m) (d : Dialect) (u : Traversal) : ∃ t : Traversal,
    Yields (Layout.flushed d m ⟨u, ∅⟩) ((), ⟨t, ∅⟩) (.error .cancelled) ∧ ¬ u.Rests ∨
      Yields (Layout.flushed d m ⟨u, ∅⟩) ((), ⟨t, ∅⟩) (.ok (RunBuffer.hosted d.profile a (items t.numbering))) ∧
        t.numbering = u.numbering.addAll keys := by
  rw [Layout.flushed, Rendering.bind_apply]
  rcases h ⟨u, ∅⟩ with ⟨he, hu⟩ | ⟨t, k, hm, -, hn, hk⟩
  · rw [he]
    exact ⟨u, .inl ⟨.error fun _ _ => rfl, hu⟩⟩
  · refine ⟨t, .inr ⟨?_, hn⟩⟩
    rw [hm, hk t.numbering List.prefix_rfl, ← RunBuffer.contents_collect]
    exact Yields.flush d.profile _

end Collects

/-! ### Paragraphs -/

namespace Render

variable {s : Scope}

theorem collects_nodes {l : List Node} (hl : ∀ n ∈ Node.walkAll l, n.isFlowing s.extensions = true) (st : Style) :
    Collects st.alignment ((Node.walkAll l).filterMap s.document.footnoteKey?)
      (fun numbering => s.document.spanItemsAll numbering st l) (nodes s l st) :=
  Collects.nodes fun _ hn => Collects.node (fun m hm => hl m (Node.mem_walkAll_of_mem hn hm)) st

def paragraphView (d : Dialect) (a : Alignment) (items : List RunItem) : Content :=
  .element "ContentView" (("Padding", d.spacing .block) :: Layout.alignmentOptions a)
    (RunBuffer.hosted d.profile a items)

theorem yields_paragraph {l : List Node} (hl : ∀ n ∈ Node.walkAll l, n.isFlowing s.extensions = true) (st : Style)
    (p : Progress) : ∃ t : Traversal,
    Yields (node s (.paragraph l) st p) ((), ⟨t, ∅⟩) (.error .cancelled) ∧ ¬ p.traversal.Rests ∨
      Yields (node s (.paragraph l) st p) ((), ⟨t, ∅⟩) (.ok (p.runs.contents s.profile ++
        [paragraphView s.dialect st.alignment (s.document.spanItemsAll t.numbering st l)])) ∧
      t.numbering = p.traversal.numbering.addAll ((Node.walkAll l).filterMap s.document.footnoteKey?) := by
  let content := Layout.flushed s.dialect (nodes s l st)
  have hn : node s (.paragraph l) st = Rendering.visit (Rendering.flush s.profile >>= fun _ =>
      Layout.padded s.dialect .block st.alignment content) := by
    rw [node]
    rfl
  rw [hn, visit_apply]
  split
  · rename_i hs
    exact ⟨p.traversal, .inl ⟨.error fun _ _ => rfl, Traversal.not_rests_of_stops hs⟩⟩
  · -- whatever the content comes to, the container is written behind the runs that waited before it
    have enclosed {t : Traversal} {x : Except RenderError (List Content)}
        (h : Yields (content ⟨p.traversal.tick, ∅⟩) ((), ⟨t, ∅⟩) x) :=
      Yields.bind (f := fun _ => Layout.padded s.dialect .block st.alignment content)
        (Yields.flush s.profile ⟨p.traversal.tick, p.runs⟩) (Yields.element (Layout.padded_distinct _ _) h)
    obtain ⟨t, ⟨h, hu⟩ | ⟨h, ht⟩⟩ := (collects_nodes hl st).flushed s.dialect p.traversal.tick
    · refine ⟨t, .inl ⟨enclosed h, fun hp => hu ?_⟩⟩
      rwa [hp.tick]
    · exact ⟨t, .inr ⟨enclosed h, by rw [ht, Traversal.numbering_tick]⟩⟩

/-- A paragraph of spans ends well unless the token fires. Then all that waited is written, and behind it one container,
aligned as the style says. In it is one label with a span for each text of the spans that is not empty and a comment for
each inline HTML, in document order; without such a text there are the comments alone. -/
theorem paragraph_host {l : List Node} (hl : ∀ n ∈ Node.walkAll l, n.isFlowing s.extensions = true) (st : Style)
    (p : Progress) (b : TreeBuilder) :
    let r := Writing.run (node s (.paragraph l) st p) b
    (p.traversal.Rests → ∃ q, r.1 = .ok ((), q)) ∧ (∀ e, r.1 = .error e → e = .cancelled) ∧
      ∀ q, r.1 = .ok ((), q) →
        let items := s.document.spanItemsAll q.traversal.numbering st l
        q.runs = ∅ ∧
          q.traversal.numbering = p.traversal.numbering.addAll ((Node.walkAll l).filterMap s.document.footnoteKey?) ∧
          r.2 = (p.runs.contents s.profile ++ [paragraphView s.dialect st.alignment items]).foldl TreeBuilder.push b ∧
          items.filterMap RunItem.comment? = (Node.walkAll l).filterMap Node.inlineMarkup? := by
  intro r
  obtain ⟨t, ⟨h, hp⟩ | ⟨h, ht⟩⟩ := yields_paragraph hl st p
  · cases h with
    | error h =>
      have hr : r.1 = .error .cancelled := h b trivial
      rw [hr]
      exact ⟨fun h => (hp h).elim, fun e he => (Except.error.inj he).symm, nofun⟩
  · cases h with
    | ok h =>
      obtain ⟨hr, hm⟩ := h.run (w := b) trivial
      rw [show r.1 = .ok ((), ⟨t, ∅⟩) from hr]
      refine ⟨fun _ => ⟨_, rfl⟩, nofun, fun q hq => ?_⟩
      obtain rfl : (⟨t, ∅⟩ : Progress) = q := congrArg Prod.snd (Except.ok.inj hq)
      refine ⟨rfl, ht, ?_, Document.comments_spanItemsAll hl _ st⟩
      rw [Writing.run_eq_after, hm, TreeBuilder.after_allCalls]

/-- Comments around a raised number, a link that is not resolved, metadata that is not there and an expression. -/
def mixedSpans : List Node :=
  [.inlineHtml "<i>", .emphasize [.footnoteReference "b" false, .text ""], .inlineHtml "</i>",
    .singleChild (.nestedBlock [.linkReference "nowhere" [.metaReference "none", .inlineScript "x" false]])]

theorem paragraph_host_mixed :
    let s := scopeWithin ⟨.ofKind .maui, .standard⟩ 1 entangled 0 []
    let st : Style := { Style.plain with alignment := .center }
    let r := Writing.run (node s (.paragraph mixedSpans) st ⟨numberedBefore, ∅⟩) TreeBuilder.empty
    ∃ q, r.1 = .ok ((), q) ∧ q.traversal.numbering.keys = ["c", "b"] ∧
      r.2 = TreeBuilder.empty.push (paragraphView s.dialect .center [.comment "<i>",
        .run (.ofStyle "2" { st with italic := true, superscript := true }), .comment "</i>",
        .run (.ofStyle "x" { st with code := true })]) := by
  intro s st r
  have hl : ∀ n ∈ Node.walkAll mixedSpans, n.isFlowing s.extensions = true := by decide +kernel
  obtain ⟨hends, -, hr⟩ := paragraph_host hl st ⟨numberedBefore, ∅⟩ TreeBuilder.empty
  obtain ⟨q, hq⟩ := hends ⟨rfl, rfl, rfl⟩
  obtain ⟨-, hn, hview, -⟩ := hr q hq
  have hk : q.traversal.numbering.keys = ["c", "b"] := by
    rw [hn]
    decide +kernel
  refine ⟨q, hq, hk, hview.trans (congrArg (fun items => TreeBuilder.empty.push (paragraphView _ _ items)) ?_)⟩
  rw [hn]
  decide +kernel

end Render

end XamlDoc
