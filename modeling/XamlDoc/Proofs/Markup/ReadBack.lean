import XamlDoc.Proofs.Markup.Reader
import XamlDoc.Proofs.Markup.Serialization

/-!
# Reading back what was written

The text of a tree, read again, gives the tree itself, as far as a reader can see it: adjacent texts are one
text, empty ones are not there, and a comment has the text it was written with. No text, verbatim content, value
or comment is ever taken for markup.
-/

namespace XamlDoc.Markup

/-! ### Trees as they are read -/

namespace Content

/-- Character data or verbatim content that leaves no trace. -/
def isBlank : Content → Bool
  | .text t | .raw t => t = ""
  | .element _ _ _ | .comment _ => false

/-- Two adjacent contents that are read as one. -/
def plus? : Content → Content → Option Content
  | .text s, .text t => some (.text (s ++ t))
  | .raw s, .raw t => some (.raw (s ++ t))
  | _, _ => none

def stick (c : Content) : List Content → List Content
  | [] => [c]
  | d :: r =>
    match c.plus? d with
    | some e => e :: r
    | none => c :: d :: r

/-- A content in front of others. -/
def glue (c : Content) (k : List Content) : List Content := if c.isBlank then k else stick c k

def stickAfter (c : Content) : List Content → List Content
  | [] => [c]
  | d :: r =>
    match d.plus? c with
    | some e => e :: r
    | none => c :: d :: r

/-- A content behind others, which are given newest first. -/
def glueAfter (c : Content) (k : List Content) : List Content := if c.isBlank then k else stickAfter c k

mutual

/-- A content as a reader sees it. -/
def merged : Content → Content
  | .element name attributes children => .element name attributes (allMerged children)
  | .text t => .text t
  | .raw t => .raw t
  | .comment t => .comment (Xml.commentText t)

def allMerged : List Content → List Content
  | [] => []
  | c :: r => glue (merged c) (allMerged r)

end

mutual

/-- Every element and attribute at or below a content has the name of one in XML. -/
def WellNamed : Content → Prop
  | .element name attributes children =>
    (Xml.IsName name ∧ ∀ a ∈ attributes, Xml.IsName a.1) ∧ AllWellNamed children
  | .text _ | .raw _ | .comment _ => True

def AllWellNamed : List Content → Prop
  | [] => True
  | c :: r => WellNamed c ∧ AllWellNamed r

end

theorem stick_of_plus {c d e : Content} (h : c.plus? d = some e) (k : List Content) :
    stick e k = stick c (stick d k) := by
  cases c <;> cases d <;> cases h <;> rcases k with _ | ⟨_ | _ | _ | _, r⟩ <;>
    simp [stick, plus?, String.append_assoc]

theorem stick_of_not_plus {c d : Content} (h : c.plus? d = none) (k : List Content) :
    stick c (stick d k) = c :: stick d k := by
  cases c <;> cases d <;> cases h <;> rcases k with _ | ⟨_ | _ | _ | _, r⟩ <;> rfl

/-- Contents newest first, with others behind them. -/
def tack : List Content → List Content → List Content
  | [], k => k
  | c :: r, k => r.reverse ++ stick c k

theorem tack_glueAfter (c : Content) (a k : List Content) :
    tack (glueAfter c a) k = tack a (glue c k) := by
  rw [glueAfter, glue]
  split
  · rfl
  · cases a with
    | nil => rfl
    | cons d r =>
      cases h : d.plus? c with
      | some e => simp only [stickAfter, h, tack, stick_of_plus h]
      | none =>
        simp only [stickAfter, h, tack, stick_of_not_plus h, List.reverse_cons, List.append_assoc,
          List.singleton_append]

theorem tack_nil (a : List Content) : tack a [] = a.reverse := by
  cases a with
  | nil => rfl
  | cons c r => exact (List.reverse_cons ..).symm

/-- To add contents one by one behind others merges them like adding them in front, from the last one on. -/
theorem tack_foldl_glueAfter (k a : List Content) :
    tack (k.foldl (fun a c => glueAfter c.merged a) a) [] = tack a (allMerged k) := by
  induction k generalizing a with
  | nil => rfl
  | cons c r ih => rw [List.foldl_cons, ih, tack_glueAfter, allMerged]

theorem reverse_foldl_glueAfter (k : List Content) :
    (k.foldl (fun a c => glueAfter c.merged a) []).reverse = allMerged k := by
  rw [← tack_nil, tack_foldl_glueAfter]
  rfl

theorem glueAfter_glueAfter {c d e : Content} (h : c.plus? d = some e) (k : List Content) :
    glueAfter d (glueAfter c k) = glueAfter e k := by
  cases c <;> cases d <;> cases h
  all_goals
    rename_i s t
    by_cases hs : s = "" <;> by_cases ht : t = "" <;> rcases k with _ | ⟨_ | _ | _ | _, r⟩ <;>
      simp [glueAfter, stickAfter, isBlank, plus?, hs, ht, String.append_assoc]

end Content

/-! ### Reading -/

namespace TreeBuilder

/-- Add a content to the innermost open element, as part of the last one there if it continues it. -/
def add (b : TreeBuilder) (c : Content) : TreeBuilder :=
  match b.frames with
  | [] => { b with done := c.glueAfter b.done }
  | f :: r => { b with frames := { f with content := c.glueAfter f.content } :: r }

/-- What an event adds to the tree; an end tag must fit the element that it ends. -/
def take? (b : TreeBuilder) : Xml.Event → Option TreeBuilder
  | .start tag => some { b with frames := ⟨tag.name, tag.attributes, []⟩ :: b.frames }
  | .empty tag => some (b.add (.element tag.name tag.attributes []))
  | .close name =>
    match b.frames with
    | [] => none
    | f :: r => if f.name = name then some (add ⟨r, b.done⟩ f.close) else none
  | .text t => some (b.add (.text t))
  | .cdata t => some (b.add (.raw t))
  | .comment t => some (b.add (.comment t))

end TreeBuilder

namespace Xml

/-- Read a text to its end, with the tree so far. -/
def readFrom (b : TreeBuilder) (s : List Char) : Option TreeBuilder :=
  match s with
  | [] => some b
  | c :: r =>
    if c = '<' then
      match _h : readMarkup? r with
      | none => none
      | some (e, rest) => (b.take? e).bind fun b => readFrom b rest
    else
      match _h : readChar? (c :: r) with
      | none => none
      | some (d, rest) => readFrom (b.add (.text (String.ofList [d]))) rest
termination_by s.length
decreasing_by
  · exact Nat.lt_succ_of_le (readMarkup?_length _h)
  · exact readChar?_length _h

/-- The contents of a text; `none` unless all its elements end. -/
def read? (s : String) : Option (List Content) :=
  match readFrom TreeBuilder.empty s.toList with
  | some ⟨[], done⟩ => some done.reverse
  | _ => none

theorem readFrom_nil (b : TreeBuilder) : readFrom b [] = some b := by
  rw [readFrom]

theorem readFrom_markup {s rest : List Char} {e : Event} (h : readMarkup? s = some (e, rest))
    (b : TreeBuilder) : readFrom b ('<' :: s) = (b.take? e).bind fun b => readFrom b rest := by
  rw [readFrom, if_pos rfl]
  split
  · rename_i hn
    rw [h] at hn
    cases hn
  · rename_i hn
    rw [h] at hn
    cases hn
    rfl

theorem readFrom_char {s rest : List Char} {c : Char} (h : readChar? s = some (c, rest))
    (b : TreeBuilder) : readFrom b s = readFrom (b.add (.text (String.ofList [c]))) rest := by
  cases s with
  | nil => cases h
  | cons d r =>
    have hd : d ≠ '<' := by
      rintro rfl
      cases h
    rw [readFrom, if_neg hd]
    split
    · rename_i hn
      rw [h] at hn
      cases hn
    · rename_i hn
      rw [h] at hn
      cases hn
      rfl

theorem add_add {c d e : Content} (h : c.plus? d = some e) (b : TreeBuilder) :
    (b.add c).add d = b.add e := by
  rcases b with ⟨_ | ⟨f, r⟩, done⟩ <;> simp only [TreeBuilder.add, Content.glueAfter_glueAfter h]

theorem add_of_blank {c : Content} (h : c.isBlank) (b : TreeBuilder) : b.add c = b := by
  rcases b with ⟨_ | ⟨f, r⟩, done⟩ <;> simp only [TreeBuilder.add, Content.glueAfter, h, if_true]

theorem readFrom_escapeChars (t rest : List Char) (b : TreeBuilder) :
    readFrom b (escapeChars t ++ rest) = readFrom (b.add (.text (String.ofList t))) rest := by
  induction t generalizing b with
  | nil => rw [add_of_blank (by rfl)]; rfl
  | cons c r ih =>
    have hc : readChar? (escapeChars (c :: r) ++ rest) = some (c, escapeChars r ++ rest) := by
      rw [escapeChars, List.flatMap_cons, List.append_assoc]
      exact readChar?_escapeChar c _
    rw [readFrom_char hc, ih, add_add rfl, ← String.ofList_append, List.singleton_append]

theorem readFrom_event {e : Event} (h : e.Legible) (b : TreeBuilder) (rest : List Char) :
    readFrom b (e.markup.toList ++ rest) = (b.take? e).bind fun b => readFrom b rest := by
  by_cases ht : ∃ t, e = .text t
  · obtain ⟨t, rfl⟩ := ht
    simp only [Event.markup, escape, String.toList_ofList, readFrom_escapeChars, String.ofList_toList]
    rfl
  · obtain ⟨r, hr, hm⟩ := readMarkup?_markup h (fun t he => ht ⟨t, he⟩) rest
    rw [hr, readFrom_markup hm]

theorem readFrom_sections {sections : List (List Char)} (h : ∀ t ∈ sections, Free terminator t)
    (b : TreeBuilder) (rest : List Char) :
    readFrom b ((String.join (sections.map fun t => (Event.cdata (String.ofList t)).markup)).toList ++ rest) =
      readFrom (b.add (.raw (String.ofList sections.flatten))) rest := by
  induction sections generalizing b with
  | nil =>
    rw [add_of_blank (by rfl)]
    rfl
  | cons t r ih =>
    have ht : (Event.cdata (String.ofList t)).Legible := by
      rw [Event.Legible, String.toList_ofList]
      exact h t (List.mem_cons_self ..)
    rw [List.map_cons, String.join_cons, String.toList_append, List.append_assoc, readFrom_event ht]
    show readFrom (b.add (.raw (String.ofList t))) _ = _
    rw [ih fun u hu => h u (List.mem_cons_of_mem t hu), add_add rfl, ← String.ofList_append, List.flatten_cons]

/-! ### Reading trees -/

open TreeBuilder (add)

theorem foldl_add (k : List Content) (f : Frame) (r : List Frame) (done : List Content) :
    k.foldl (fun b c => add b c.merged) ⟨f :: r, done⟩ =
      ⟨{ f with content := k.foldl (fun a c => c.merged.glueAfter a) f.content } :: r, done⟩ := by
  induction k generalizing f with
  | nil => rfl
  | cons c t ih => exact ih _

mutual

theorem readFrom_content (c : Content) (h : c.WellNamed) (b : TreeBuilder) (rest : List Char) :
    readFrom b ((contentMarkup c).toList ++ rest) = readFrom (b.add c.merged) rest := by
  cases c with
  | element name attributes children =>
    cases children with
    | nil =>
      rw [contentMarkup_element_nil, readFrom_event (e := .empty ⟨name, attributes⟩) h.1]
      rfl
    | cons d k =>
      rw [contentMarkup_element name attributes (List.cons_ne_nil d k), String.toList_append,
        String.toList_append, List.append_assoc, List.append_assoc,
        readFrom_event (e := .start ⟨name, attributes⟩) h.1]
      -- the children are read into the frame that the start tag opens and the end tag ends
      show readFrom ⟨⟨name, attributes, []⟩ :: b.frames, b.done⟩ _ = _
      rw [readFrom_contents (d :: k) h.2, foldl_add, readFrom_event (e := .close name) h.1.1]
      show (if name = name then some _ else none).bind _ = _
      rw [if_pos rfl, Option.bind_some, Frame.close, Content.reverse_foldl_glueAfter]
      rfl
  | text t =>
    rw [contentMarkup, readFrom_event (e := .text t) trivial]
    rfl
  | raw t =>
    rw [contentMarkup, cdataSections, List.map_map]
    refine (readFrom_sections (fun u hu => free_of_mem_cdataChars hu) b rest).trans ?_
    rw [cdataChars_flatten, String.ofList_toList]
    rfl
  | comment t =>
    have ht : (Event.comment (commentText t)).Legible := by
      rw [Event.Legible, commentText, String.toList_ofList]
      exact free_commentChars _
    rw [contentMarkup, readFrom_event ht]
    rfl

theorem readFrom_contents (k : List Content) (h : Content.AllWellNamed k) (b : TreeBuilder)
    (rest : List Char) :
    readFrom b ((contentsMarkup k).toList ++ rest) =
      readFrom (k.foldl (fun b c => b.add c.merged) b) rest := by
  cases k with
  | nil => rfl
  | cons c r =>
    rw [contentsMarkup, String.toList_append, List.append_assoc, readFrom_content c h.1,
      readFrom_contents r h.2]
    rfl

end

theorem foldl_add_roots (k done : List Content) :
    k.foldl (fun b c => add b c.merged) ⟨[], done⟩ =
      ⟨[], k.foldl (fun a c => c.merged.glueAfter a) done⟩ := by
  induction k generalizing done with
  | nil => rfl
  | cons c r ih => exact ih _

theorem read?_contentsMarkup {k : List Content} (h : Content.AllWellNamed k) :
    read? (contentsMarkup k) = some (Content.allMerged k) := by
  have hr := readFrom_contents k h TreeBuilder.empty []
  rw [List.append_nil, TreeBuilder.empty, foldl_add_roots, readFrom_nil] at hr
  rw [read?, TreeBuilder.empty, hr]
  exact congrArg some (Content.reverse_foldl_glueAfter k)

/-! ### Names of what is written -/

open Content (WellNamed AllWellNamed)

/-- If the call opens an element or writes an attribute, it gives it a name of XML. -/
def NamedCall : Call → Prop
  | .element name | .attr name _ => IsName name
  | .text _ | .raw _ | .comment _ | .close => True

instance : DecidablePred NamedCall
  | .element name | .attr name _ => inferInstanceAs (Decidable (IsName name))
  | .text _ | .raw _ | .comment _ | .close => isTrue trivial

structure NamedTree (b : TreeBuilder) : Prop where
  frames : ∀ f ∈ b.frames, (IsName f.name ∧ ∀ a ∈ f.attributes, IsName a.1) ∧ AllWellNamed f.content
  done : AllWellNamed b.done

theorem allWellNamed_append {a b : List Content} :
    AllWellNamed (a ++ b) ↔ AllWellNamed a ∧ AllWellNamed b := by
  induction a with
  | nil => exact ⟨fun h => ⟨trivial, h⟩, fun h => h.2⟩
  | cons c r ih => exact (and_congr_right fun _ => ih).trans and_assoc.symm

theorem allWellNamed_reverse {a : List Content} (h : AllWellNamed a) : AllWellNamed a.reverse := by
  induction a with
  | nil => exact h
  | cons c r ih =>
    rw [List.reverse_cons, allWellNamed_append]
    exact ⟨ih h.2, h.1, trivial⟩

theorem NamedTree.push {b : TreeBuilder} (h : NamedTree b) {c : Content} (hc : c.WellNamed) :
    NamedTree (b.push c) := by
  rcases b with ⟨_ | ⟨f, r⟩, done⟩
  · exact ⟨h.frames, hc, h.done⟩
  · refine ⟨fun g hg => ?_, h.done⟩
    rcases List.mem_cons.1 hg with rfl | hg
    · have hf := h.frames f (List.mem_cons_self ..)
      exact ⟨hf.1, hc, hf.2⟩
    · exact h.frames g (List.mem_cons_of_mem f hg)

theorem wellNamed_close {f : Frame}
    (h : (IsName f.name ∧ ∀ a ∈ f.attributes, IsName a.1) ∧ AllWellNamed f.content) :
    f.close.WellNamed := ⟨h.1, allWellNamed_reverse h.2⟩

theorem NamedTree.perform {b : TreeBuilder} (h : NamedTree b) {c : Call} (hc : NamedCall c) :
    NamedTree (Writer.perform c b).2 := by
  show NamedTree (TreeBuilder.perform c b).2
  cases c with
  | element name =>
    refine ⟨fun f hf => ?_, h.done⟩
    rcases List.mem_cons.1 hf with rfl | hf
    · exact ⟨⟨hc, by simp⟩, trivial⟩
    · exact h.frames f hf
  | attr name value =>
    rcases b with ⟨_ | ⟨⟨n, attributes, _ | ⟨d, content⟩⟩, r⟩, done⟩
    · exact h
    · refine ⟨fun f hf => ?_, h.done⟩
      rcases List.mem_cons.1 hf with rfl | hf
      · have hf := h.frames _ (List.mem_cons_self ..)
        refine ⟨⟨hf.1.1, fun a ha => ?_⟩, trivial⟩
        rcases List.mem_append.1 ha with ha | ha
        · exact hf.1.2 a ha
        · rw [List.mem_singleton.1 ha]
          exact hc
      · exact h.frames f (List.mem_cons_of_mem _ hf)
    · exact h
  | text t => exact h.push trivial
  | raw t => exact h.push trivial
  | comment t => exact h.push trivial
  | close =>
    rcases b with ⟨_ | ⟨f, r⟩, done⟩
    · exact h
    · have hr : NamedTree ⟨r, done⟩ := ⟨fun g hg => h.frames g (List.mem_cons_of_mem f hg), h.done⟩
      exact hr.push (wellNamed_close (h.frames f (List.mem_cons_self ..)))

theorem NamedTree.after {b : TreeBuilder} (h : NamedTree b) {cs : List Call} (hc : ∀ c ∈ cs, NamedCall c) :
    NamedTree (Writer.after cs b) := by
  induction cs generalizing b with
  | nil => exact h
  | cons c r ih =>
    exact ih (h.perform (hc c (List.mem_cons_self ..))) fun d hd => hc d (List.mem_cons_of_mem c hd)

theorem NamedTree.finish {b : TreeBuilder} (h : NamedTree b) : AllWellNamed b.finish := by
  suffices hs : ∀ (frames : List Frame) (inner done : List Content), NamedTree ⟨frames, done⟩ →
      AllWellNamed inner → AllWellNamed (TreeBuilder.closeFrames inner frames done) from
    allWellNamed_reverse (hs b.frames [] b.done h trivial)
  intro frames
  induction frames with
  | nil => exact fun inner done h hi => allWellNamed_append.2 ⟨hi, h.done⟩
  | cons f r ih =>
    intro inner done h hi
    have hf := h.frames f (List.mem_cons_self ..)
    have hr : NamedTree ⟨r, done⟩ := ⟨fun g hg => h.frames g (List.mem_cons_of_mem f hg), h.done⟩
    exact ih _ done hr ⟨wellNamed_close ⟨hf.1, allWellNamed_append.2 ⟨hi, hf.2⟩⟩, trivial⟩

/-! ### The finished text -/

open Writer (after)

theorem decode_toUTF8 (s : String) : Sink.decode s.toUTF8 = s := by
  have hx : s.toUTF8.extract 0 (s.toUTF8.size - 0) = s.toUTF8 := ByteArray.extract_zero_size
  have hs : String.fromUTF8? s.toUTF8 = some s := dif_pos s.isValidUTF8
  simp only [Sink.decode, hx, hs]

/-- Whatever is written under names of XML, the finished text can be read, and what is read is the tree that
was written, as a reader sees it. -/
theorem read?_finished_text (cs : List Call) (h : ∀ c ∈ cs, NamedCall c) :
    ∃ w, (after cs (TextWriter.new .unlimited .compact)).finish = (.ok (), w) ∧
      read? w.sink.text = some (Content.allMerged (after cs TreeBuilder.empty).finish) := by
  obtain ⟨w, hw, hb⟩ := (mirrors_new.after cs).2.finish
  have hn : NamedTree TreeBuilder.empty := ⟨by simp [TreeBuilder.empty], trivial⟩
  refine ⟨w, hw, ?_⟩
  rw [Sink.text, hb, decode_toUTF8, read?_contentsMarkup (hn.after h).finish]

/-- Calls whose strings are full of markup. -/
def trickyCalls : List Call :=
  [.element "Page", .attr "Title" "\"/><&amp;", .text "</Page>", .text "]]>", .raw "", .raw "x]]>y]]", .raw ">",
    .comment "--", .element "a-1", .text "", .close]

theorem read?_finished_text_tricky :
    (∀ c ∈ trickyCalls, NamedCall c) ∧
      ∃ w, (after trickyCalls (TextWriter.new .unlimited .compact)).finish = (.ok (), w) ∧
        read? w.sink.text = some [.element "Page" [("Title", "\"/><&amp;")]
          [.text "</Page>]]>", .raw "x]]>y]]>", .comment (commentText "--"), .element "a-1" [] []]] := by
  have hn : ∀ c ∈ trickyCalls, NamedCall c := by decide +kernel
  exact ⟨hn, read?_finished_text trickyCalls hn⟩

end Xml

end XamlDoc.Markup
