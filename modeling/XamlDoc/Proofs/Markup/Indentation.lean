import XamlDoc.Proofs.Markup.Processor

/-!
# Indented texts

An indented text is the compact one with line breaks and blanks between pieces of markup, never next to character data.
A tag on a line of its own is indented by the elements open around it. A reader that drops texts of blanks gets the same
tree from both.
-/

namespace XamlDoc.Markup

open Content (allEvents allMerged events events_element glue merged)

namespace Xml

/-! ### Lines -/

def Event.isCharacters : Event → Bool
  | .text _ | .cdata _ => true
  | .start _ | .empty _ | .close _ | .comment _ => false

/-- The names of the open elements after an event, innermost first. -/
def Event.opened (names : List String) : Event → List String
  | .start tag => tag.name :: names
  | .close _ => names.tail
  | .empty _ | .text _ | .cdata _ | .comment _ => names

def openAfter (before : List Event) : List String := before.foldl Event.opened []

/-- The number of elements that are open around an event. An end tag is not inside the element that it ends. -/
def around (before : List Event) : Event → Nat
  | .close _ => (openAfter before).length - 1
  | _ => (openAfter before).length

/-- What stands before an event on its own line. -/
def lineStart (step : Nat) (before : List Event) (e : Event) : String :=
  String.ofList ('\n' :: List.replicate (step * around before e) ' ')

/-- Whether markup was written last. -/
def afterMarkup (before : List Event) : Bool := before.getLast?.any fun d => !d.isCharacters

/-- A line is broken between two pieces of markup neither of which is character data. -/
def breaks (before : List Event) (e : Event) : Bool := afterMarkup before && !e.isCharacters

theorem openAfter_concat (before : List Event) (e : Event) : openAfter (before ++ [e]) = e.opened (openAfter before) :=
  List.foldl_append

theorem afterMarkup_concat (before : List Event) (e : Event) : afterMarkup (before ++ [e]) = !e.isCharacters := by
  rw [afterMarkup, List.getLast?_append]
  rfl

/-- The layout has kept count of what was written. -/
def Layout.Tracks (step : Nat) (before : List Event) (l : Layout) : Prop :=
  l = ⟨some step, step * (openAfter before).length, afterMarkup before⟩

theorem Layout.tracks_indented (step : Nat) : (Layout.indented step).Tracks step [] := rfl

theorem Layout.Tracks.place {step : Nat} {before : List Event} {l : Layout} (h : l.Tracks step before) (e : Event) :
    (l.place e).1 = (if breaks before e then lineStart step before e else "") ∧
      (l.place e).2.Tracks step (before ++ [e]) := by
  subst h
  rw [Tracks, openAfter_concat, afterMarkup_concat, breaks]
  cases e with
  | text t | cdata t => exact ⟨by rw [Event.isCharacters, Bool.not_true, Bool.and_false]; rfl, rfl⟩
  | empty tag | comment t => exact ⟨by rw [Event.isCharacters, Bool.not_false, Bool.and_true]; rfl, rfl⟩
  | start tag => exact ⟨by rw [Event.isCharacters, Bool.not_false, Bool.and_true]; rfl, rfl⟩
  | close name =>
    have hclose : step * (openAfter before).length - step = step * ((openAfter before).length - 1) :=
      (Nat.mul_sub_one ..).symm
    refine ⟨?_, ?_⟩
    · rw [Event.isCharacters, Bool.not_false, Bool.and_true, lineStart, around, ← hclose]
      rfl
    · rw [Event.opened, List.length_tail, ← hclose]
      rfl

theorem Layout.Tracks.text {step : Nat} {before : List Event} {l : Layout} (h : l.Tracks step before)
    (es : List Event) : l.text es = String.join (es.mapIdx fun i e =>
      (if breaks (before ++ es.take i) e then lineStart step (before ++ es.take i) e else "") ++ e.markup) := by
  induction es generalizing before l with
  | nil => rfl
  | cons e r ih =>
    obtain ⟨hlead, hrest⟩ := h.place e
    rw [Layout.text, hlead, ih hrest, List.mapIdx_cons, String.join_cons, List.take_zero, List.append_nil]
    simp only [List.take_succ_cons, List.append_assoc, List.singleton_append]
    rfl

theorem Layout.text_compact {l : Layout} (h : l.step? = none) (es : List Event) :
    l.text es = String.join (es.map Event.markup) := by
  induction es generalizing l with
  | nil => rfl
  | cons e r ih =>
    obtain ⟨hlead, hstep⟩ := TextWriter.lead_of_compact (w := { TextWriter.new .unlimited l with layout := l }) h e
    rw [Layout.text, hlead, ih hstep, List.map_cons, String.join_cons, String.empty_append]

/-! ### Nesting -/

/-- Every end tag ends the element that was begun last, and all elements are ended. -/
def Nests : List String → List Event → Prop
  | names, [] => names = []
  | names, .start tag :: r => Nests (tag.name :: names) r
  | [], .close _ :: _ => False
  | name :: names, .close n :: r => n = name ∧ Nests names r
  | names, .empty _ :: r | names, .text _ :: r | names, .cdata _ :: r | names, .comment _ :: r => Nests names r

theorem nests_cdatas (sections : List String) (names : List String) (r : List Event) :
    Nests names (sections.map .cdata ++ r) ↔ Nests names r := by
  induction sections with
  | nil => exact Iff.rfl
  | cons t u ih =>
    rw [List.map_cons, List.cons_append, Nests]
    exact ih

mutual

theorem nests_events (c : Content) (names : List String) (r : List Event) :
    Nests names (c.events ++ r) ↔ Nests names r := by
  cases c with
  | element name attributes children =>
    cases children with
    | nil => exact Iff.rfl
    | cons d k =>
      rw [events_element _ _ (List.cons_ne_nil d k), List.cons_append, List.append_assoc, Nests,
        nests_allEvents (d :: k), List.singleton_append, Nests]
      exact and_iff_right rfl
  | text t => exact Iff.rfl
  | raw t => exact nests_cdatas _ names r
  | comment t => exact Iff.rfl

theorem nests_allEvents (k : List Content) (names : List String) (r : List Event) :
    Nests names (allEvents k ++ r) ↔ Nests names r := by
  cases k with
  | nil => exact Iff.rfl
  | cons c l => rw [allEvents, List.append_assoc, nests_events c, nests_allEvents l]

end

/-! ### A reader that drops blanks -/

def isSpace (c : Char) : Bool := c = ' ' || c = '\t' || c = '\n' || c = '\r'

end Xml

namespace Content

/-- A text of blanks. -/
def isSpace : Content → Bool
  | .text t => t.toList.all Xml.isSpace
  | .element _ _ _ | .raw _ | .comment _ => false

mutual

/-- A content without the texts of blanks in it. -/
def unspaced : Content → Content
  | .element name attributes children => .element name attributes (allUnspaced children)
  | .text t => .text t
  | .raw t => .raw t
  | .comment t => .comment t

def allUnspaced : List Content → List Content
  | [] => []
  | c :: r => if c.isSpace then allUnspaced r else unspaced c :: allUnspaced r

end

/-- Character data that contents begin with, which data in front of it would continue. -/
def headData? : List Content → Option Content
  | .text t :: _ => some (.text t)
  | .raw t :: _ => some (.raw t)
  | _ => none

theorem eq_cons_of_headData? {k : List Content} {c : Content} (h : headData? k = some c) : ∃ r, k = c :: r := by
  rcases k with _ | ⟨_ | _ | _ | _, r⟩ <;> cases h <;> exact ⟨r, rfl⟩

/-- Nothing is continued where contents do not begin with data. -/
theorem glue_of_headData? {k : List Content} (h : headData? k = none) (c : Content) :
    glue c k = if c.isBlank then k else c :: k := by
  have hs : stick c k = c :: k := by
    rcases k with _ | ⟨_ | _ | _ | _, r⟩ <;> cases h <;> cases c <;> rfl
  rw [glue, hs]

theorem allUnspaced_cons_inj {c : Content} {a b : List Content} (h : allUnspaced (c :: a) = allUnspaced (c :: b)) :
    allUnspaced a = allUnspaced b := by
  rw [allUnspaced, allUnspaced] at h
  split at h
  · exact h
  · exact (List.cons.inj h).2

theorem allUnspaced_cons {a b : List Content} (c : Content) (h : allUnspaced a = allUnspaced b) :
    allUnspaced (c :: a) = allUnspaced (c :: b) := by
  rw [allUnspaced, allUnspaced, h]

/-- The same but for texts of blanks, none of which is in front of data. -/
structure Evenly (a b : List Content) : Prop where
  unspaced : allUnspaced a = allUnspaced b
  head : headData? a = headData? b

theorem Evenly.glue {a b : List Content} (h : Evenly a b) (c : Content) : Evenly (glue c a) (glue c b) := by
  cases hd : headData? a with
  | none =>
    rw [glue_of_headData? hd, glue_of_headData? (h.head ▸ hd)]
    split
    · exact h
    · exact ⟨allUnspaced_cons c h.unspaced, by cases c <;> rfl⟩
  | some d =>
    obtain ⟨r, rfl⟩ := eq_cons_of_headData? hd
    obtain ⟨t, rfl⟩ := eq_cons_of_headData? (h.head ▸ hd)
    have hrest : allUnspaced r = allUnspaced t := allUnspaced_cons_inj h.unspaced
    rw [Content.glue, Content.glue, stick, stick]
    split
    · exact h
    · cases c.plus? d with
      | some e => exact ⟨allUnspaced_cons e hrest, by cases e <;> rfl⟩
      | none => exact ⟨allUnspaced_cons c h.unspaced, by cases c <;> rfl⟩

end Content

namespace Xml

open Content (Evenly allUnspaced headData?)

/-! ### Reading an indented text -/

theorem place_of_not_atBreak {l : Layout} (h : l.atBreak = false) (e : Event) : (l.place e).1 = "" := by
  have hlead (i : Nat) : (⟨l.step?, i, false⟩ : Layout).lead = "" := by
    rw [Layout.lead, Bool.and_false]
    rfl
  obtain ⟨step?, i, b⟩ := l
  cases h
  cases e <;> first | exact hlead _ | rfl

theorem isSpace_place (l : Layout) (e : Event) : (Content.text (l.place e).1).isSpace = true := by
  rcases l.place_lead e with he | ⟨n, he⟩
  · rw [he]
    rfl
  · rw [he, Content.isSpace, String.toList_ofList, List.all_cons, List.all_replicate]
    simp [isSpace]

theorem atBreak_after_raw (l : Layout) (t : String) : (l.after (Content.raw t).events).atBreak = false := by
  have hs : (Content.raw t).events ≠ [] := by
    rw [events, cdataSections, List.map_map]
    exact mt List.map_eq_nil_iff.1 (cdataChars_ne_nil t.toList)
  rw [← List.dropLast_concat_getLast hs, Layout.after, List.foldl_append]
  obtain ⟨u, -, hu⟩ := List.mem_map.1 (List.getLast_mem hs)
  rw [← hu]
  rfl

/-- Contents read in a layout against the contents themselves: the same but for texts of blanks, which only stand in
front after a break. -/
structure Agrees (l : Layout) (a b : List Content) : Prop where
  unspaced : allUnspaced a = allUnspaced b
  head : l.atBreak = false → headData? a = headData? b

theorem Agrees.of_evenly {a b : List Content} (h : Evenly a b) (l : Layout) : Agrees l a b :=
  ⟨h.unspaced, fun _ => h.head⟩

theorem Agrees.evenly {l : Layout} {a b : List Content} (h : Agrees l a b) (hl : l.atBreak = false) : Evenly a b :=
  ⟨h.unspaced, h.head hl⟩

/-- What stands before an event is a text of blanks, and is not there right after data. -/
theorem agrees_lead (l : Layout) (e : Event) {a b : List Content} (h : Evenly a b) (ha : headData? a = none) :
    Agrees l (glue (.text (l.place e).1) a) b := by
  rw [Content.glue_of_headData? ha]
  split
  · exact .of_evenly h l
  · rename_i hb
    refine ⟨?_, fun hl => ?_⟩
    · rw [allUnspaced, isSpace_place, if_pos rfl, h.unspaced]
    · rw [place_of_not_atBreak hl] at hb
      exact (hb rfl).elim

/-- Markup continues nothing and is never dropped. -/
theorem glue_markup {c : Content} (hc : headData? [c] = none) (k : List Content) :
    glue c k = c :: k ∧ headData? (c :: k) = none ∧ c.isSpace = false := by
  refine ⟨?_, ?_, ?_⟩
  · rcases c with _ | _ | _ | _ <;> cases hc <;> cases k <;> rfl
  · rcases c with _ | _ | _ | _ <;> cases hc <;> rfl
  · rcases c with _ | _ | _ | _ <;> cases hc <;> rfl

/-- Markup after what stands before it. -/
theorem agrees_markup (l : Layout) (e : Event) {c d : Content} (hc : headData? [c] = none) (hd : headData? [d] = none)
    (h : c.unspaced = d.unspaced) {a b : List Content} (hr : allUnspaced a = allUnspaced b) :
    Agrees l (glue (.text (l.place e).1) (glue c a)) (glue d b) := by
  obtain ⟨hca, hna, hcs⟩ := glue_markup hc a
  obtain ⟨hdb, hnb, hds⟩ := glue_markup hd b
  rw [hca, hdb]
  refine agrees_lead l e ⟨?_, hna.trans hnb.symm⟩ hna
  rw [allUnspaced, allUnspaced, hcs, hds, h, hr]

mutual

theorem agrees_spaced (c : Content) {l : Layout} {a b : List Content}
    (h : Agrees (l.after c.events) (allMerged a) (allMerged b)) :
    Agrees l (allMerged (spaced l c ++ a)) (allMerged (c :: b)) := by
  cases c with
  | element name attributes children =>
    cases children with
    | nil => exact agrees_markup l (.empty ⟨name, attributes⟩) rfl rfl rfl h.unspaced
    | cons d r =>
      rw [spaced_element _ _ _ (List.cons_ne_nil d r)]
      -- what stands before the end tag is the last of the children
      let inner := (l.place (.start ⟨name, attributes⟩)).2
      let final := inner.after (allEvents (d :: r))
      have hlast : Agrees final (allMerged [.text (final.place (.close name)).1]) (allMerged []) :=
        agrees_lead final (.close name) ⟨rfl, rfl⟩ rfl
      have hchildren := agrees_allSpaced (d :: r) hlast
      rw [List.append_nil] at hchildren
      have helement : (merged (.element name attributes (allSpaced inner (d :: r) ++
          [.text (final.place (.close name)).1]))).unspaced = (merged (.element name attributes (d :: r))).unspaced :=
        congrArg (Content.element name attributes) hchildren.unspaced
      exact agrees_markup l (.start ⟨name, attributes⟩) rfl rfl helement h.unspaced
  | text t => exact .of_evenly ((h.evenly rfl).glue _) l
  | raw t => exact .of_evenly ((h.evenly (atBreak_after_raw l t)).glue _) l
  | comment t => exact agrees_markup l (.comment (commentText t)) rfl rfl rfl h.unspaced

theorem agrees_allSpaced (k : List Content) {l : Layout} {a b : List Content}
    (h : Agrees (l.after (allEvents k)) (allMerged a) (allMerged b)) :
    Agrees l (allMerged (allSpaced l k ++ a)) (allMerged (k ++ b)) := by
  cases k with
  | nil => exact h
  | cons c r =>
    rw [allSpaced, List.append_assoc, List.cons_append]
    refine agrees_spaced c (agrees_allSpaced r ?_)
    rw [allEvents, Layout.after, List.foldl_append] at h
    exact h

end

/-- In every layout, a reader gets the contents but for texts of blanks. -/
theorem read?_unspaced {k : List Content} (h : ∀ e ∈ allEvents k, e.Legible) (l : Layout) :
    ∃ k', read? (l.text (allEvents k)) = some k' ∧ allUnspaced k' = allUnspaced (allMerged k) := by
  refine ⟨_, read?_spaced h l, ?_⟩
  have ha : Agrees l (allMerged (allSpaced l k ++ [])) (allMerged (k ++ [])) :=
    agrees_allSpaced k (.of_evenly ⟨rfl, rfl⟩ _)
  rw [List.append_nil, List.append_nil] at ha
  exact ha.unspaced

end Xml

end XamlDoc.Markup
