import XamlDoc.Html.Basic
import XamlDoc.Proofs.Markup.Events
import XamlDoc.Proofs.Text.Numerals
import XamlDoc.Text.Decimal
import XamlDoc.Text.Scripted

/-!
# Characters of written text

An alphabet has all characters that XML allows, and maybe others. Names, numbers and the marks that writers put
around texts are spelled in every alphabet, so a text is spelled in an alphabet if what is written in it is.
-/

namespace XamlDoc

open Markup (Attribute Call Content Tag)
open Markup.Xml (Event Layout inRanges isNameChar isNameStart IsName)

/-- `Char` of XML 1.0. -/
def Markup.Xml.isAllowed : Char → Bool :=
  inRanges [(0x9, 0x9), (0xA, 0xA), (0xD, 0xD), (0x20, 0xD7FF), (0xE000, 0xFFFD), (0x10000, 0x10FFFF)]

open Markup.Xml (isAllowed)

structure Alphabet where
  Has : Char → Prop
  allowed {c : Char} : isAllowed c = true → Has c

namespace Alphabet

/-- The characters that XML allows. -/
def xml : Alphabet := ⟨fun c => isAllowed c = true, id⟩

/-- All characters of the text are in the alphabet. -/
def Spells (A : Alphabet) (s : String) : Prop := ∀ c ∈ s.toList, A.Has c

variable {A : Alphabet}

/-! ### Texts -/

theorem spells_ofList {l : List Char} : A.Spells (String.ofList l) ↔ ∀ c ∈ l, A.Has c := by
  rw [Spells, String.toList_ofList]

theorem spells_of_all {s : String} (h : s.toList.all isAllowed = true) : A.Spells s :=
  fun c hc => A.allowed (List.all_eq_true.1 h c hc)

/-- A text that stands in the program. -/
theorem spells_literal {l : List Char} (h : l.all isAllowed = true) : A.Spells (String.ofList l) :=
  spells_ofList.2 fun c hc => A.allowed (List.all_eq_true.1 h c hc)

theorem spells_empty : A.Spells "" := spells_literal rfl

theorem spells_append {s t : String} : A.Spells (s ++ t) ↔ A.Spells s ∧ A.Spells t := by
  simp only [Spells, String.toList_append, List.forall_mem_append]

/-- A text with marks around it. -/
theorem spells_between {a b s : String} (ha : A.Spells a) (hb : A.Spells b) (h : A.Spells s) :
    A.Spells (a ++ s ++ b) :=
  spells_append.2 ⟨spells_append.2 ⟨ha, h⟩, hb⟩

theorem spells_join {l : List String} (h : ∀ s ∈ l, A.Spells s) : A.Spells (String.join l) := by
  induction l with
  | nil => exact spells_empty
  | cons s r ih =>
    rw [String.join_cons]
    exact spells_append.2 ⟨h s (List.mem_cons_self ..), ih fun t ht => h t (List.mem_cons_of_mem s ht)⟩

theorem spells_joined {sep : String} {l : List String} (hs : A.Spells sep) (h : ∀ s ∈ l, A.Spells s) :
    A.Spells (Text.join sep l) := by
  fun_induction Text.join sep l with
  | case1 => exact spells_empty
  | case2 s => exact h s (List.mem_cons_self ..)
  | case3 s t r ih =>
    refine spells_append.2 ⟨spells_append.2 ⟨h s (List.mem_cons_self ..), hs⟩, ih fun u hu => h u ?_⟩
    exact List.mem_cons_of_mem s hu

theorem spells_repeated {s : String} (h : A.Spells s) (n : Nat) : A.Spells (Text.repeated s n) := by
  induction n with
  | zero => exact spells_empty
  | succ n ih => exact spells_append.2 ⟨h, ih⟩

theorem spells_map {f : Char → Char} (hf : ∀ c, A.Has c → A.Has (f c)) {s : String} (h : A.Spells s) :
    A.Spells (s.map f) := by
  intro c hc
  rw [String.toList_map] at hc
  obtain ⟨b, hb, rfl⟩ := List.mem_map.1 hc
  exact hf b (h b hb)

/-- Other forms of characters, which XML allows, in the place of some. -/
theorem has_form {forms : List (Char × Char)} (hf : (forms.map Prod.snd).all isAllowed = true) {c : Char}
    (h : A.Has c) : A.Has ((forms.lookup c).getD c) := by
  cases hl : forms.lookup c with
  | none => exact h
  | some d =>
    obtain ⟨l, r, rfl, -⟩ := List.lookup_eq_some_iff.1 hl
    exact A.allowed (List.all_eq_true.1 hf d (by simp))

theorem spells_superscript {s : String} (h : A.Spells s) : A.Spells (Text.superscript s) :=
  spells_map (fun _ => has_form (by decide)) h

theorem spells_subscript {s : String} (h : A.Spells s) : A.Spells (Text.subscript s) :=
  spells_map (fun _ => has_form (by decide)) h

/-! ### Numbers -/

theorem allowed_of_range {c : Char} (h : 0x20 ≤ c.toNat) (h' : c.toNat ≤ 0xD7FF) : isAllowed c = true := by
  simp [isAllowed, inRanges, h, h']

theorem has_digit {n : Nat} {c : Char} (h : c ∈ Nat.toDigits 10 n) : A.Has c := by
  have hd : c.isDigit = true := Nat.isDigit_of_mem_toDigits (by decide) (by decide) h
  have hr := Text.range_of_isDigit hd
  exact A.allowed (allowed_of_range (by omega) (by omega))

theorem spells_nat (n : Nat) : A.Spells (toString n) := spells_ofList.2 fun _ => has_digit

theorem spells_int (n : Int) : A.Spells (toString n) := by
  cases n with
  | ofNat n => exact spells_nat n
  | negSucc n => exact spells_append.2 ⟨(spells_literal rfl : A.Spells "-"), spells_nat _⟩

theorem spells_positional (n : Nat) (e : Int) : A.Spells (Text.Decimal.positional n e) := by
  have zero (k : Nat) {c : Char} (h : c ∈ List.replicate k '0') : A.Has c := by
    rw [List.eq_of_mem_replicate h]
    exact A.allowed rfl
  unfold Text.Decimal.positional
  dsimp only
  split
  · exact spells_ofList.2 fun c hc => (List.mem_append.1 hc).elim has_digit (zero _)
  · split
    · refine spells_append.2 ⟨spells_literal rfl, spells_ofList.2 fun c hc => ?_⟩
      exact (List.mem_append.1 hc).elim (zero _) has_digit
    · refine spells_append.2 ⟨spells_append.2 ⟨spells_ofList.2 fun c hc => ?_, spells_literal rfl⟩,
        spells_ofList.2 fun c hc => ?_⟩
      · exact has_digit (List.mem_of_mem_take hc)
      · exact has_digit (List.mem_of_mem_drop hc)

theorem spells_decimal (x : Float) : A.Spells (Text.decimal x) := by
  have sign (b : Bool) : A.Spells (if b then "-" else "") := by cases b <;> exact spells_literal rfl
  unfold Text.decimal Text.Decimal.ofBits
  dsimp only
  split
  · split
    · exact spells_append.2 ⟨sign _, spells_literal rfl⟩
    · exact spells_literal rfl
  · split
    · exact spells_append.2 ⟨sign _, spells_literal rfl⟩
    · exact spells_append.2 ⟨sign _, spells_positional _ _⟩

/-! ### Names -/

theorem allowed_of_isNameChar {c : Char} (h : isNameChar c = true) : isAllowed c = true := by
  simp only [isNameChar, isNameStart, isAllowed, inRanges, List.any_cons, List.any_nil, Bool.or_eq_true,
    Bool.and_eq_true, decide_eq_true_eq, Bool.or_false] at h ⊢
  omega

/-- The characters make up a name of XML. -/
def isNameText : List Char → Bool
  | [] => false
  | c :: r => isNameStart c && r.all isNameChar

/-- A name that stands in the program. -/
theorem isName_literal {l : List Char} (h : isNameText l = true) : IsName (String.ofList l) := by
  cases l with
  | nil => cases h
  | cons c r =>
    rw [isNameText, Bool.and_eq_true, List.all_eq_true] at h
    rw [IsName, String.toList_ofList]
    exact h

theorem spells_name {name : String} (h : IsName name) : A.Spells name := by
  rw [IsName] at h
  split at h
  · exact h.elim
  · rename_i d r hl
    intro c hc
    rw [hl] at hc
    refine A.allowed (allowed_of_isNameChar ?_)
    rcases List.mem_cons.1 hc with rfl | hc
    · simp [isNameChar, h.1]
    · exact h.2 c hc

/-! ### Written text -/

/-- Entities in the place of some characters. -/
theorem spells_entities (entity? : Char → Option String) {escapeChar : Char → List Char}
    (hc : ∀ c, escapeChar c = ((entity? c).map String.toList).getD [c])
    (he : ∀ c e, entity? c = some e → e.toList.all isAllowed = true) {s : String} (h : A.Spells s) :
    A.Spells (String.ofList (s.toList.flatMap escapeChar)) := by
  refine spells_ofList.2 fun d hd => ?_
  obtain ⟨c, hs, hd⟩ := List.mem_flatMap.1 hd
  rw [hc] at hd
  cases hn : entity? c with
  | none =>
    rw [hn] at hd
    rw [List.mem_singleton.1 hd]
    exact h c hs
  | some e =>
    rw [hn] at hd
    exact spells_of_all (he c e hn) d hd

theorem spells_escape {s : String} (h : A.Spells s) : A.Spells (Markup.Xml.escape s) := by
  refine spells_entities Markup.Xml.entity? (fun c => ?_) (fun c e he => ?_) h
  · unfold Markup.Xml.escapeChar
    cases Markup.Xml.entity? c <;> rfl
  · unfold Markup.Xml.entity? at he
    split at he <;> cases he <;> decide

theorem spells_htmlEscape {s : String} (h : A.Spells s) : A.Spells (Html.escape s) := by
  refine spells_entities Html.entity? (fun c => ?_) (fun c e he => ?_) h
  · unfold Html.escapeChar
    cases Html.entity? c <;> rfl
  · unfold Html.entity? at he
    split at he <;> cases he <;> decide

theorem has_spreadOnce {s : List Char} (h : ∀ c ∈ s, A.Has c) : ∀ c ∈ Markup.Xml.spreadOnce s, A.Has c := by
  fun_induction Markup.Xml.spreadOnce s with
  | case1 r ih =>
    have hb : A.Has ' ' := A.allowed rfl
    have hd : A.Has '-' := h '-' (List.mem_cons_self ..)
    have hr := ih fun c hc => h c (List.mem_cons_of_mem _ (List.mem_cons_of_mem _ hc))
    simpa [hb, hd] using hr
  | case2 c r _ ih =>
    intro d hd
    rcases List.mem_cons.1 hd with rfl | hd
    · exact h d (List.mem_cons_self ..)
    · exact ih (fun c hc => h c (List.mem_cons_of_mem _ hc)) d hd
  | case3 => exact h

theorem has_spread {s : List Char} (h : ∀ c ∈ s, A.Has c) : ∀ c ∈ Markup.Xml.spread s, A.Has c := by
  fun_induction Markup.Xml.spread s with
  | case1 s _ => exact h
  | case2 s _ ih => exact ih (has_spreadOnce h)

theorem spells_commentText {s : String} (h : A.Spells s) : A.Spells (Markup.Xml.commentText s) := by
  have hs := has_spread h
  refine spells_ofList.2 fun c hc => ?_
  rw [Markup.Xml.commentChars] at hc
  split at hc
  · rcases List.mem_append.1 hc with hc | hc
    · exact hs c hc
    · rw [List.mem_singleton.1 hc]
      exact A.allowed rfl
  · exact hs c hc

theorem spells_cdata {s t : String} (h : A.Spells s) (ht : t ∈ Markup.Xml.cdataSections s) : A.Spells t := by
  obtain ⟨l, hl, rfl⟩ := List.mem_map.1 ht
  refine spells_ofList.2 fun c hc => h c ?_
  rw [← Markup.Xml.cdataChars_flatten s.toList]
  exact List.mem_flatten.2 ⟨l, hl, hc⟩

/-! ### Calls -/

/-- The names of the call are names of XML, and its texts are spelled in the alphabet. -/
inductive SpellsCall (A : Alphabet) : Call → Prop where
  | element {name : String} : IsName name → SpellsCall A (.element name)
  | attr {name value : String} : IsName name → A.Spells value → SpellsCall A (.attr name value)
  | text {t : String} : A.Spells t → SpellsCall A (.text t)
  | raw {t : String} : A.Spells t → SpellsCall A (.raw t)
  | comment {t : String} : A.Spells t → SpellsCall A (.comment t)
  | close : SpellsCall A .close

/-- What the reader tells from what is around it, spelled in the alphabet. -/
structure SpellsEvent (A : Alphabet) (e : Event) : Prop where
  legible : e.Legible
  markup : A.Spells e.markup

theorem spells_tagMarkup {t : Tag} (h : ∀ c ∈ Call.ofTag t, A.SpellsCall c) :
    (IsName t.name ∧ ∀ a ∈ t.attributes, IsName a.1) ∧ A.Spells (Markup.Xml.tagMarkup t) := by
  obtain ⟨hn⟩ := h (.element t.name) (List.mem_cons_self ..)
  have ha (a : Attribute) (hm : a ∈ t.attributes) : IsName a.1 ∧ A.Spells a.2 := by
    obtain _ | ⟨hn, hv⟩ := h (.attr a.1 a.2) (List.mem_cons_of_mem _ (List.mem_map_of_mem hm))
    exact ⟨hn, hv⟩
  refine ⟨⟨hn, fun a hm => (ha a hm).1⟩, spells_append.2 ⟨spells_name hn, spells_join fun s hs => ?_⟩⟩
  obtain ⟨a, hm, rfl⟩ := List.mem_map.1 hs
  obtain ⟨hn, hv⟩ := ha a hm
  simp only [Markup.Xml.attributeMarkup, spells_append]
  exact ⟨⟨⟨⟨spells_literal rfl, spells_name hn⟩, spells_literal rfl⟩, spells_escape hv⟩, spells_literal rfl⟩

open Markup.Content (calls allCalls events allEvents events_element)

mutual

theorem spells_events (k : Content) (h : ∀ c ∈ k.calls, A.SpellsCall c) : ∀ e ∈ k.events, A.SpellsEvent e := by
  cases k with
  | element name attributes children =>
    rw [calls, List.forall_mem_append, List.forall_mem_append] at h
    obtain ⟨ht, hc, -⟩ := h
    obtain ⟨hl, hm⟩ := spells_tagMarkup ht
    cases children with
    | nil =>
      exact List.forall_mem_singleton.2 ⟨hl, spells_between (spells_literal rfl) (spells_literal rfl) hm⟩
    | cons d r =>
      rw [events_element _ _ (List.cons_ne_nil d r)]
      intro e he
      rcases List.mem_cons.1 he with rfl | he
      · exact ⟨hl, spells_between (spells_literal rfl) (spells_literal rfl) hm⟩
      · rcases List.mem_append.1 he with he | he
        · exact spells_allEvents (d :: r) hc e he
        · rw [List.mem_singleton.1 he]
          exact ⟨hl.1, spells_between (spells_literal rfl) (spells_literal rfl) (spells_name hl.1)⟩
  | text t =>
    obtain _ | _ | ht := h (.text t) (List.mem_singleton_self _)
    exact List.forall_mem_singleton.2 ⟨trivial, spells_escape ht⟩
  | raw t =>
    obtain _ | _ | _ | ht := h (.raw t) (List.mem_singleton_self _)
    intro e he
    obtain ⟨u, hu, rfl⟩ := List.mem_map.1 he
    refine ⟨?_, spells_between (spells_literal rfl) (spells_literal rfl) (spells_cdata ht hu)⟩
    obtain ⟨l, hl, rfl⟩ := List.mem_map.1 hu
    rw [Event.Legible, String.toList_ofList]
    exact Markup.Xml.free_of_mem_cdataChars hl
  | comment t =>
    obtain _ | _ | _ | _ | ht := h (.comment t) (List.mem_singleton_self _)
    refine List.forall_mem_singleton.2 ⟨?_, spells_between (spells_literal rfl) (spells_literal rfl) (spells_commentText ht)⟩
    rw [Event.Legible, Markup.Xml.commentText, String.toList_ofList]
    exact Markup.Xml.free_commentChars _

theorem spells_allEvents (k : List Content) (h : ∀ c ∈ allCalls k, A.SpellsCall c) :
    ∀ e ∈ allEvents k, A.SpellsEvent e := by
  cases k with
  | nil => exact List.forall_mem_nil _
  | cons c r =>
    rw [allCalls, List.forall_mem_append] at h
    rw [allEvents, List.forall_mem_append]
    exact ⟨spells_events c h.1, spells_allEvents r h.2⟩

end

/-! ### Layouts -/

theorem spells_layout {es : List Event} (h : ∀ e ∈ es, A.Spells e.markup) (l : Layout) : A.Spells (l.text es) := by
  induction es generalizing l with
  | nil => exact spells_empty
  | cons e r ih =>
    have hl : A.Spells (l.place e).1 := by
      rcases l.place_lead e with he | ⟨n, he⟩
      · rw [he]
        exact spells_empty
      · rw [he]
        refine spells_ofList.2 fun c hc => A.allowed ?_
        rcases List.mem_cons.1 hc with rfl | hc
        · rfl
        · rw [List.eq_of_mem_replicate hc]
          rfl
    refine spells_append.2 ⟨spells_append.2 ⟨hl, h e (List.mem_cons_self ..)⟩, ?_⟩
    exact ih (fun d hd => h d (List.mem_cons_of_mem e hd)) _

end Alphabet

end XamlDoc
