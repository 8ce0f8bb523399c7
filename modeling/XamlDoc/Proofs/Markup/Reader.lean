import XamlDoc.Markup.Xml.Text
import XamlDoc.Proofs.Markup.Delimiter

/-!
# A reader of XML text

A text is split at markup into events, from which the tree is built up again. The five predefined entities
are decoded, and verbatim content is taken up to its first terminator. Adjacent texts come out as
one, as does adjacent verbatim content, and neither appears if it is empty.
-/

namespace XamlDoc.Markup.Xml

/-! ### Names -/

def inRanges (ranges : List (Nat × Nat)) (c : Char) : Bool :=
  ranges.any fun r => r.1 ≤ c.toNat && c.toNat ≤ r.2

/-- `NameStartChar` of XML 1.0. -/
def isNameStart : Char → Bool :=
  inRanges [(0x3A, 0x3A), (0x41, 0x5A), (0x5F, 0x5F), (0x61, 0x7A), (0xC0, 0xD6), (0xD8, 0xF6),
    (0xF8, 0x2FF), (0x370, 0x37D), (0x37F, 0x1FFF), (0x200C, 0x200D), (0x2070, 0x218F),
    (0x2C00, 0x2FEF), (0x3001, 0xD7FF), (0xF900, 0xFDCF), (0xFDF0, 0xFFFD), (0x10000, 0xEFFFF)]

/-- `NameChar` of XML 1.0. -/
def isNameChar (c : Char) : Bool :=
  isNameStart c || inRanges [(0x2D, 0x2E), (0x30, 0x39), (0xB7, 0xB7), (0x300, 0x36F), (0x203F, 0x2040)] c

def IsName (name : String) : Prop :=
  match name.toList with
  | [] => False
  | c :: r => isNameStart c ∧ ∀ d ∈ r, isNameChar d

instance (name : String) : Decidable (IsName name) :=
  match h : name.toList with
  | [] => isFalse (by simp [IsName, h])
  | c :: r => decidable_of_iff (isNameStart c ∧ r.all isNameChar) (by simp [IsName, h])

def readName? (s : List Char) : Option (String × List Char) :=
  match s.takeWhile isNameChar with
  | [] => none
  | c :: r => if isNameStart c then some (String.ofList (c :: r), s.dropWhile isNameChar) else none

theorem readName?_length {s rest : List Char} {name : String} (h : readName? s = some (name, rest)) :
    rest.length ≤ s.length := by
  simp only [readName?] at h
  split at h
  · cases h
  · split at h
    · cases h
      exact (List.dropWhile_suffix _).length_le
    · cases h

/-- A name is read to its end if no character of a name follows. -/
theorem readName?_append {name : String} (h : IsName name) {c : Char} (hc : isNameChar c = false)
    (rest : List Char) : readName? (name.toList ++ c :: rest) = some (name, c :: rest) := by
  have hn : (c :: rest).takeWhile isNameChar = [] := by simp [hc]
  have hd : (c :: rest).dropWhile isNameChar = c :: rest := by simp [hc]
  rw [IsName] at h
  split at h
  · exact h.elim
  · rename_i a r hl
    have ha : ∀ x ∈ name.toList, isNameChar x := by
      rw [hl]
      intro x hx
      rcases List.mem_cons.1 hx with rfl | hx
      · simp [isNameChar, h.1]
      · exact h.2 x hx
    rw [readName?, List.takeWhile_append_of_pos ha, List.dropWhile_append_of_pos ha, hn, hd,
      List.append_nil, hl]
    simp only [h.1, if_true, ← hl, String.ofList_toList]

/-! ### Character data -/

/-- The character of an entity, from behind its ampersand, and what follows. -/
def readEntity? : List Char → Option (Char × List Char)
  | 'l' :: 't' :: ';' :: r => some ('<', r)
  | 'g' :: 't' :: ';' :: r => some ('>', r)
  | 'a' :: 'm' :: 'p' :: ';' :: r => some ('&', r)
  | 'a' :: 'p' :: 'o' :: 's' :: ';' :: r => some ('\'', r)
  | 'q' :: 'u' :: 'o' :: 't' :: ';' :: r => some ('"', r)
  | _ => none

def readChar? : List Char → Option (Char × List Char)
  | [] => none
  | c :: r => if c = '&' then readEntity? r else if c = '<' then none else some (c, r)

theorem readEntity?_length {s rest : List Char} {c : Char} (h : readEntity? s = some (c, rest)) :
    rest.length < s.length := by
  unfold readEntity? at h
  split at h <;> cases h <;> simp only [List.length_cons] <;> omega

theorem readChar?_length {s rest : List Char} {c : Char} (h : readChar? s = some (c, rest)) :
    rest.length < s.length := by
  cases s with
  | nil => cases h
  | cons d r =>
    rw [readChar?] at h
    split at h
    · exact Nat.lt_succ_of_lt (readEntity?_length h)
    · split at h
      · cases h
      · cases h
        exact Nat.lt_succ_self _

theorem readChar?_escapeChar (c : Char) (rest : List Char) :
    readChar? (escapeChar c ++ rest) = some (c, rest) := by
  cases he : entity? c with
  | none =>
    have hc : c ≠ '&' ∧ c ≠ '<' := by
      constructor <;> rintro rfl <;> cases he
    simp [escapeChar, he, readChar?, hc]
  | some e =>
    unfold entity? at he
    split at he <;> cases he <;> rfl

/-- A value or a text, decoded; `none` if markup begins in it. -/
def decode? (s : List Char) : Option (List Char) :=
  match s with
  | [] => some []
  | c :: r =>
    match _h : readChar? (c :: r) with
    | none => none
    | some (d, rest) => (decode? rest).map (d :: ·)
termination_by s.length
decreasing_by exact readChar?_length _h

theorem decode?_escapeChars (s : List Char) : decode? (escapeChars s) = some s := by
  induction s with
  | nil =>
    rw [escapeChars, List.flatMap_nil, decode?]
  | cons c r ih =>
    have hr : readChar? (escapeChars (c :: r)) = some (c, escapeChars r) := readChar?_escapeChar c _
    rw [decode?.eq_def]
    split
    · rename_i he
      rw [he] at hr
      cases hr
    · rename_i d t he
      rw [he] at hr
      split
      · rename_i hn
        rw [hr] at hn
        cases hn
      · rename_i hn
        rw [hr] at hn
        cases hn
        rw [ih]
        rfl

theorem quote_not_mem_escapeChars (s : List Char) : '"' ∉ escapeChars s := by
  intro h
  obtain ⟨c, -, hc⟩ := List.mem_flatMap.1 h
  unfold escapeChar at hc
  split at hc
  · rename_i e he
    unfold entity? at he
    split at he <;> cases he <;> revert hc <;> decide
  · rename_i he
    obtain rfl := List.mem_singleton.1 hc
    cases he

/-! ### Tags -/

/-- An attribute, from its name on. -/
def readAttribute? (s : List Char) : Option (Attribute × List Char) :=
  match readName? s with
  | some (name, '=' :: '"' :: r) =>
    match before? ['"'] r with
    | some (value, rest) => (decode? value).map fun v => ((name, String.ofList v), rest)
    | none => none
  | _ => none

theorem readAttribute?_length {s rest : List Char} {a : Attribute}
    (h : readAttribute? s = some (a, rest)) : rest.length < s.length := by
  simp only [readAttribute?] at h
  split at h
  · rename_i name r hn
    have hl := readName?_length hn
    split at h
    · rename_i value rest' hb
      obtain ⟨v, -, he⟩ := Option.map_eq_some_iff.1 h
      cases he
      have hr := before?_length (List.cons_ne_nil _ _) hb
      simp only [List.length_cons] at hl
      omega
    · cases h
  · cases h

/-- The attributes of a tag, each after a blank, and what follows them. -/
def readAttributes? (s : List Char) : Option (List Attribute × List Char) :=
  match s with
  | ' ' :: r =>
    match _h : readAttribute? r with
    | none => none
    | some (a, rest) => (readAttributes? rest).map fun p => (a :: p.1, p.2)
  | s => some ([], s)
termination_by s.length
decreasing_by exact Nat.lt_succ_of_lt (readAttribute?_length _h)

theorem readAttributes?_length {s rest : List Char} {attributes : List Attribute}
    (h : readAttributes? s = some (attributes, rest)) : rest.length ≤ s.length := by
  fun_induction readAttributes? s generalizing attributes with
  | case1 r hr => cases h
  | case2 r a rest' hr ih =>
    obtain ⟨p, hp, he⟩ := Option.map_eq_some_iff.1 h
    cases he
    have := readAttribute?_length hr
    have := ih hp
    simp only [List.length_cons]
    omega
  | case3 s hs =>
    cases h
    exact Nat.le_refl _

theorem attributeMarkup_toList (a : Attribute) :
    (attributeMarkup a).toList = ' ' :: (a.1.toList ++ '=' :: '"' :: (escapeChars a.2.toList ++ ['"'])) := by
  simp [attributeMarkup, escape, String.toList_append]

theorem readAttribute?_markup {a : Attribute} (h : IsName a.1) (rest : List Char) :
    readAttribute? (a.1.toList ++ '=' :: '"' :: (escapeChars a.2.toList ++ '"' :: rest)) =
      some (a, rest) := by
  have hb : before? ['"'] (escapeChars a.2.toList ++ '"' :: rest) =
      some (escapeChars a.2.toList, rest) :=
    before?_of_free (List.cons_ne_nil _ _) (free_singleton (quote_not_mem_escapeChars _)) rest
  rw [readAttribute?, readName?_append h (by decide)]
  simp only [hb, decode?_escapeChars, Option.map_some, String.ofList_toList]

theorem readAttributes?_markup {attributes : List Attribute} (h : ∀ a ∈ attributes, IsName a.1)
    {rest : List Char} (hr : rest.head? ≠ some ' ') :
    readAttributes? ((String.join (attributes.map attributeMarkup)).toList ++ rest) =
      some (attributes, rest) := by
  induction attributes with
  | nil =>
    rw [List.map_nil, String.join_nil, String.toList_empty, List.nil_append, readAttributes?]
    rintro r rfl
    exact hr rfl
  | cons a r ih =>
    have ha := readAttribute?_markup (h a (List.mem_cons_self ..))
      ((String.join (r.map attributeMarkup)).toList ++ rest)
    have hn := ih fun b hb => h b (List.mem_cons_of_mem a hb)
    rw [List.map_cons, String.join_cons, String.toList_append, attributeMarkup_toList]
    simp only [List.cons_append, List.append_assoc, List.nil_append]
    rw [readAttributes?]
    split
    · rename_i hx
      rw [ha] at hx
      cases hx
    · rename_i hx
      rw [ha] at hx
      cases hx
      rw [hn]
      rfl

/-! ### Markup -/

def readTag? (s : List Char) : Option (Tag × List Char) :=
  match readName? s with
  | none => none
  | some (name, r) => (readAttributes? r).map fun p => (⟨name, p.1⟩, p.2)

/-- A piece of markup, from behind its opening bracket, and what follows. -/
def readMarkup? : List Char → Option (Event × List Char)
  | '!' :: '-' :: '-' :: r => (before? commentEnd r).map fun p => (.comment (String.ofList p.1), p.2)
  | '!' :: '[' :: 'C' :: 'D' :: 'A' :: 'T' :: 'A' :: '[' :: r =>
    (before? terminator r).map fun p => (.cdata (String.ofList p.1), p.2)
  | '/' :: r =>
    match readName? r with
    | some (name, '>' :: rest) => some (.close name, rest)
    | _ => none
  | s =>
    match readTag? s with
    | some (tag, '>' :: rest) => some (.start tag, rest)
    | some (tag, '/' :: '>' :: rest) => some (.empty tag, rest)
    | _ => none

theorem readTag?_length {s rest : List Char} {tag : Tag} (h : readTag? s = some (tag, rest)) :
    rest.length ≤ s.length := by
  rw [readTag?] at h
  split at h
  · cases h
  · rename_i name r hn
    obtain ⟨p, hp, he⟩ := Option.map_eq_some_iff.1 h
    cases he
    exact Nat.le_trans (readAttributes?_length hp) (readName?_length hn)

theorem readMarkup?_length {s rest : List Char} {e : Event} (h : readMarkup? s = some (e, rest)) :
    rest.length ≤ s.length := by
  unfold readMarkup? at h
  split at h
  · obtain ⟨p, hp, he⟩ := Option.map_eq_some_iff.1 h
    cases he
    have := before?_length (List.cons_ne_nil _ _) hp
    simp only [List.length_cons]
    omega
  · obtain ⟨p, hp, he⟩ := Option.map_eq_some_iff.1 h
    cases he
    have := before?_length (List.cons_ne_nil _ _) hp
    simp only [List.length_cons]
    omega
  · split at h
    · rename_i hn
      cases h
      have := readName?_length hn
      simp only [List.length_cons] at this ⊢
      omega
    · cases h
  · split at h
    · rename_i ht
      cases h
      have := readTag?_length ht
      simp only [List.length_cons] at this
      omega
    · rename_i ht
      cases h
      have := readTag?_length ht
      simp only [List.length_cons] at this
      omega
    · cases h

theorem readTag?_markup {tag : Tag} (h : IsName tag.name ∧ ∀ a ∈ tag.attributes, IsName a.1) {c : Char}
    (hc : isNameChar c = false) (hb : c ≠ ' ') (rest : List Char) :
    readTag? ((tagMarkup tag).toList ++ c :: rest) = some (tag, c :: rest) := by
  have hr : (c :: rest).head? ≠ some ' ' := by simpa using hb
  have ha := readAttributes?_markup h.2 hr
  -- what follows the name is a blank or the character after the tag
  have hn : ∃ d r, isNameChar d = false ∧
      (String.join (tag.attributes.map attributeMarkup)).toList ++ c :: rest = d :: r := by
    cases tag.attributes with
    | nil => exact ⟨c, rest, hc, rfl⟩
    | cons a r =>
      rw [List.map_cons, String.join_cons, String.toList_append, attributeMarkup_toList]
      exact ⟨' ', _, by decide, rfl⟩
  obtain ⟨d, r, hd, he⟩ := hn
  rw [tagMarkup, String.toList_append, List.append_assoc, he, readTag?, readName?_append h.1 hd, ← he]
  simp only [ha, Option.map_some]

/-- An event that the reader tells from what is around it. -/
def Event.Legible : Event → Prop
  | .start tag | .empty tag => IsName tag.name ∧ ∀ a ∈ tag.attributes, IsName a.1
  | .close name => IsName name
  | .text _ => True
  | .cdata content => Free terminator content.toList
  | .comment content => Free commentEnd content.toList

/-- Neither a comment nor a section nor an end tag begins like a name. -/
theorem readMarkup?_of_name {name : String} (h : IsName name) (s : List Char) :
    readMarkup? (name.toList ++ s) =
      match readTag? (name.toList ++ s) with
      | some (tag, '>' :: rest) => some (.start tag, rest)
      | some (tag, '/' :: '>' :: rest) => some (.empty tag, rest)
      | _ => none := by
  rw [IsName] at h
  split at h
  · exact h.elim
  · rename_i c r hl
    rw [hl, List.cons_append]
    have hc : c ≠ '!' ∧ c ≠ '/' := by
      constructor <;> rintro rfl <;> exact absurd h.1 (by decide)
    rw [readMarkup?]
    · exact fun t ht => hc.1 (List.cons.inj ht).1
    · exact fun t ht => hc.1 (List.cons.inj ht).1
    · exact fun t ht => hc.2 (List.cons.inj ht).1

theorem readMarkup?_markup {e : Event} (h : e.Legible) (ht : ∀ t, e ≠ .text t) (rest : List Char) :
    ∃ r, e.markup.toList ++ rest = '<' :: r ∧ readMarkup? r = some (e, rest) := by
  cases e with
  | start tag =>
    refine ⟨(tagMarkup tag).toList ++ '>' :: rest, by simp [Event.markup, String.toList_append], ?_⟩
    have hr := readTag?_markup (c := '>') h (by decide) (by decide) rest
    rw [tagMarkup, String.toList_append, List.append_assoc] at hr ⊢
    simp only [readMarkup?_of_name h.1, hr]
  | empty tag =>
    refine ⟨(tagMarkup tag).toList ++ '/' :: '>' :: rest, by simp [Event.markup, String.toList_append], ?_⟩
    have hr := readTag?_markup (c := '/') h (by decide) (by decide) ('>' :: rest)
    rw [tagMarkup, String.toList_append, List.append_assoc] at hr ⊢
    simp only [readMarkup?_of_name h.1, hr]
  | close name =>
    refine ⟨'/' :: (name.toList ++ '>' :: rest), by simp [Event.markup, String.toList_append], ?_⟩
    simp only [readMarkup?, readName?_append h (c := '>') (by decide)]
  | text t => exact absurd rfl (ht t)
  | cdata t =>
    refine ⟨'!' :: '[' :: 'C' :: 'D' :: 'A' :: 'T' :: 'A' :: '[' :: (t.toList ++ (terminator ++ rest)),
      by simp [Event.markup, String.toList_append, terminator], ?_⟩
    have hb : before? terminator (t.toList ++ (terminator ++ rest)) = some (t.toList, rest) :=
      before?_of_free (List.cons_ne_nil _ _) h rest
    simp only [readMarkup?, hb, Option.map_some, String.ofList_toList]
  | comment t =>
    refine ⟨'!' :: '-' :: '-' :: (t.toList ++ (commentEnd ++ rest)),
      by simp [Event.markup, String.toList_append, commentEnd], ?_⟩
    have hb : before? commentEnd (t.toList ++ (commentEnd ++ rest)) = some (t.toList, rest) :=
      before?_of_free (List.cons_ne_nil _ _) h rest
    simp only [readMarkup?, hb, Option.map_some, String.ofList_toList]

end XamlDoc.Markup.Xml
