import XamlDoc.Proofs.Html.WellFormed
import XamlDoc.Text.Scan

/-!
# A reader of HTML text

What is seen of HTML: the character data, in which an entity is the character that it stands for, and a newline for
every break. Of all other tags nothing is seen, whatever is in their attributes, because a tag ends at its first
`>` and values hold that character as an entity only.
-/

namespace XamlDoc.Html

open Text (digitsValue hexDigit?)

/-! ### The reader -/

def charOfDigits? (base : Nat) (digits : List Char) : Option Char :=
  let n := digitsValue base digits
  if !digits.isEmpty && digits.all (fun c => (hexDigit? c).any (· < base)) && n.isValidChar then some (Char.ofNat n)
  else none

/-- The character of an entity, by what stands between its ampersand and its semicolon. -/
def entityChar? : List Char → Option Char
  | '#' :: 'x' :: digits | '#' :: 'X' :: digits => charOfDigits? 16 digits
  | '#' :: digits => charOfDigits? 10 digits
  | name => namedChar? (String.ofList name)

/-- What is seen of a tag, by what stands between its brackets. -/
def seenTag (s : List Char) : List Char :=
  if s.takeWhile (fun c => c != ' ' && c != '/') = "br".toList then ['\n'] else []

/-- Where the reader is, with what it has read of a tag or an entity. -/
inductive Place where
  | data
  | tag (before : List Char)
  | entity (before : List Char)

/-- What is seen of HTML text. An entity that is not known, or does not end, is seen as it stands. -/
def seen : Place → List Char → List Char
  | .data, [] | .tag _, [] => []
  | .entity before, [] => '&' :: before
  | .data, '<' :: r => seen (.tag []) r
  | .data, '&' :: r => seen (.entity []) r
  | .data, c :: r => c :: seen .data r
  | .tag before, '>' :: r => seenTag before ++ seen .data r
  | .tag before, c :: r => seen (.tag (before ++ [c])) r
  | .entity before, ';' :: r =>
    match entityChar? before with
    | some c => c :: seen .data r
    | none => '&' :: before ++ ';' :: seen .data r
  | .entity before, c :: r => seen (.entity (before ++ [c])) r

/-- The text that a reader sees in HTML. -/
def readText (html : String) : String := String.ofList (seen .data html.toList)

/-! ### Text and tags -/

@[simp] theorem seen_lt (rest : List Char) : seen .data ('<' :: rest) = seen (.tag []) rest := rfl

theorem seen_char {c : Char} (hl : c ≠ '<') (ha : c ≠ '&') (rest : List Char) :
    seen .data (c :: rest) = c :: seen .data rest := by
  rw [seen]
  · exact fun h => hl h
  · exact fun h => ha h

theorem seen_escapeChar (c : Char) (rest : List Char) :
    seen .data (escapeChar c ++ rest) = c :: seen .data rest := by
  rw [escapeChar]
  unfold entity?
  split
  · rename_i e he
    split at he <;> cases he <;> rfl
  · rename_i he
    refine seen_char ?_ ?_ rest <;> rintro rfl <;> cases he

theorem seen_escape (s : String) (rest : List Char) :
    seen .data ((escape s).toList ++ rest) = s.toList ++ seen .data rest := by
  rw [escape, String.toList_ofList]
  induction s.toList with
  | nil => rfl
  | cons c r ih =>
    have step : escapeChars (c :: r) = escapeChar c ++ escapeChars r := List.flatMap_cons ..
    rw [step, List.append_assoc, seen_escapeChar, ih, List.cons_append]

theorem seen_tag {s : List Char} (hs : '>' ∉ s) (before rest : List Char) :
    seen (.tag before) (s ++ '>' :: rest) = seenTag (before ++ s) ++ seen .data rest := by
  induction s generalizing before with
  | nil => rw [List.append_nil, List.nil_append, seen]
  | cons c r ih =>
    have hc : c ≠ '>' := fun h => hs (h ▸ List.mem_cons_self ..)
    rw [List.cons_append, seen, ih (fun h => hs (List.mem_cons_of_mem c h)), List.append_assoc, List.singleton_append]
    exact fun h => hc h

theorem notMem_escape (s : String) : '>' ∉ (escape s).toList := by
  rw [escape, String.toList_ofList]
  intro h
  obtain ⟨c, -, hc⟩ := List.mem_flatMap.1 h
  rw [escapeChar] at hc
  unfold entity? at hc
  split at hc
  · rename_i e he
    split at he <;> cases he <;> revert hc <;> decide
  · rename_i he
    obtain rfl := List.mem_singleton.1 hc
    cases he

theorem notMem_attributesMarkup (a : Attributes) : '>' ∉ (attributesMarkup a).toList := by
  induction a with
  | nil => exact List.not_mem_nil
  | cons e r ih =>
    obtain ⟨name, value⟩ := e
    have hn : '>' ∉ name.text.toList := by cases name <;> decide
    have hv := notMem_escape value
    simp [attributesMarkup, hn, hv, ih]

/-- The name of a tag ends where its attributes begin. -/
theorem takeWhile_name {name : List Char} (hn : (name.all fun c => c != ' ' && c != '/') = true) (a : Attributes)
    {rest : List Char} (hr : rest = [] ∨ rest = ['/']) :
    (name ++ (attributesMarkup a).toList ++ rest).takeWhile (fun c => c != ' ' && c != '/') = name := by
  have ha : ((attributesMarkup a).toList ++ rest).takeWhile (fun c => c != ' ' && c != '/') = [] := by
    cases a with
    | nil => rcases hr with rfl | rfl <;> rfl
    | cons e r => simp [attributesMarkup]
  rw [List.append_assoc, List.takeWhile_append_of_pos (List.all_eq_true.1 hn), ha, List.append_nil]

theorem seen_start (tag : Tag) (a : Attributes) (rest : List Char) :
    seen .data ("<".toList ++ tag.name.toList ++ (attributesMarkup a).toList ++ ">".toList ++ rest) =
      seen .data rest := by
  have hn : '>' ∉ tag.name.toList := by cases tag <;> decide
  have hs : '>' ∉ tag.name.toList ++ (attributesMarkup a).toList := by simp [hn, notMem_attributesMarkup a]
  have hb : seenTag (tag.name.toList ++ (attributesMarkup a).toList) = [] := by
    have hw : (tag.name.toList.all fun c => c != ' ' && c != '/') = true := by cases tag <;> decide
    have ht := takeWhile_name hw a (Or.inl rfl)
    rw [List.append_nil] at ht
    rw [seenTag, ht]
    cases tag <;> rfl
  have h := seen_tag hs [] rest
  rw [List.nil_append, hb, List.nil_append] at h
  simpa using h

theorem seen_end (tag : Tag) (rest : List Char) :
    seen .data ("</".toList ++ tag.name.toList ++ ">".toList ++ rest) = seen .data rest := by
  have hs : '>' ∉ '/' :: tag.name.toList := by cases tag <;> decide
  have h := seen_tag hs [] rest
  have hb : seenTag ('/' :: tag.name.toList) = [] := rfl
  rw [List.nil_append, hb, List.nil_append] at h
  simpa using h

def VoidTag.shown : VoidTag → String
  | .br => "\n"
  | .hr | .img => ""

theorem seen_void (tag : VoidTag) (a : Attributes) (rest : List Char) :
    seen .data ("<".toList ++ tag.name.toList ++ (attributesMarkup a).toList ++ "/>".toList ++ rest) =
      tag.shown.toList ++ seen .data rest := by
  have hn : '>' ∉ tag.name.toList := by cases tag <;> decide
  have hs : '>' ∉ tag.name.toList ++ (attributesMarkup a).toList ++ ['/'] := by
    simp [hn, notMem_attributesMarkup a]
  have hb : seenTag (tag.name.toList ++ (attributesMarkup a).toList ++ ['/']) = tag.shown.toList := by
    have hw : (tag.name.toList.all fun c => c != ' ' && c != '/') = true := by cases tag <;> decide
    rw [seenTag, takeWhile_name hw a (Or.inr rfl)]
    cases tag <;> rfl
  have h := seen_tag hs [] rest
  rw [List.nil_append, hb] at h
  simpa using h

/-! ### Fragments -/

mutual

/-- The text of a fragment as it is shown. -/
def Fragment.shown : Fragment → String
  | .text content => content
  | .verbatim _ | .comment _ => ""
  | .element _ _ children => shownAll children
  | .void tag _ => tag.shown

def shownAll : List Fragment → String
  | [] => ""
  | f :: r => f.shown ++ shownAll r

end

theorem shownAll_append (a b : List Fragment) : shownAll (a ++ b) = shownAll a ++ shownAll b := by
  induction a with
  | nil => exact (String.empty_append ..).symm
  | cons f r ih => rw [List.cons_append, shownAll, shownAll, ih, String.append_assoc]

/-- In the markup of escaped fragments, their text is seen. -/
theorem seen_markupAll : ∀ {l : List Fragment}, AllEscaped l → ∀ rest : List Char,
    seen .data ((markupAll l).toList ++ rest) = (shownAll l).toList ++ seen .data rest
  | [], _, _ => rfl
  | .text content :: r, h, rest => by
    have hr := seen_markupAll h.2 rest
    simp [markupAll, Fragment.markup, shownAll, Fragment.shown, seen_escape, hr]
  | .element tag attributes children :: r, h, rest => by
    let tail := "</".toList ++ tag.name.toList ++ ">".toList ++ ((markupAll r).toList ++ rest)
    have hs := seen_start tag attributes ((markupAll children).toList ++ tail)
    rw [seen_markupAll h.1 tail, seen_end, seen_markupAll h.2 rest] at hs
    simpa [markupAll, Fragment.markup, shownAll, Fragment.shown, tail] using hs
  | .void tag attributes :: r, h, rest => by
    have hv := seen_void tag attributes ((markupAll r).toList ++ rest)
    rw [seen_markupAll h.2 rest] at hv
    simpa [markupAll, Fragment.markup, shownAll, Fragment.shown] using hv

theorem readText_markupAll {l : List Fragment} (h : AllEscaped l) : readText (markupAll l) = shownAll l := by
  have hs := seen_markupAll h []
  rw [List.append_nil, seen, List.append_nil] at hs
  rw [readText, hs, String.ofList_toList]

end XamlDoc.Html
