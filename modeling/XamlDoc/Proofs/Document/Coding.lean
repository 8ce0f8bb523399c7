import XamlDoc.Document.Decoding
import XamlDoc.Proofs.Data.Coding
import XamlDoc.Proofs.Document.Induction

/-!
# Documents read back

What is stored for a document is read back as the same document. A node is read with as many levels as its
stored form is deep; each of its children is stored at least one level deeper.
-/

namespace XamlDoc

open Decoder
open Data (record)

attribute [local simp] Fields.of? Fields.once Fields.required Fields.withDefault Fields.optional List.lookup_cons

/-! ### Names and records without nodes -/

theorem Alignment.decode_name (a : Alignment) : Alignment.decode (.string a.name) = some a := by
  cases a <;> rfl

theorem BlockAlignment.decode_name (a : BlockAlignment) : BlockAlignment.decode (.string a.name) = some a := by
  cases a <;> rfl

theorem Emoji.decode_encode (e : Emoji) : Emoji.decode e.encode = some e := by
  simp [Emoji.decode, Emoji.encode]

theorem MediaItem.decode_encode (m : MediaItem) : MediaItem.decode m.encode = some m := by
  simp [MediaItem.decode, MediaItem.encode]

theorem CodeBlock.decode_encode (b : CodeBlock) : CodeBlock.decode b.encode = some b := by
  simp [CodeBlock.decode, CodeBlock.encode]

/-! ### Directories -/

namespace Directory

variable {α : Type}

theorem insertEntry_of_forall_lt {key : String} {value : α} {l : List (String × α)}
    (h : ∀ e ∈ l, e.1 < key) : insertEntry key value l = l ++ [(key, value)] := by
  induction l with
  | nil => rfl
  | cons e r ih =>
    obtain ⟨k, v⟩ := e
    have hk : k < key := h (k, v) (List.mem_cons_self ..)
    have hlt : ¬ key < k := String.lt_asymm hk
    have hne : key ≠ k := fun he => String.lt_irrefl k (he ▸ hk)
    rw [insertEntry, if_neg hlt, if_neg hne, ih fun e he => h e (List.mem_cons_of_mem _ he)]
    rfl

theorem ofList_entries (d : Directory α) : ofList d.entries = d := by
  -- the entries that are still to come have greater keys than those that are there
  have foldl (rest : List (String × α)) (c : Directory α)
      (h : (c.entries ++ rest).Pairwise fun a b => a.1 < b.1) :
      (rest.foldl (fun d e => d.insert e.1 e.2) c).entries = c.entries ++ rest := by
    induction rest generalizing c with
    | nil => simp
    | cons e r ih =>
      have hlt : ∀ b ∈ c.entries, b.1 < e.1 := fun b hb =>
        (List.pairwise_append.1 h).2.2 b hb e (List.mem_cons_self ..)
      have hc : (c.insert e.1 e.2).entries = c.entries ++ [e] := insertEntry_of_forall_lt hlt
      rw [List.foldl_cons, ih, hc]
      · simp
      · rw [hc]
        simpa using h
  have he : (ofList d.entries).entries = d.entries := foldl d.entries empty d.sorted
  cases d
  cases he' : ofList _
  rw [he'] at he
  cases he
  rfl

theorem decode_encode {decode : Decoder α} {encode : α → Data} (h : ∀ a, decode (encode a) = some a)
    (d : Directory α) : Directory.decode decode (d.encode encode) = some d := by
  unfold Directory.decode Directory.encode
  rw [mapping_map fun e _ => h e.2, Option.map_some, ofList_entries]

end Directory

theorem Metadata.decode_encode (m : Metadata) : Metadata.decode m.encode = some m := by
  have values := Directory.decode_encode list_string m.values
  simp [Metadata.decode, Metadata.encode, values]

/-! ### Nodes as records -/

def NumberedItem.encode (i : NumberedItem Node) : Data :=
  record [("number", .ofOption (.natural ·.toNat) i.number), ("child", i.child.encode)]

def TaskItem.encode (i : TaskItem Node) : Data :=
  record [("checked", .boolean i.checked), ("child", i.child.encode)]

def DefinitionGroup.encode (g : DefinitionGroup Node) : Data :=
  record [("terms", .list (g.terms.map Node.encode)), ("descriptions", .list (g.descriptions.map Node.encode))]

def Row.encode (row : Row Node) : Data := .list (List.map (.ofOption Cell.encode) row)

namespace Node

theorem encodeAll_eq (c : List Node) : encodeAll c = c.map encode := by
  induction c with
  | nil => rfl
  | cons n r ih => rw [encodeAll, ih, List.map_cons]

theorem encodeBullets_eq (items : List Node) :
    encodeBullets items = items.map fun n => record [("child", n.encode)] := by
  induction items with
  | nil => rfl
  | cons n r ih => rw [encodeBullets, ih, List.map_cons]

theorem encodeNumbered_eq (items : List (NumberedItem Node)) :
    encodeNumbered items = items.map NumberedItem.encode := by
  induction items with
  | nil => rfl
  | cons i r ih => rw [encodeNumbered, ih]; rfl

theorem encodeTasks_eq (items : List (TaskItem Node)) : encodeTasks items = items.map TaskItem.encode := by
  induction items with
  | nil => rfl
  | cons i r ih => rw [encodeTasks, ih]; rfl

theorem encodeGroups_eq (groups : List (DefinitionGroup Node)) :
    encodeGroups groups = groups.map DefinitionGroup.encode := by
  induction groups with
  | nil => rfl
  | cons g r ih => rw [encodeGroups, ih, encodeAll_eq, encodeAll_eq]; rfl

theorem encodeRow_eq (row : Row Node) : encodeRow row = List.map (.ofOption Cell.encode) row := by
  induction row with
  | nil => rfl
  | cons cell? r ih => cases cell? <;> rw [encodeRow, ih] <;> rfl

theorem encodeRows_eq (rows : List (Row Node)) : encodeRows rows = rows.map Row.encode := by
  induction rows with
  | nil => rfl
  | cons row r ih => rw [encodeRows, ih, encodeRow_eq]; rfl

/-! ### Depth of children -/

theorem depth_lt_encode {n m : Node} (h : m ∈ n.children) : m.encode.depth < n.encode.depth := by
  have all {c : List Node} (hm : m ∈ c) : m.encode.depth < (Data.list (encodeAll c)).depth := by
    rw [encodeAll_eq]
    exact Data.depth_lt_list (List.mem_map_of_mem hm)
  have row {rows : List (Row Node)} (hm : m ∈ cellContents rows) :
      m.encode.depth < (Data.list (encodeRows rows)).depth := by
    obtain ⟨cells, hr, hm⟩ := List.mem_flatMap.1 hm
    obtain ⟨cell?, hc, hm⟩ := List.mem_filterMap.1 hm
    obtain ⟨cell, rfl, rfl⟩ := Option.map_eq_some_iff.1 hm
    have content : cell.content.encode.depth < cell.encode.depth :=
      Data.depth_lt_record (List.mem_cons_self ..)
    have inRow : cell.encode.depth < (Row.encode cells).depth := Data.depth_lt_list (List.mem_map_of_mem hc)
    have inRows : (Row.encode cells).depth < (Data.list (encodeRows rows)).depth := by
      rw [encodeRows_eq]
      exact Data.depth_lt_list (List.mem_map_of_mem hr)
    omega
  cases n with
  | strong c | emphasize c | delete c | insert c | underline c | superscript c | subscript c | paragraph c
  | blockQuote c | insertBlocks c | deleteBlocks c | nestedBlock c | htmlBlock c | link _ c
  | linkReference _ c | abbreviation _ c | header _ c | aligned _ c | multimedia _ c _
  | multimediaReference _ c _ =>
    have hc := all h
    simp only [encode, tagged, children, Data.depth, Data.depthFields] at hc ⊢
    omega
  | singleChild c | standalone c =>
    obtain rfl := List.mem_singleton.1 h
    simp only [encode, tagged, Data.depth, Data.depthFields]
    omega
  -- in a list of items the child is below its item, and the item below the list
  | bulletList items =>
    have item : m.encode.depth < (record [("child", m.encode)]).depth :=
      Data.depth_lt_record (List.mem_cons_self ..)
    have inItems : (record [("child", m.encode)]).depth < (Data.list (encodeBullets items)).depth := by
      rw [encodeBullets_eq]
      exact Data.depth_lt_list (List.mem_map_of_mem h)
    simp only [encode, tagged, Data.depth, Data.depthFields] at item inItems ⊢
    omega
  | numberedList items =>
    obtain ⟨i, hi, rfl⟩ := List.mem_map.1 h
    have item : i.child.encode.depth < i.encode.depth :=
      Data.depth_lt_record (List.mem_cons_of_mem _ (List.mem_singleton_self _))
    have inItems : i.encode.depth < (Data.list (encodeNumbered items)).depth := by
      rw [encodeNumbered_eq]
      exact Data.depth_lt_list (List.mem_map_of_mem hi)
    simp only [encode, tagged, Data.depth, Data.depthFields] at inItems ⊢
    omega
  | taskList items =>
    obtain ⟨i, hi, rfl⟩ := List.mem_map.1 h
    have item : i.child.encode.depth < i.encode.depth :=
      Data.depth_lt_record (List.mem_cons_of_mem _ (List.mem_singleton_self _))
    have inItems : i.encode.depth < (Data.list (encodeTasks items)).depth := by
      rw [encodeTasks_eq]
      exact Data.depth_lt_list (List.mem_map_of_mem hi)
    simp only [encode, tagged, Data.depth, Data.depthFields] at inItems ⊢
    omega
  | definitionList groups =>
    obtain ⟨g, hg, hm⟩ := List.mem_flatMap.1 h
    have group : m.encode.depth < g.encode.depth := by
      have hm := (List.mem_append.1 hm).imp all all
      unfold DefinitionGroup.encode
      simp only [encodeAll_eq, Data.depth, Data.depthFields] at hm ⊢
      omega
    have inGroups : g.encode.depth < (Data.list (encodeGroups groups)).depth := by
      rw [encodeGroups_eq]
      exact Data.depth_lt_list (List.mem_map_of_mem hg)
    simp only [encode, tagged, Data.depth, Data.depthFields] at inGroups ⊢
    omega
  | table t =>
    obtain ⟨columns, alignments, headers, rows, caption, id⟩ := t
    have hm : m ∈ cellContents headers ++ cellContents rows := by
      unfold cellContents
      rw [← List.flatMap_append]
      exact h
    have hm := (List.mem_append.1 hm).imp row row
    simp only [encode, tagged, Data.depth, Data.depthFields] at hm ⊢
    omega
  | _ => cases h

/-! ### Nodes -/

section Step

variable {decode : Decoder Node}

theorem list_encodeAll {c : List Node} (h : ∀ m ∈ c, decode m.encode = some m) :
    list decode (.list (encodeAll c)) = some c := by
  rw [encodeAll_eq]
  exact list_map h

theorem list_encodeBullets {items : List Node} (h : ∀ m ∈ items, decode m.encode = some m) :
    list (bulletItem decode) (.list (encodeBullets items)) = some items := by
  rw [encodeBullets_eq]
  refine list_map fun n hn => ?_
  simp [bulletItem, h n hn]

theorem list_encodeNumbered {items : List (NumberedItem Node)}
    (h : ∀ i ∈ items, decode i.child.encode = some i.child) :
    list (NumberedItem.decode decode) (.list (encodeNumbered items)) = some items := by
  rw [encodeNumbered_eq]
  refine list_map fun i hi => ?_
  simp [NumberedItem.decode, NumberedItem.encode, h i hi]

theorem list_encodeTasks {items : List (TaskItem Node)}
    (h : ∀ i ∈ items, decode i.child.encode = some i.child) :
    list (TaskItem.decode decode) (.list (encodeTasks items)) = some items := by
  rw [encodeTasks_eq]
  refine list_map fun i hi => ?_
  simp [TaskItem.decode, TaskItem.encode, h i hi]

theorem list_encodeGroups {groups : List (DefinitionGroup Node)}
    (h : ∀ m ∈ (definitionList groups).children, decode m.encode = some m) :
    list (DefinitionGroup.decode decode) (.list (encodeGroups groups)) = some groups := by
  rw [encodeGroups_eq]
  refine list_map fun g hg => ?_
  have terms := list_encodeAll fun m hm => h m (mem_children_terms hg hm)
  have descriptions := list_encodeAll fun m hm => h m (mem_children_descriptions hg hm)
  rw [encodeAll_eq] at terms descriptions
  simp [DefinitionGroup.decode, DefinitionGroup.encode, terms, descriptions]

theorem list_encodeRows {rows : List (Row Node)} (h : ∀ m ∈ cellContents rows, decode m.encode = some m) :
    list (Row.decode decode) (.list (encodeRows rows)) = some rows := by
  rw [encodeRows_eq]
  refine list_map fun row hr => list_map fun cell? hc => nullable_ofOption ?_ fun _ => nofun
  rintro cell rfl
  have content := h cell.content (mem_cellContents hr hc)
  have alignment : nullable Alignment.decode (.ofOption (.string ·.name) cell.alignment) = some cell.alignment :=
    nullable_ofOption (fun a _ => a.decode_name) fun _ => nofun
  simp [Cell.decode, Cell.encode, content, alignment]

/-! ### Contents of nodes -/

variable {c : List Node} (h : ∀ m ∈ c, decode m.encode = some m)
include h

theorem decodeLink_record (url : String) :
    decodeLink decode (record [("url", .string url), ("children", .list (encodeAll c))]) = some (link url c) := by
  simp [decodeLink, contentFields?, list_encodeAll h]

theorem decodeLinkReference_record (label : String) :
    decodeLinkReference decode (record [("label", .string label), ("children", .list (encodeAll c))]) =
      some (linkReference label c) := by
  simp [decodeLinkReference, contentFields?, list_encodeAll h]

theorem decodeAbbreviation_record (title : String) :
    decodeAbbreviation decode (record [("title", .string title), ("children", .list (encodeAll c))]) =
      some (abbreviation title c) := by
  simp [decodeAbbreviation, contentFields?, list_encodeAll h]

theorem decodeHeader_record (level : UInt8) :
    decodeHeader decode (record [("level", .natural level.toNat), ("children", .list (encodeAll c))]) =
      some (header level c) := by
  simp [decodeHeader, contentFields?, list_encodeAll h]

theorem decodeAligned_record (a : BlockAlignment) :
    decodeAligned decode (record [("alignment", .string a.name), ("children", .list (encodeAll c))]) =
      some (aligned a c) := by
  simp [decodeAligned, contentFields?, a.decode_name, list_encodeAll h]

theorem decodeMultimedia_record (items : List MediaItem) (alone : Bool) :
    decodeMultimedia decode (record [("items", .list (items.map MediaItem.encode)),
      ("children", .list (encodeAll c)), ("alone_in_paragraph", .boolean alone)]) =
        some (multimedia items c alone) := by
  have hi : list MediaItem.decode (.list (items.map MediaItem.encode)) = some items :=
    list_map fun m _ => m.decode_encode
  simp [decodeMultimedia, hi, list_encodeAll h]

theorem decodeMultimediaReference_record (label : String) (alone : Bool) :
    decodeMultimediaReference decode (record [("label", .string label), ("children", .list (encodeAll c)),
      ("alone_in_paragraph", .boolean alone)]) = some (multimediaReference label c alone) := by
  simp [decodeMultimediaReference, contentFields?, list_encodeAll h]

omit h

theorem decodeTable_record {t : Table Node} (h : ∀ m ∈ cellContents t.allRows, decode m.encode = some m) :
    Table.decode decode (record [("columns", .natural t.columns.toNat),
      ("column_alignments", .list (t.columnAlignments.map fun a => .string a.name)),
      ("headers", .list (encodeRows t.headers)), ("rows", .list (encodeRows t.rows)),
      ("caption", .ofOption .string t.caption), ("id", .ofOption .string t.id)]) = some t := by
  have alignments : list Alignment.decode (.list (t.columnAlignments.map fun a => .string a.name))
      = some t.columnAlignments := list_map fun a _ => a.decode_name
  have content : ∀ m ∈ cellContents t.headers ++ cellContents t.rows, decode m.encode = some m := by
    unfold cellContents
    rw [← List.flatMap_append]
    exact h
  have headers := list_encodeRows fun m hm => content m (List.mem_append_left _ hm)
  have rows := list_encodeRows fun m hm => content m (List.mem_append_right _ hm)
  simp [Table.decode, alignments, headers, rows]

end Step

/-- A node is read with one level more than all its children. -/
theorem decodeTo_succ_encode {fuel : Nat} {n : Node}
    (h : ∀ m ∈ n.children, decodeTo fuel m.encode = some m) : decodeTo (fuel + 1) n.encode = some n := by
  cases n with
  | strong c | emphasize c | delete c | insert c | underline c | superscript c | subscript c | paragraph c
  | blockQuote c | insertBlocks c | deleteBlocks c | nestedBlock c | htmlBlock c =>
    exact congrArg (Option.map _) (list_encodeAll h)
  | link url c => exact decodeLink_record h url
  | linkReference label c => exact decodeLinkReference_record h label
  | emoji e => exact congrArg (Option.map emoji) e.decode_encode
  | htmlEntityUnicode code => exact congrArg (Option.map htmlEntityUnicode) (word32_natural code)
  | multimedia items c alone => exact decodeMultimedia_record h items alone
  | multimediaReference label c alone => exact decodeMultimediaReference_record h label alone
  | abbreviation title c => exact decodeAbbreviation_record h title
  | header level c => exact decodeHeader_record h level
  | aligned a c => exact decodeAligned_record h a
  | bulletList items => exact congrArg (Option.map bulletList) (list_encodeBullets h)
  | numberedList items =>
    have hi := list_encodeNumbered fun i hi => h i.child (mem_children_numberedList hi)
    exact congrArg (Option.map numberedList) hi
  | taskList items =>
    have hi := list_encodeTasks fun i hi => h i.child (mem_children_taskList hi)
    exact congrArg (Option.map taskList) hi
  | definitionList groups => exact congrArg (Option.map definitionList) (list_encodeGroups h)
  | table t => exact congrArg (Option.map table) (decodeTable_record h)
  | codeBlock b => exact congrArg (Option.map codeBlock) b.decode_encode
  | singleChild c | standalone c => exact congrArg (Option.map _) (h c (List.mem_singleton_self c))
  | commentBlock lines => exact congrArg (Option.map commentBlock) (list_string lines)
  | _ => rfl

theorem decodeTo_encode (n : Node) :
    ∀ {fuel : Nat}, n.encode.depth ≤ fuel → decodeTo fuel n.encode = some n := by
  -- for all levels at once: each child is read with one level less
  induction n using induction with
  | step n ih =>
    intro fuel h
    obtain _ | fuel := fuel
    · have := n.encode.depth_pos
      omega
    · refine decodeTo_succ_encode fun m hm => ih m hm ?_
      have := depth_lt_encode hm
      omega

theorem decode_encode (n : Node) : decode n.encode = some n := n.decodeTo_encode (Nat.le_refl _)

end Node

/-! ### Documents -/

theorem Footnote.decode_encode (f : Footnote) : Footnote.decode f.encode = some f := by
  have content := Node.list_encodeAll fun n (_ : n ∈ f.content) => n.decode_encode
  simp [Footnote.decode, Footnote.encode, content]

theorem Footnotes.decode_encode (t : Footnotes) : Footnotes.decode t.encode = some t := by
  have entries := list_map fun f (_ : f ∈ t.entries) => f.decode_encode
  unfold Footnotes.decode Footnotes.encode
  rw [entries, Option.map_some]

namespace Document

theorem encode_ne_null : ∀ d : Document, d.encode ≠ .null
  | ⟨_, _, _, none, _⟩ => nofun
  | ⟨_, _, _, some _, _⟩ => nofun

/-- The detail document is stored less deep than the whole. -/
theorem decodeTo_encode :
    ∀ (d : Document) {fuel : Nat}, d.encode.depth ≤ fuel → decodeTo fuel d.encode = some d
  | d, 0, h => by
    have := d.encode.depth_pos
    omega
  | ⟨nodes, footnotes, references, none, metadata⟩, fuel + 1, _ => by
    have hn := Node.list_encodeAll fun n (_ : n ∈ nodes) => n.decode_encode
    have hr := Directory.decode_encode MediaItem.decode_encode references
    simp [decodeTo, encode, nullable, hn, hr, footnotes.decode_encode, metadata.decode_encode]
  | ⟨nodes, footnotes, references, some detail, metadata⟩, fuel + 1, h => by
    have hn := Node.list_encodeAll fun n (_ : n ∈ nodes) => n.decode_encode
    have hr := Directory.decode_encode MediaItem.decode_encode references
    have hlt : detail.encode.depth < (encode ⟨nodes, footnotes, references, some detail, metadata⟩).depth := by
      simp only [encode, Data.depth, Data.depthFields]
      omega
    have hd : decodeTo fuel detail.encode = some detail := detail.decodeTo_encode (by omega)
    simp [decodeTo, encode, nullable_of_ne_null detail.encode_ne_null, hn, hr, hd, footnotes.decode_encode,
      metadata.decode_encode]

/-- Storing loses nothing: a document is read back from its stored form, and what is read from any data is read
again from the form in which it is then stored. -/
theorem decode_encode_read : (∀ d : Document, decode d.encode = some d) ∧
    ∀ v : Data, ((decode v).bind fun d => decode d.encode) = decode v := by
  have readBack (d : Document) : decode d.encode = some d := d.decodeTo_encode (Nat.le_refl _)
  refine ⟨readBack, fun v => ?_⟩
  cases decode v with
  | none => rfl
  | some d => exact readBack d

-- what is left out is filled in, and stored from then on
example : (decode (record [])).map encode = some (ofNodes []).encode := rfl

end Document

end XamlDoc
