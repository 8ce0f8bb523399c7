import XamlDoc.Proofs.Command.Rendering
import XamlDoc.Proofs.Config.Resolution
import XamlDoc.Proofs.Files.Put

/-!
# Runs that do all or nothing

A command that fails has changed no file. One that renders changes the output file alone: once that is made, nothing
can fail any more, since the configuration that was loaded has a profile and a rendering without scripts comes to its
end. But the process may be ended by a document that the memory is too small for, and leaves the beginning of the text
in the output file then.
-/

namespace XamlDoc

/-! ### Profiles of what was loaded -/

theorem Config.profile_of_load {c : Config} {path? : Option String} {choices : Choices} {w : Workspace}
    (h : ((load path? choices).run w).1 = .ok c) : ∃ p, c.profile = .ok p := by
  rw [load, Access.run_bind] at h
  cases hs : ((stored path?).run w).1 with
  | error e =>
    rw [hs] at h
    cases h
  | ok d =>
    rw [hs] at h
    cases h
    exact profile_of_validate (validate_stored hs) choices

/-! ### Files -/

/-- The path leads to a file with these bytes in the second workspace, which is otherwise like the first. -/
structure Replaced (w w' : Workspace) (path : String) (bytes : List UInt8) : Prop where
  cwd : w'.cwd = w.cwd
  input : w'.input = w.input
  read : w'.read? (.given path) = some bytes
  others : ∃ target, w.tree.target? w.cwd path = some target ∧
    w'.tree.entry? target = some (.file bytes) ∧
    ∀ other, other ≠ target → w'.tree.entry? other = w.tree.entry? other

namespace Workspace

variable {w : Workspace} {path : String} {target : List String}

theorem store_eq (h : w.tree.target? w.cwd path = some target) (bytes : List UInt8) :
    w.store path bytes = (true, { w with tree := w.tree.put target (.file bytes) }) := by
  rw [store, h]

/-- A file that is made and written once more has the bytes that were written last. -/
theorem replaced_store (h : w.tree.target? w.cwd path = some target) (first bytes : List UInt8) :
    Replaced w ((w.store path first).2.store path bytes).2 path bytes := by
  let made : Workspace := { w with tree := w.tree.put target (.file first) }
  have ht : made.tree.target? made.cwd path = some target := FileTree.target?_put h first
  have hn := FileTree.ne_nil_of_target? h
  have hm : (w.store path first).2.store path bytes = made.store path bytes := by rw [store_eq h]
  rw [hm, store_eq ht]
  refine ⟨rfl, rfl, ?_, target, h, FileTree.entry?_put hn, fun other ho => ?_⟩
  · simp only [read?, seen?, FileTree.locate?_put ht, Option.bind_some, FileTree.seen?, FileTree.entry?_put hn]
  · exact (FileTree.entry?_put_of_ne ho).trans (FileTree.entry?_put_of_ne ho)

end Workspace

namespace Command

/-! ### Requests -/

namespace RenderRequest

variable (r : RenderRequest) (w : Workspace)

def choices : Config.Choices := ⟨r.dialect?, if r.bodyOnly then some true else none, r.indent?⟩

/-- The configuration that the request leads to. -/
def loaded : Except ConfigError Config := ((Config.load r.config? r.choices).run w).1

/-- The document that the request names. -/
def document : Except Failure Document :=
  documentOf (if r.input = "-" then some w.input else w.read? (.given r.input))

/-- The configuration can be loaded, the document read, and the output file made. -/
def Ready (c : Config) (d : Document) : Prop :=
  r.loaded w = .ok c ∧ r.document w = .ok d ∧
    ∀ path, r.output? = some path → ∃ target, w.tree.target? w.cwd path = some target

end RenderRequest

/-! ### Runs -/

theorem run_bind {α β : Type} (m : Action α) (f : α → Action β) (w : Workspace) :
    (ExceptT.run (m >>= f)).run w = match (ExceptT.run m).run w with
      | (.ok a, w) => (ExceptT.run (f a)).run w
      | (.error e, w) => (.error e, w) := by
  show Access.run (Access.bind (ExceptT.run m) _) w = _
  rw [Access.run_bind]
  obtain ⟨a | e, w'⟩ := (ExceptT.run m).run w <;> rfl

theorem run_bind_of_ok {α β : Type} {m : Action α} {a : α} {w w' : Workspace}
    (h : (ExceptT.run m).run w = (.ok a, w')) (f : α → Action β) :
    (ExceptT.run (m >>= f)).run w = (ExceptT.run (f a)).run w' := by
  rw [run_bind, h]

theorem run_bind_of_error {α β : Type} {m : Action α} {e : Failure} {w w' : Workspace}
    (h : (ExceptT.run m).run w = (.error e, w')) (f : α → Action β) :
    (ExceptT.run (m >>= f)).run w = (.error e, w') := by
  rw [run_bind, h]

theorem run_loadConfig (r : RenderRequest) (w : Workspace) :
    (ExceptT.run (loadConfig r)).run w = ((r.loaded w).mapError .config, w) := by
  show Access.run (Access.bind _ _) w = _
  rw [Access.run_bind, Access.run, Config.reads_load]
  rfl

theorem run_readDocument (r : RenderRequest) (w : Workspace) :
    (ExceptT.run (readDocument r.input)).run w = (r.document w, w) := by
  rw [readDocument, RenderRequest.document]
  split <;> rfl

variable {r : RenderRequest} {w : Workspace}

theorem document_error {f : Failure} (h : r.document w = .error f) : f = .file ∨ f = .document := by
  rw [RenderRequest.document, documentOf] at h
  split at h
  · cases h
    exact .inl rfl
  · split at h
    · cases h
      exact .inr rfl
    · cases h

theorem run_of_loaded_error {e : ConfigError} (h : r.loaded w = .error e) :
    (ExceptT.run r.run).run w = (.error (.config e), w) := by
  have hl : (ExceptT.run (loadConfig r)).run w = (.error (.config e), w) := by
    rw [run_loadConfig, h, Except.mapError]
  exact run_bind_of_error hl _

section

variable {c : Config} (hc : r.loaded w = .ok c)
include hc

theorem run_loadConfig_of_ok : (ExceptT.run (loadConfig r)).run w = (.ok c, w) := by
  rw [run_loadConfig, hc, Except.mapError]

theorem run_of_document_error {f : Failure} (h : r.document w = .error f) :
    (ExceptT.run r.run).run w = (.error f, w) := by
  have hd : (ExceptT.run (readDocument r.input)).run w = (.error f, w) := by rw [run_readDocument, h]
  exact (run_bind_of_ok (run_loadConfig_of_ok hc) _).trans (run_bind_of_error hd _)

variable {d : Document} (hd : r.document w = .ok d)
include hd

theorem run_of_parsed : (ExceptT.run r.run).run w = (ExceptT.run (match r.output? with
    | none => do
      let (ended, text) := @rendering .addressable c d
      ExceptT.mk (.done ended)
      return .printed (text ++ "\n")
    | some path => do
      create path
      let (ended, text) := @rendering .addressable c d
      write path text
      ExceptT.mk (.done ended)
      return .stored ("Rendered " ++ c.dialect.name ++ " to " ++ path) : Action Outcome)).run w := by
  have hd : (ExceptT.run (readDocument r.input)).run w = (.ok d, w) := by rw [run_readDocument, hd]
  exact (run_bind_of_ok (run_loadConfig_of_ok hc) _).trans (run_bind_of_ok hd _)

theorem run_not_made {path : String} (ho : r.output? = some path) (hp : w.tree.target? w.cwd path = none) :
    (ExceptT.run r.run).run w = (.error .file, w) := by
  have hs : w.store path [] = (false, w) := by rw [Workspace.store, hp]
  have hm : (ExceptT.run (create path)).run w = (.error .file, w) := by
    rw [create, ExceptT.run_mk, Access.run, hs]
    rfl
  rw [run_of_parsed hc hd, ho]
  exact run_bind_of_error hm _

variable {ended : Except Failure Unit} {text : String} (ht : @rendering .addressable c d = (ended, text))
include ht

theorem run_printed (ho : r.output? = none) :
    (ExceptT.run r.run).run w = (ended.map fun _ => .printed (text ++ "\n"), w) := by
  rw [run_of_parsed hc hd, ho, ht]
  cases ended <;> rfl

theorem run_stored {path : String} {target : List String} (ho : r.output? = some path)
    (hp : w.tree.target? w.cwd path = some target) :
    (ExceptT.run r.run).run w = (ended.map fun _ => .stored ("Rendered " ++ c.dialect.name ++ " to " ++ path),
      ((w.store path []).2.store path (Text.toBytes text)).2) := by
  have hs : w.store path [] = (true, (w.store path []).2) := by rw [Workspace.store, hp]
  have hm : (ExceptT.run (create path)).run w = (.ok (), (w.store path []).2) := by
    rw [create, ExceptT.run_mk, Access.run, hs]
    rfl
  rw [run_of_parsed hc hd, ho, ht]
  refine (run_bind_of_ok hm _).trans ?_
  cases ended <;> rfl

end

/-- A request that is not ready fails before anything is written. -/
theorem run_of_not_ready (h : ¬ ∃ c d, r.Ready w c d) :
    ∃ f, (ExceptT.run r.run).run w = (.error f, w) ∧ (Outcome.failed f).code = 1 := by
  cases hc : r.loaded w with
  | error e => exact ⟨_, run_of_loaded_error hc, rfl⟩
  | ok c =>
    cases hd : r.document w with
    | error f =>
      refine ⟨f, run_of_document_error hc hd, ?_⟩
      obtain rfl | rfl := document_error hd <;> rfl
    | ok d =>
      have ho : ¬ ∀ path, r.output? = some path → ∃ target, w.tree.target? w.cwd path = some target :=
        fun ho => h ⟨c, d, hc, hd, ho⟩
      obtain ⟨path, ho⟩ := not_forall.1 ho
      obtain ⟨hpath, hn⟩ := Classical.not_imp.1 ho
      have hn : w.tree.target? w.cwd path = none := Option.eq_none_iff_forall_ne_some.2 (not_exists.1 hn)
      exact ⟨.file, run_not_made hc hd hpath hn, rfl⟩

/-- The outcome of a request whose text is written to its end. -/
def answer (r : RenderRequest) (c : Config) (text : String) : Outcome :=
  match r.output? with
  | none => .printed (text ++ "\n")
  | some path => .stored ("Rendered " ++ c.dialect.name ++ " to " ++ path)

theorem answer_code (r : RenderRequest) (c : Config) (text : String) : (answer r c text).code = 0 := by
  rw [answer]
  split <;> rfl

/-- The text is in the output file of the request, if it names one, and nothing else is changed. -/
def Leaves (r : RenderRequest) (w w' : Workspace) (text : String) : Prop :=
  match r.output? with
  | none => w' = w
  | some path => Replaced w w' path (Text.toBytes text)

/-- A request that is ready leaves what has been written, however the rendering ends. -/
theorem run_of_ready {c : Config} {d : Document} (h : r.Ready w c d) {ended : Except Failure Unit} {text : String}
    (ht : @rendering .addressable c d = (ended, text)) :
    ((ExceptT.run r.run).run w).1 = ended.map (fun _ => answer r c text) ∧
      Leaves r w ((ExceptT.run r.run).run w).2 text := by
  obtain ⟨hc, hd, hp⟩ := h
  cases ho : r.output? with
  | none =>
    rw [run_printed hc hd ht ho, Leaves, answer, ho]
    exact ⟨rfl, rfl⟩
  | some path =>
    obtain ⟨target, hpath⟩ := hp path ho
    rw [run_stored hc hd ht ho hpath, Leaves, answer, ho]
    exact ⟨rfl, Workspace.replaced_store hpath [] _⟩

theorem run_render {arguments : List String} (h : Invocation.ofArguments? arguments = some (.render r)) :
    (run arguments).run w = match (ExceptT.run r.run).run w with
      | (.ok outcome, w) => (outcome, w)
      | (.error f, w) => (.failed f, w) := by
  simp only [run, h, Access.run_bind]
  obtain ⟨a | e, w'⟩ := (ExceptT.run r.run).run w <;> rfl

section

variable {arguments : List String} (ha : Invocation.ofArguments? arguments = some (.render r))
include ha

theorem run_render_of_not_ready (h : ¬ ∃ c d, r.Ready w c d) :
    ((run arguments).run w).1.code = 1 ∧ ((run arguments).run w).2 = w := by
  obtain ⟨f, hf, hc⟩ := run_of_not_ready h
  rw [run_render ha, hf]
  exact ⟨hc, rfl⟩

variable {c : Config} {d : Document} (h : r.Ready w c d) {text : String}
include h

theorem run_render_of_written (ht : @rendering .addressable c d = (.ok (), text)) :
    ((run arguments).run w).1 = answer r c text ∧ Leaves r w ((run arguments).run w).2 text := by
  obtain ⟨hr, hl⟩ := run_of_ready h ht
  rw [run_render ha]
  generalize (ExceptT.run r.run).run w = o at hr hl ⊢
  obtain ⟨a | e, w'⟩ := o <;> cases hr
  exact ⟨rfl, hl⟩

theorem run_render_of_brokenOff (ht : @rendering .addressable c d = (.error (.render .tooDeep), text)) :
    ((run arguments).run w).1.code = 101 ∧ Leaves r w ((run arguments).run w).2 text := by
  obtain ⟨hr, hl⟩ := run_of_ready h ht
  rw [run_render ha]
  generalize (ExceptT.run r.run).run w = o at hr hl ⊢
  obtain ⟨a | e, w'⟩ := o <;> cases hr
  exact ⟨rfl, hl⟩

end

/-- A command that ends with another code than zero leaves all files as they were, the output file among them, unless it
is ended by the memory, with the code 101. A rendering begins just if its configuration can be loaded, its document
read, and its output file made. It changes that file alone, which gets the text of the document under the configuration
if the code is zero, as it is where the document fits, and the same request without an output file prints this text and
a line break then. If the code is 101, the file gets the beginning of the text. -/
theorem run_all_or_beginning (arguments : List String) (w : Workspace) :
    let o := (run arguments).run w
    (o.1.code ≠ 0 → o.1.code ≠ 101 → o.2 = w) ∧
    (∀ r, Invocation.ofArguments? arguments = some (.render r) →
      (o.1.code = 0 ∨ o.1.code = 101 ↔ ∃ c d, r.Ready w c d) ∧
      ∀ c d, r.Ready w c d → ∃ text, Renders c d text ∧
        (Fits c d → o.1.code = 0) ∧
        (o.1.code = 0 → o.1 = answer r c text ∧ Leaves r w o.2 text ∧
          (ExceptT.run ({ r with output? := none } : RenderRequest).run).run w =
            (.ok (.printed (text ++ "\n")), w)) ∧
        (o.1.code = 101 → ∃ written more, text = written ++ more ∧ Leaves r w o.2 written)) ∧
    ((∀ r, Invocation.ofArguments? arguments ≠ some (.render r)) → o.2 = w) := by
  intro o
  cases ha : Invocation.ofArguments? arguments with
  | none =>
    have ho : o = (.usage, w) := by simp only [o, run, ha]; rfl
    exact ⟨fun _ _ => by rw [ho], nofun, fun _ => by rw [ho]⟩
  | some invocation =>
    cases invocation with
    | version =>
      have ho : o = (.printed (version ++ "\n"), w) := by simp only [o, run, ha]; rfl
      exact ⟨fun _ _ => by rw [ho], nofun, fun _ => by rw [ho]⟩
    | render r =>
      by_cases h : ∃ c d, r.Ready w c d
      · have hr {c : Config} {d : Document} (hr : r.Ready w c d) : ∃ text, Renders c d text ∧
            (@rendering .addressable c d = (.ok (), text) ∧ o.1 = answer r c text ∧ Leaves r w o.2 text ∨
              ¬ Fits c d ∧ o.1.code = 101 ∧ ∃ written more, text = written ++ more ∧ Leaves r w o.2 written) := by
          obtain ⟨p, hp⟩ := Config.profile_of_load hr.1
          obtain ⟨text, ht, hw | ⟨hf, written, more, hw, hm⟩⟩ := rendering_of_profile hp d
          · exact ⟨text, ht, .inl ⟨hw, run_render_of_written ha hr hw⟩⟩
          · obtain ⟨hc, hl⟩ := run_render_of_brokenOff ha hr hw
            exact ⟨text, ht, .inr ⟨hf, hc, written, more, hm, hl⟩⟩
        have hcode : o.1.code = 0 ∨ o.1.code = 101 := by
          obtain ⟨c, d, h⟩ := h
          obtain ⟨text, -, ⟨-, ho, -⟩ | ⟨-, hc, -⟩⟩ := hr h
          · exact .inl (by rw [ho, answer_code])
          · exact .inr hc
        refine ⟨fun h0 h101 => (hcode.elim h0 h101).elim, fun r' hr' => ?_, fun h => (h r rfl).elim⟩
        cases hr'
        refine ⟨⟨fun _ => h, fun _ => hcode⟩, fun c d hready => ?_⟩
        obtain ⟨text, ht, ⟨hw, ho, hl⟩ | ⟨hf, hc, hm⟩⟩ := hr hready
        · have hc : o.1.code = 0 := by rw [ho, answer_code]
          have hprint := run_printed (r := { r with output? := none }) hready.1 hready.2.1 hw rfl
          exact ⟨text, ht, fun _ => hc, fun _ => ⟨ho, hl, hprint⟩, fun h => by omega⟩
        · exact ⟨text, ht, fun h => (hf h).elim, fun h => by omega, fun _ => hm⟩
      · obtain ⟨hc, hw⟩ := run_render_of_not_ready ha h
        have hc : o.1.code = 1 := hc
        refine ⟨fun _ _ => hw, fun r' hr' => ?_, fun h => (h r rfl).elim⟩
        cases hr'
        exact ⟨⟨fun hc' => by omega, fun h' => (h h').elim⟩, fun c d hr => (h ⟨c, d, hr⟩).elim⟩

def saved : Workspace :=
  ⟨FileTree.empty.put ["doc.json"] (.file (Text.toBytes
      "\x7b\"nodes\": [\x7b\"type\": \"paragraph\", \"value\": [\x7b\"type\": \"line_break\"\x7d]\x7d]\x7d")) |>.put
    ["out.xml"] (.file [0]), [], []⟩

/-- A document is written over a file, or to a directory that is not there. -/
theorem run_all_or_beginning_saved :
    let stored := (run ["render", "--indent", "0", "doc.json", "-o", "out.xml"]).run saved
    let failed := (run ["render", "doc.json", "-o", "missing/out.xml"]).run saved
    (stored.1.code = 0 ∧ ∃ c d text, Fits c d ∧ Renders c d text ∧
        Replaced saved stored.2 "out.xml" (Text.toBytes text)) ∧
      failed.1.code = 1 ∧ failed.2 = saved := by
  intro stored failed
  have hs : ((Invocation.ofArguments? ["render", "--indent", "0", "doc.json", "-o", "out.xml"]).bind fun
      | .render r => some (r.output?, (r.loaded saved).toOption.map Config.indent,
          (r.document saved).toOption.map fun d => decide (d.Throughout fun n => 24 * n.columns < Memory.reach))
      | .version => none) = some (some "out.xml", some 0, some true) := by decide +kernel
  have hpath : (saved.tree.target? saved.cwd "out.xml").isSome := by decide +kernel
  have hf : failed.1.code = 1 := by decide +kernel
  obtain ⟨-, hrender, -⟩ := run_all_or_beginning ["render", "--indent", "0", "doc.json", "-o", "out.xml"] saved
  obtain ⟨invocation, ha, hs⟩ := Option.bind_eq_some_iff.1 hs
  cases invocation with
  | version => cases hs
  | render r =>
    obtain ⟨ho, hc, hd⟩ : r.output? = some "out.xml" ∧ _ ∧ _ := by
      simpa only [Option.some.injEq, Prod.mk.injEq] using hs
    obtain ⟨c, hc, hi⟩ := Option.map_eq_some_iff.1 hc
    obtain ⟨d, hd, ht⟩ := Option.map_eq_some_iff.1 hd
    have ok {ε α : Type} {x : Except ε α} {a : α} (h : x.toOption = some a) : x = .ok a := by
      cases x <;> cases h
      rfl
    have hready : r.Ready saved c d := by
      refine ⟨ok hc, ok hd, fun path hp => ?_⟩
      cases ho.symm.trans hp
      exact Option.isSome_iff_exists.1 hpath
    have hfits := fits_compact hi (of_decide_eq_true ht)
    obtain ⟨text, hr, hz, hw, -⟩ := (hrender r ha).2 c d hready
    obtain ⟨-, hl, -⟩ := hw (hz hfits)
    rw [Leaves, ho] at hl
    have hw : failed.2 = saved := (run_all_or_beginning ["render", "doc.json", "-o", "missing/out.xml"] saved).1
      (ne_of_eq_of_ne hf (by decide)) (ne_of_eq_of_ne hf (by decide))
    exact ⟨⟨hz hfits, c, d, text, hfits, hr, hl⟩, hf, hw⟩

def wide : Workspace :=
  ⟨FileTree.empty.put ["doc.json"] (.file (Text.toBytes
      "\x7b\"nodes\":[\x7b\"type\":\"table\",\"value\":\x7b\"columns\":18446744073709551615\x7d\x7d]\x7d")) |>.put
    ["out.xaml"] (.file (Text.toBytes "before")), [], []⟩

/-- A table with more columns than there can be addresses ends the process when the output file is made anew. -/
theorem run_loses_output_wide :
    let o := (run ["render", "-d", "xamarin-forms", "--body-only", "-o", "out.xaml", "doc.json"]).run wide
    o.1.code = 101 ∧ wide.read? (.given "out.xaml") = some (Text.toBytes "before") ∧
      o.2.read? (.given "out.xaml") = some [] := by
  decide +kernel

end Command

end XamlDoc
