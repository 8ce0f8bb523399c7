import XamlDoc.Proofs.Markup.Whole

/-!
# Elements by name

The elements of some names in written contents, and calls that begin no element of those names: they add none,
neither as whole contents nor around others.
-/

namespace XamlDoc.Markup

open Content (allCalls allCalls_append)

/-! ### Contents -/

namespace Content

theorem allNamed_append (name : String) (a b : List Content) :
    allNamed name (a ++ b) = allNamed name a ++ allNamed name b := by
  induction a with
  | nil => rfl
  | cons c r ih => rw [List.cons_append, allNamed, ih, allNamed, List.append_assoc]

theorem allNamed_singleton (name : String) (c : Content) : allNamed name [c] = named name c :=
  List.append_nil _

theorem named_of_ne {name n : String} (h : n ≠ name) (attributes : List Attribute)
    (children : List Content) : named name (.element n attributes children) = allNamed name children := by
  rw [named, if_neg h]

end Content

open Content (allNamed allNamed_append allNamed_singleton named named_of_ne)

/-! ### Calls -/

/-- No element of one of these names is begun. -/
def Avoids (names : List String) (cs : List Call) : Prop := ∀ name ∈ names, .element name ∉ cs

section

variable {names : List String}

theorem avoids_append {a b : List Call} (ha : Avoids names a) (hb : Avoids names b) : Avoids names (a ++ b) :=
  fun name hn => List.not_mem_append (ha name hn) (hb name hn)

theorem avoids_of_append {a b : List Call} (h : Avoids names (a ++ b)) : Avoids names a ∧ Avoids names b :=
  ⟨fun name hn hm => h name hn (List.mem_append_left b hm),
    fun name hn hm => h name hn (List.mem_append_right a hm)⟩

theorem avoids_ofTag {t : Tag} (h : t.name ∉ names) : Avoids names (Call.ofTag t) := by
  intro name hn hm
  rcases List.mem_cons.1 hm with he | hm
  · exact h (Call.element.inj he ▸ hn)
  · obtain ⟨a, -, he⟩ := List.mem_map.1 hm
    cases he

theorem notMem_of_avoids {t : Tag} (h : Avoids names (Call.ofTag t)) : t.name ∉ names :=
  fun hn => h t.name hn (List.mem_cons_self ..)

theorem avoids_leaf {t : Tag} (h : t.name ∉ names) : Avoids names (Call.ofTag t ++ [.close]) :=
  avoids_append (avoids_ofTag h) (by simp [Avoids])

theorem avoids_flatMap {α : Type} {f : α → List Call} {l : List α} (h : ∀ a ∈ l, Avoids names (f a)) :
    Avoids names (l.flatMap f) := by
  intro name hn hm
  obtain ⟨a, ha, hc⟩ := List.mem_flatMap.1 hm
  exact h a ha name hn hc

end

/-! ### Contents without names -/

section

variable {names : List String} {name : String}

mutual

theorem named_of_avoids (hn : name ∈ names) {c : Content} (h : Avoids names c.calls) : named name c = [] := by
  cases c with
  | element n attributes children =>
    obtain ⟨ht, hc⟩ := avoids_of_append h
    have hne : n ≠ name := fun he => notMem_of_avoids (t := ⟨n, attributes⟩) ht (he ▸ hn)
    rw [named_of_ne hne]
    exact allNamed_of_avoids hn (avoids_of_append hc).1
  | text t | raw t | comment t => rfl

theorem allNamed_of_avoids (hn : name ∈ names) {k : List Content} (h : Avoids names (allCalls k)) :
    allNamed name k = [] := by
  cases k with
  | nil => rfl
  | cons c r =>
    obtain ⟨hc, hr⟩ := avoids_of_append h
    rw [allNamed, named_of_avoids hn hc, allNamed_of_avoids hn hr, List.nil_append]

end

/-- Contents with something around them that has no elements of the name. -/
theorem Opening.allNamed_around (hn : name ∈ names) {n : Nat} {cs : List Call} (h : Opening n cs)
    (hs : Avoids names cs) (k : List Content) :
    ∃ k', cs ++ (allCalls k ++ List.replicate n .close) = allCalls k' ∧
      allNamed name k' = allNamed name k := by
  -- from the innermost element outwards, each takes in what stands before the next and the contents
  induction h generalizing k with
  | nil => exact ⟨k, List.append_nil _, rfl⟩
  | whole _ hl ih =>
    obtain ⟨l, rfl, -⟩ := hl
    obtain ⟨hs, hl⟩ := avoids_of_append hs
    obtain ⟨k', hk, ha⟩ := ih hs (l ++ k)
    refine ⟨k', ?_, ?_⟩
    · rw [← hk, allCalls_append, List.append_assoc, List.append_assoc]
    · rw [ha, allNamed_append, allNamed_of_avoids hn hl, List.nil_append]
  | @tag n cs t _ _ ih =>
    obtain ⟨hs, ht⟩ := avoids_of_append hs
    have hne : t.name ≠ name := fun he => notMem_of_avoids ht (he ▸ hn)
    obtain ⟨k', hk, ha⟩ := ih hs [.element t.name t.attributes k]
    refine ⟨k', ?_, ?_⟩
    · rw [← hk]
      simp [allCalls, Content.calls, List.replicate_succ]
    · rw [ha, allNamed_singleton, named_of_ne hne]

end

end XamlDoc.Markup
