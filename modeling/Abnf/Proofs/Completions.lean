/-
The names that are offered in a document.

The names of the rules are taken from the definitions one after the other, and a name is left out if one
with its key was taken before.  What is left are the first definitions of their names, one for each key
(`Definition.FirstsOf`, `Completion.exists_firstsOf`).  A name is looked up at its first definition, so
these are the names that lead to a definition, and the core rules, which are offered as well, are not
(`completions_are_first_definitions`).
-/
import Abnf.Feature.Completion
import Abnf.Proofs.Renaming

namespace Abnf

namespace Definition

/-- Whether some definitions are the first ones of their names in a list, one for each key that was not
seen before. -/
structure FirstsOf (seen : List String) (definitions firsts : List Definition) : Prop where
  sublist : firsts.Sublist definitions
  nodup : (firsts.map fun d => RuleName.key d.name).Nodup
  unseen : ∀ d ∈ firsts, RuleName.key d.name ∉ seen
  first : ∀ d ∈ firsts,
    (definitions.find? fun e => RuleName.key e.name == RuleName.key d.name) = some d
  covers : ∀ d ∈ definitions, RuleName.key d.name ∈ seen ∨
    ∃ f ∈ firsts, RuleName.key f.name = RuleName.key d.name

namespace FirstsOf

variable {seen : List String} {definitions firsts : List Definition} {d : Definition}

theorem nil (seen : List String) : FirstsOf seen [] [] where
  sublist := List.Sublist.refl []
  nodup := List.nodup_nil
  unseen := fun _ h => absurd h List.not_mem_nil
  first := fun _ h => absurd h List.not_mem_nil
  covers := fun _ h => absurd h List.not_mem_nil

/-- A definition of a name that was seen is left out. -/
theorem skip (hseen : RuleName.key d.name ∈ seen) (h : FirstsOf seen definitions firsts) :
    FirstsOf seen (d :: definitions) firsts where
  sublist := h.sublist.cons d
  nodup := h.nodup
  unseen := h.unseen
  first := by
    intro e he
    rw [List.find?_cons_of_neg, h.first e he]
    intro hkey
    rw [beq_iff_eq.mp hkey] at hseen
    exact h.unseen e he hseen
  covers := by
    intro e he
    rcases List.mem_cons.mp he with rfl | he
    · exact Or.inl hseen
    · exact h.covers e he

/-- A definition of another name is taken, and its name is seen from then on. -/
theorem take (hseen : RuleName.key d.name ∉ seen)
    (h : FirstsOf (RuleName.key d.name :: seen) definitions firsts) :
    FirstsOf seen (d :: definitions) (d :: firsts) where
  sublist := h.sublist.cons_cons d
  nodup := by
    rw [List.map_cons, List.nodup_cons]
    refine ⟨fun hmem => ?_, h.nodup⟩
    obtain ⟨e, he, hkey⟩ := List.mem_map.mp hmem
    exact h.unseen e he (hkey ▸ List.mem_cons_self)
  unseen := by
    intro e he
    rcases List.mem_cons.mp he with rfl | he
    · exact hseen
    · exact fun hmem => h.unseen e he (List.mem_cons_of_mem _ hmem)
  first := by
    intro e he
    rcases List.mem_cons.mp he with rfl | he
    · exact List.find?_cons_of_pos (beq_self_eq_true _)
    · rw [List.find?_cons_of_neg, h.first e he]
      intro hkey
      exact h.unseen e he (beq_iff_eq.mp hkey ▸ List.mem_cons_self)
  covers := by
    intro e he
    rcases List.mem_cons.mp he with rfl | he
    · exact Or.inr ⟨e, List.mem_cons_self, rfl⟩
    · rcases h.covers e he with hmem | ⟨f, hf, hkey⟩
      · rcases List.mem_cons.mp hmem with hkey | hmem
        · exact Or.inr ⟨d, List.mem_cons_self, hkey.symm⟩
        · exact Or.inl hmem
      · exact Or.inr ⟨f, List.mem_cons_of_mem _ hf, hkey⟩

end FirstsOf

end Definition

/-- The names that are taken are those of first definitions. -/
theorem Completion.exists_firstsOf (seen : List String) (definitions : List Definition) :
    ∃ firsts, distinctNames seen (definitions.map Definition.name) = firsts.map Definition.name ∧
      Definition.FirstsOf seen definitions firsts := by
  induction definitions generalizing seen with
  | nil => exact ⟨[], rfl, .nil seen⟩
  | cons d definitions ih =>
    rw [List.map_cons, distinctNames]
    split
    · rename_i hseen
      obtain ⟨firsts, hnames, hfirsts⟩ := ih seen
      exact ⟨firsts, hnames, hfirsts.skip hseen⟩
    · rename_i hseen
      obtain ⟨firsts, hnames, hfirsts⟩ := ih (RuleName.key d.name :: seen)
      exact ⟨d :: firsts, by rw [hnames, List.map_cons], hfirsts.take hseen⟩

theorem CoreRule.isName_of_mem {c : CoreRule} (h : c ∈ all) : isName c.name = true := by
  rw [isName, find?, List.find?_isSome]
  exact ⟨c, h, beq_self_eq_true _⟩

theorem CoreRule.nodup_keys : (all.map fun c => RuleName.key c.name).Nodup := by decide +kernel

namespace Index

variable {document : String} {limit : Nat} {source : Text}

/-- A name leads to the first definition with its key. -/
theorem definitionOf?_eq_find? (tree : SyntaxTree) (name : String) :
    (ofTree document tree).definitionOf? name =
      (ofTree document tree).definitions.find? fun d => RuleName.key d.name == RuleName.key name := by
  rw [definitionOf?, definitionsOf_eq_filter, List.head?_filter]

/-- A rule that is defined has another key than any core rule. -/
theorem key_ne_of_mem_definitions {d : Definition} {c : CoreRule}
    (hd : d ∈ (ofTree document (parse limit source)).definitions) (hc : c ∈ CoreRule.all) :
    RuleName.key d.name ≠ RuleName.key c.name := by
  intro hkey
  rw [definitions_ofTree] at hd
  obtain ⟨s, hs, rfl⟩ := List.mem_map.mp hd
  have hboth := Bool.and_eq_true_iff.mp (List.mem_filter.mp hs).2
  have hcore : CoreRule.isName s.name = CoreRule.isName c.name := CoreRule.isName_congr hkey
  rw [hcore, CoreRule.isName_of_mem hc] at hboth
  exact absurd hboth.2 Bool.false_ne_true

/-- A core rule leads to no definition. -/
theorem definitionOf?_core {c : CoreRule} (hc : c ∈ CoreRule.all) :
    (ofTree document (parse limit source)).definitionOf? c.name = none := by
  rw [definitionOf?_eq_find?, List.find?_eq_none]
  intro d hd hkey
  exact key_ne_of_mem_definitions hd hc (beq_iff_eq.mp hkey)

end Index

/-- Each rule is offered once.  The names that are offered are those of the first definitions of their
names, in the order of the text and as they are spelled there, one for each key that has a definition;
after them come the sixteen core rules.  No two of the names have the same key, and a name leads to a
definition iff it is offered as that of a rule of the document. -/
theorem completions_are_first_definitions (document : String) (limit : Nat) (source : Text) :
    let index := Index.ofTree document (parse limit source)
    (∃ firsts : List Definition,
      index.completions = firsts.map (fun d => .rule d.name) ++ CoreRule.all.map .core ∧
        firsts.Sublist index.definitions ∧
        (∀ d ∈ firsts, index.definitionOf? d.name = some d) ∧
        (firsts.map fun d => RuleName.key d.name).Nodup ∧
        ∀ d ∈ index.definitions, ∃ f ∈ firsts, RuleName.key f.name = RuleName.key d.name) ∧
      CoreRule.all.length = 16 ∧
      (index.completions.map fun c => RuleName.key c.label).Nodup ∧
      ∀ c ∈ index.completions,
        (index.definitionOf? c.label).isSome = true ↔ ∃ name, c = .rule name := by
  intro index
  obtain ⟨firsts, hnames, hfirsts⟩ := Completion.exists_firstsOf [] index.definitions
  have hcompletions : index.completions =
      firsts.map (fun d => .rule d.name) ++ CoreRule.all.map .core := by
    rw [Index.completions, hnames, List.map_map]
    rfl
  have hfirst : ∀ d ∈ firsts, index.definitionOf? d.name = some d := by
    intro d hd
    rw [Index.definitionOf?_eq_find?]
    exact hfirsts.first d hd
  refine ⟨⟨firsts, hcompletions, hfirsts.sublist, hfirst, hfirsts.nodup, fun d hd => ?_⟩, rfl, ?_, ?_⟩
  · rcases hfirsts.covers d hd with hseen | hcovered
    · exact absurd hseen List.not_mem_nil
    · exact hcovered
  · rw [hcompletions, List.map_append, List.map_map, List.map_map, List.nodup_append]
    refine ⟨hfirsts.nodup, CoreRule.nodup_keys, ?_⟩
    intro key hkey key' hkey' heq
    obtain ⟨d, hd, rfl⟩ := List.mem_map.mp hkey
    obtain ⟨c, hc, rfl⟩ := List.mem_map.mp hkey'
    exact Index.key_ne_of_mem_definitions (hfirsts.sublist.subset hd) hc heq
  · intro c hc
    rw [hcompletions, List.mem_append] at hc
    rcases hc with hc | hc
    · obtain ⟨d, hd, rfl⟩ := List.mem_map.mp hc
      refine iff_of_true ?_ ⟨d.name, rfl⟩
      show (index.definitionOf? d.name).isSome = true
      rw [hfirst d hd]
      rfl
    · obtain ⟨core, hcore, rfl⟩ := List.mem_map.mp hc
      refine iff_of_false ?_ fun ⟨name, hrule⟩ => Completion.noConfusion hrule
      show ¬(index.definitionOf? core.name).isSome = true
      rw [Index.definitionOf?_core hcore]
      exact Bool.false_ne_true

end Abnf
