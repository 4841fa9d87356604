/-
The edits of a renaming are the occurrences of a name.

Renaming, finding references and asking for the name to rename all start from the name at an offset,
and each puts its answer together from the definitions and references of that name.  The answers agree
with each other and with the text: the edits of a renaming are at the names of the text that have the
key of the name at the offset, each once and in the order of the text (`rename_edits_exact`).

Definitions and references are lists of their own, and only the order of their spans brings them
together.  That this gives the names of the text in order is `Index.occurrencesOf_eq`; here it is put
next to what the other two features answer.
-/
import Abnf.Feature.Navigation
import Abnf.Proofs.Nesting
import Abnf.Proofs.Renaming
import Abnf.Proofs.Resolution

namespace Abnf

/-! ### Spans of tokens -/

namespace Span

/-- A span that starts before another one and has no byte in common with it. -/
def Precedes (s t : Span) : Prop := s.start < t.start ∧ s.stop ≤ t.start ∧ s.overlaps t = false

theorem precedes_of_le {s t : Span} (hlt : s.start < t.start) (hle : s.stop ≤ t.start) :
    s.Precedes t := by
  refine ⟨hlt, hle, ?_⟩
  have hnot : ¬t.start < s.stop := Nat.not_lt.mpr hle
  rw [overlaps, decide_eq_false hnot, Bool.and_false]

end Span

namespace Token

theorem precedes_of_before {s t : Token} (h : s.Before t) : s.span.Precedes t.span :=
  Span.precedes_of_le (Nat.lt_of_lt_of_le h.1 h.2) h.2

/-- The tokens of some sort, by their spans, come one after the other. -/
theorem pairwise_precedes (source : Text) (p : Token → Bool) :
    (((scan source).filter p).map span).Pairwise Span.Precedes := by
  refine List.pairwise_map.mpr (List.Pairwise.filter _ ?_)
  exact (pairwise_scanFrom 0 true source).imp fun h => precedes_of_before h

theorem mem_names {source : Text} {t : Token} :
    t ∈ names source ↔ t ∈ scan source ∧ t.kind = .identifier := by
  rw [names, List.mem_filter, beq_iff_eq]

/-- A name has letters. -/
theorem start_lt_stop_of_name {source : Text} {t : Token} (h : t ∈ names source) :
    t.span.start < t.span.stop := by
  obtain ⟨ht, hkind⟩ := mem_names.mp h
  refine start_lt_stop (List.mem_filter.mpr ⟨ht, ?_⟩)
  rw [isSignificant, hkind]
  rfl

end Token

namespace Index

variable {document : String} {limit : Nat} {source : Text}

/-- The name around an offset is one of the text. -/
theorem name_of_targetAt? {offset : Nat} {target : Site}
    (h : (parse limit source).targetAt? offset = some target) :
    ∃ t ∈ Token.names source, t.span.contains offset = true ∧ target.node.span = t.span ∧
      target.name = t.name := by
  obtain ⟨-, t, ht, hkind, hspan, hnode⟩ := SyntaxTree.exists_of_targetAt? h
  refine ⟨t, Token.mem_names.mpr ⟨ht, hkind⟩, hspan, ?_, ?_⟩
  · rw [hnode, span_nameNode]
  · rw [Site.name, hnode, spelling_nameNode]

/-- The name that can be renamed at an offset is one of the text. -/
theorem exists_of_renameTarget? {offset : Nat} {target : Site}
    (h : (ofTree document (parse limit source)).renameTarget? offset = some target) :
    (ofTree document (parse limit source)).targetAt? offset = some target ∧
      ∃ t ∈ Token.names source, t.span.contains offset = true ∧ target.node.span = t.span ∧
        target.name = t.name := by
  obtain ⟨htarget, -⟩ := Option.filter_eq_some_iff.mp h
  exact ⟨htarget, name_of_targetAt? htarget⟩

/-- All references, with the definitions before them, are the occurrences in another order. -/
theorem spans_findReferences {index : Index} {offset : Nat} {target : Site}
    (h : index.targetAt? offset = some target) :
    ((index.findReferences offset true).map Location.span).mergeSort Span.le =
      index.occurrencesOf target.name := by
  rw [findReferences, h, occurrencesOf]
  simp only [if_true, List.map_append, List.map_map]
  rfl

theorem length_occurrencesOf (index : Index) (name : String) :
    (index.occurrencesOf name).length =
      (index.definitionsOf name).length + (index.referencesOf name).length := by
  rw [occurrencesOf, List.length_mergeSort, List.length_append, List.length_map, List.length_map]

theorem rename_error_iff (index : Index) (offset : Nat) (newName : String) (e : RuleName.Invalid) :
    index.rename offset newName = .error e ↔ RuleName.check newName = .error e := by
  cases hcheck : RuleName.check newName with
  | ok u =>
    rw [rename_of_check hcheck]
    simp
  | error e' =>
    have hrename : index.rename offset newName = .error e' := by
      rw [rename, hcheck]
      rfl
    rw [hrename]
    simp

end Index

/-- The edits of a renaming are exactly the occurrences.  Renaming fails iff the new name does not pass
the check, and with the same error; otherwise there are edits iff the name at the offset can be renamed.
The edits then come one after the other without overlap, and none is empty.  They are at the names of
the text that have the key of the name at the offset, this name included.  They are the references with
the definitions, put in order, and as many as there are definitions and references of the name. -/
theorem rename_edits_exact (document : String) (limit : Nat) (source : Text) (offset : Nat)
    (newName : String) :
    let index := Index.ofTree document (parse limit source)
    let names := (Token.scan source).filter (·.kind == .identifier)
    (∀ e, index.rename offset newName = .error e ↔ RuleName.check newName = .error e) ∧
      (RuleName.check newName = .ok () →
        ((∃ edits, index.rename offset newName = .ok (some edits)) ↔
          (index.renameTarget? offset).isSome = true)) ∧
      ∀ edits, index.rename offset newName = .ok (some edits) →
        let spans := edits.map TextEdit.span
        (∀ e ∈ edits, e.newText = newName) ∧
          spans.Pairwise Span.Precedes ∧ (∀ s ∈ spans, s.start < s.stop) ∧
          spans = ((index.findReferences offset true).map Location.span).mergeSort Span.le ∧
          ∃ target, index.renameTarget? offset = some target ∧ target.node.span ∈ spans ∧
            spans.length = (index.definitionsOf target.name).length +
              (index.referencesOf target.name).length ∧
            ∃ t ∈ names, t.span.contains offset = true ∧ target.node.span = t.span ∧
              target.name = t.name ∧
              spans = (names.filter fun u => RuleName.key u.name == RuleName.key t.name).map
                Token.span := by
  intro index names
  refine ⟨index.rename_error_iff offset newName, fun hcheck => ?_, fun edits hrename => ?_⟩
  · rw [Index.rename_of_check hcheck]
    cases index.renameTarget? offset <;> simp
  · intro spans
    obtain ⟨hcheck, target, htarget, hcore, hedits⟩ := Index.target_of_rename hrename
    obtain ⟨hat, t, ht, hspan, htspan, hname⟩ := Index.exists_of_renameTarget? htarget
    obtain ⟨hscan, hkind⟩ := Token.mem_names.mp ht
    have hspans : spans = ((Token.scan source).filter (Token.isNamed target.name)).map Token.span := by
      show edits.map TextEdit.span = _
      rw [hedits, List.map_map]
      rfl
    have hoccurrences : spans = index.occurrencesOf target.name := by
      rw [hspans, Index.occurrencesOf_eq document limit source hcore]
    refine ⟨fun e he => ?_, ?_, fun s hs => ?_, ?_, target, htarget, ?_, ?_, t, ?_, hspan, htspan,
      hname, ?_⟩
    · rw [hedits] at he
      obtain ⟨u, -, rfl⟩ := List.mem_map.mp he
      rfl
    · rw [hspans]
      exact Token.pairwise_precedes source _
    · rw [hspans] at hs
      obtain ⟨u, hu, rfl⟩ := List.mem_map.mp hs
      obtain ⟨hu, hnamed⟩ := List.mem_filter.mp hu
      have hidentifier := beq_iff_eq.mp (Bool.and_eq_true_iff.mp hnamed).1
      exact Token.start_lt_stop_of_name (Token.mem_names.mpr ⟨hu, hidentifier⟩)
    · rw [Index.spans_findReferences hat, hoccurrences]
    · rw [hspans, htspan, Token.span_mem_filter hscan, Token.isNamed, hkind, hname]
      simp
    · rw [hoccurrences, Index.length_occurrencesOf]
    · exact ht
    · rw [hspans, hname, List.filter_filter]
      refine congrArg (List.map Token.span) (List.filter_congr fun u _ => ?_)
      exact Bool.and_comm _ _

/-- A rule whose name is in three cases of its letters, in a text with a bracket that is left open.  A
comment and a longer name hold the name too, and are left alone. -/
theorem rename_edits_exact_left_open :
    let source : Text := "Ab = ( aB / c\r\nc = AB-1 / ab ; ab".toList
    let index := Index.ofTree "grammar" (parse 1 source)
    let edits : List TextEdit := [⟨⟨0, 2⟩, "x"⟩, ⟨⟨7, 9⟩, "x"⟩, ⟨⟨26, 28⟩, "x"⟩]
    index.rename 8 "x" = .ok (some edits) ∧
      (edits.map TextEdit.span).Pairwise Span.Precedes ∧
      edits.map TextEdit.span =
        ((index.findReferences 8 true).map Location.span).mergeSort Span.le := by
  intro source index edits
  have hrename : index.rename 8 "x" = .ok (some edits) := by
    have hname : (index.renameTarget? 8).map Site.name = some "aB" := by decide +kernel
    rw [Index.rename_of_target (by decide +kernel) hname]
    decide +kernel
  obtain ⟨-, -, hedits⟩ := rename_edits_exact "grammar" 1 source 8 "x"
  obtain ⟨-, hsorted, -, hfound, -⟩ := hedits edits hrename
  exact ⟨hrename, hsorted, hfound⟩

end Abnf
