/-
The names that a rule may be given.

`RuleName.check` looks at a name character by character, and the scanner at the characters of a whole text.  Both
accept the same names: a letter followed by letters, digits and hyphens (`RuleName.Spelled`), which is what the
scanner makes one token of, whatever follows it that cannot go on with it (`Token.scanFrom_spelled`).  So a name
passes the check iff it is one token and not that of a core rule, and iff a rule that is written under it is
defined under it (`check_accepts_names`).
-/
import Abnf.Proofs.RenameEdits

namespace Abnf

/-- The names of core rules, whatever the case of their letters. -/
theorem CoreRule.isName_eq_false_iff {name : String} :
    isName name = false ↔ ∀ rule ∈ all, RuleName.key rule.name ≠ RuleName.key name := by
  rw [isName, Option.isSome_eq_false_iff, Option.isNone_iff_eq_none, find?, List.find?_eq_none]
  simp only [beq_iff_eq, ne_eq]

/-- Whether a text is a letter followed by letters, digits and hyphens. -/
def RuleName.Spelled (text : Text) : Prop :=
  ∃ c w, text = c :: w ∧ c.isAlpha = true ∧ w.all Token.isNameChar = true

theorem RuleName.check_eq_ok_iff {name : String} :
    check name = .ok () ↔ Spelled name.toList ∧ CoreRule.isName name = false := by
  refine ⟨of_check, ?_⟩
  rintro ⟨⟨c, w, htext, hletter, hw⟩, hcore⟩
  have hfind : w.find? (!Token.isNameChar ·) = none := by
    rw [List.find?_eq_none]
    intro d hd
    simpa using List.all_eq_true.mp hw d hd
  rw [check, htext]
  simp [hletter, hfind, hcore]

namespace Token

open RuleName (Spelled)

/-- A name is one token, if what follows it cannot go on with it. -/
theorem scanFrom_spelled {name : Text} (h : Spelled name) (start : Nat) (atLineStart : Bool) (rest : Text)
    (hrest : rest.head?.all (!isNameChar ·) = true) :
    scanFrom start atLineStart (name ++ rest) =
      ⟨.identifier, name, start, atLineStart⟩ :: scanFrom (start + name.byteLength) false rest := by
  obtain ⟨c, w, rfl, hletter, hw⟩ := h
  have hlexeme : lexeme c (w ++ rest) = (.identifier, w.length) := by
    rw [lexeme_letter hletter, run_append hw hrest]
  have hfirst : first start atLineStart c (w ++ rest) = ⟨.identifier, c :: w, start, atLineStart⟩ := by
    rw [first, hlexeme, List.take_left]
  rw [List.cons_append, scanFrom, hfirst, hlexeme, List.drop_left]
  rfl

/-- A text is a name iff it is one token of that kind, from its start to its end. -/
theorem spelled_iff_scan {text : Text} :
    Spelled text ↔ ∃ t stop, scan text = [t, stop] ∧ t.kind = .identifier ∧
      t.span = ⟨0, text.byteLength⟩ ∧ stop.kind = .endOfText := by
  constructor
  · intro h
    have hscan := scanFrom_spelled h 0 true [] rfl
    rw [List.append_nil] at hscan
    refine ⟨_, ⟨.endOfText, [], 0 + text.byteLength, false⟩, hscan.trans (by rw [scanFrom]), rfl, ?_, rfl⟩
    rw [span, Nat.zero_add]
  · rintro ⟨t, stop, hscan, hkind, hspan, -⟩
    have ht : t ∈ scan text := by
      rw [hscan]
      exact List.mem_cons_self
    -- the token covers all of the text
    have htext : t.text = text := by
      have hslice := Text.slice_append [] text []
      rw [List.append_nil, List.nil_append, show Text.byteLength [] = 0 from rfl, Nat.zero_add] at hslice
      rw [← slice_span ht, hspan, hslice]
    rw [← htext]
    exact letters_of_name ht hkind

end Token

/-- A name is defined iff it stands in the first column and is not that of a core rule. -/
theorem Index.exists_definition_iff {document : String} {limit : Nat} {source : Text} {name : String} :
    (∃ d ∈ (ofTree document (parse limit source)).definitions, d.name = name) ↔
      ∃ t ∈ Token.names source, t.atLineStart = true ∧ CoreRule.isName name = false ∧ t.name = name := by
  have hnames := congrArg (List.map Prod.fst) (map_definitions document limit source)
  rw [List.map_map, List.map_map] at hnames
  have hmem : name ∈ (ofTree document (parse limit source)).definitions.map Definition.name ↔
      name ∈ ((Token.names source).filter fun t => t.atLineStart && !CoreRule.isName t.name).map Token.name :=
    Iff.of_eq (congrArg (name ∈ ·) hnames)
  rw [List.mem_map, List.mem_map] at hmem
  rw [hmem]
  simp only [List.mem_filter, Bool.and_eq_true, Bool.not_eq_true']
  constructor
  · rintro ⟨t, ⟨ht, hline, hcore⟩, rfl⟩
    exact ⟨t, ht, hline, hcore, rfl⟩
  · rintro ⟨t, ht, hline, hcore, rfl⟩
    exact ⟨t, ⟨ht, hline, hcore⟩, rfl⟩

/-- The check of names and the grammar accept the same names.  A name passes the check iff the scanner makes one
token of it, which is a name from its start to its end, and no core rule has this name in any case of letters;
and iff the text of a rule under this name defines a rule of exactly this name. -/
theorem check_accepts_names (document : String) (limit : Nat) (name : String) :
    let index := Index.ofTree document (parse limit (name.toList ++ " = x\n".toList))
    (RuleName.check name = .ok () ↔
      (∃ t stop, Token.scan name.toList = [t, stop] ∧ t.kind = .identifier ∧
        t.span = ⟨0, Text.byteLength name.toList⟩ ∧ stop.kind = .endOfText) ∧
        ∀ rule ∈ CoreRule.all, RuleName.key rule.name ≠ RuleName.key name) ∧
      (RuleName.check name = .ok () ↔ ∃ d ∈ index.definitions, d.name = name) := by
  intro index
  constructor
  · rw [RuleName.check_eq_ok_iff, Token.spelled_iff_scan, CoreRule.isName_eq_false_iff]
  · rw [RuleName.check_eq_ok_iff, Index.exists_definition_iff]
    constructor
    · rintro ⟨hspelled, hcore⟩
      have hscan := Token.scanFrom_spelled hspelled 0 true " = x\n".toList rfl
      refine ⟨⟨.identifier, name.toList, 0, true⟩, ?_, rfl, hcore, String.ofList_toList⟩
      rw [Token.names, Token.scan, hscan]
      exact List.mem_cons_self
    · rintro ⟨t, ht, -, hcore, rfl⟩
      obtain ⟨hscan, hkind⟩ := Token.mem_names.mp ht
      refine ⟨?_, hcore⟩
      rw [Token.name, String.toList_ofList]
      exact Token.letters_of_name hscan hkind

-- a letter that is not ASCII, a break at the end and a core rule in other letters
example : ["é-1", "a\n", "htab"].map RuleName.check =
    [.error (.leadingCharacter 'é'), .error (.character '\n'), .error (.coreRule "htab")] := by decide +kernel

end Abnf
