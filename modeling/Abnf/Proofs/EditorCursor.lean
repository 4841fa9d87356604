/-
The name under the cursor of an editor.

A name is made of ASCII letters, digits and hyphens.  Each of them is one byte and one UTF-16 unit, and
none of them ends a line, so the positions in a name are a run of columns in one line, whatever comes
before it there (`Token.exists_positions_of_name`).  The offset of each of these positions is in the
name, and the search in the tree finds the node of the name from it (`cursor_finds_name`).
-/
import Abnf.Proofs.EditorPositions
import Abnf.Proofs.OpenDocuments
import Abnf.Proofs.Resolution

namespace Abnf

/-! ### Characters of names -/

namespace Token

theorem utf16Size_of_isNameChar {c : Char} (h : isNameChar c = true) : Text.utf16Size c = 1 := by
  have hle := toNat_of_isNameChar h
  exact if_pos (by omega)

theorem isEditorBreak_of_isNameChar {c : Char} (h : isNameChar c = true) :
    Text.isEditorBreak c = false := by
  rw [Bool.eq_false_iff]
  intro hbreak
  simp only [Text.isEditorBreak, Bool.or_eq_true, beq_iff_eq] at hbreak
  rcases hbreak with (((((rfl | rfl) | rfl) | rfl) | rfl) | rfl) | rfl <;>
    exact absurd h (by decide)

/-- A text of such characters has as many bytes and units as characters. -/
theorem lengths_of_isNameChar {text : Text} (h : ∀ c ∈ text, isNameChar c = true) :
    text.byteLength = text.length ∧ text.utf16Length = text.length := by
  induction text with
  | nil => exact ⟨rfl, rfl⟩
  | cons c cs ih =>
    obtain ⟨hbytes, hunits⟩ := ih fun d hd => h d (List.mem_cons_of_mem _ hd)
    have hsize := utf8Size_of_isNameChar (h c List.mem_cons_self)
    have hsize' := utf16Size_of_isNameChar (h c List.mem_cons_self)
    rw [Text.byteLength, Text.utf16Length, List.length_cons]
    omega

/-! ### Positions in names -/

/-- The places in a name, and the one at its end, are the columns of a line one after the other. -/
theorem exists_positions_of_name {source : Text} {t : Token} (ht : t ∈ scan source)
    (hkind : t.kind = .identifier) :
    ∃ line column, ∀ n ≤ t.text.length, source.IsBoundary (t.start + n) ∧
      source.editorPositionOf (t.start + n) = ⟨line, column + n⟩ := by
  obtain ⟨before, after, hsource, hstart⟩ := exists_append_of_mem ht
  obtain ⟨lines, line, rfl, hcut⟩ :=
    Text.exists_lineCut Text.isEditorBreak before (t.text ++ after)
  refine ⟨(Text.breakEnds Text.isEditorBreak 0 lines).length, line.utf16Length, fun n hn => ?_⟩
  -- the cut after the first characters of the name
  have hname : ∀ c ∈ t.text.take n, isNameChar c = true :=
    fun c hc => isNameChar_of_mem_name ht hkind (List.mem_of_mem_take hc)
  obtain ⟨hbytes, hunits⟩ := lengths_of_isNameChar hname
  rw [List.length_take, Nat.min_eq_left hn] at hbytes hunits
  have hsplit : t.text ++ after = t.text.take n ++ (t.text.drop n ++ after) := by
    rw [← List.append_assoc, List.take_append_drop]
  have hinside : Text.LineCut Text.isEditorBreak lines (line ++ t.text.take n)
      (t.text.drop n ++ after) := by
    rw [hsplit] at hcut
    refine ⟨?_, hcut.piece.append _ (Text.unbroken_of_forall _ ?_ _)⟩
    · rw [List.append_assoc]
      exact hcut.whole
    · exact fun c hc => isEditorBreak_of_isNameChar (hname c hc)
  have htext : source = lines ++ ((line ++ t.text.take n) ++ (t.text.drop n ++ after)) := by
    rw [hsource, hsplit]
    simp only [List.append_assoc]
  have hoffset : t.start + n = Text.byteLength (lines ++ (line ++ t.text.take n)) := by
    rw [← List.append_assoc, Text.byteLength_append, hbytes, hstart, Nat.zero_add]
  refine ⟨⟨_, _, htext.trans (List.append_assoc _ _ _).symm, hoffset.symm⟩, ?_⟩
  rw [Text.editorPositionOf_cut hinside htext hoffset, Text.utf16Length_append, hunits]

/-- The range of a name is in one line and inside of the text, and its columns lead into the name. -/
theorem exists_range_of_name {source : Text} {t : Token} (ht : t ∈ scan source)
    (hkind : t.kind = .identifier) :
    ∃ line column length, 0 < length ∧
      source.editorRangeOf t.span = ⟨⟨line, column⟩, ⟨line, column + length⟩⟩ ∧
      line ≤ source.byteLength ∧ column + length ≤ source.byteLength ∧
      ∀ n < length, source.editorOffsetOf? ⟨line, column + n⟩ = some (t.start + n) ∧
        t.span.contains (t.start + n) = true := by
  obtain ⟨line, column, hplaces⟩ := exists_positions_of_name ht hkind
  obtain ⟨hbytes, -⟩ := lengths_of_isNameChar fun c hc => isNameChar_of_mem_name ht hkind hc
  have hpos : 0 < t.text.length := by
    obtain ⟨c, w, hletters, -⟩ := letters_of_name ht hkind
    rw [hletters]
    exact Nat.succ_pos _
  have hstart : source.editorPositionOf t.start = ⟨line, column⟩ := (hplaces 0 (Nat.zero_le _)).2
  obtain ⟨hboundary, hstop⟩ := hplaces t.text.length (Nat.le_refl _)
  obtain ⟨hline, hcolumn⟩ := Text.editorPositionOf_le hboundary
  rw [hstop] at hline hcolumn
  refine ⟨line, column, t.text.length, hpos, ?_, Nat.le_trans hline hboundary.le,
    Nat.le_trans hcolumn hboundary.le, fun n hn => ⟨?_, ?_⟩⟩
  · rw [Text.editorRangeOf, span, hstart, hbytes, hstop]
  · obtain ⟨hplace, hposition⟩ := hplaces n (Nat.le_of_lt hn)
    rw [← hposition]
    exact Text.editorOffsetOf?_editorPositionOf hplace
  · refine Span.contains_iff.mpr ⟨Nat.le_add_right _ _, ?_⟩
    show t.start + n < t.start + t.text.byteLength
    omega

end Token

theorem Session.locate?_of_get? {session : Session} {uri : String} {index : Index}
    (hentry : session.store.get? uri = some index) {position : EditorPosition} {offset : Nat}
    (hoffset : index.tree.source.editorOffsetOf? position = some offset) :
    session.locate? ⟨uri, position⟩ = some (index, offset) := by
  rw [locate?, hentry]
  show (index.tree.source.editorOffsetOf? position).bind _ = _
  rw [hoffset]
  rfl

/-- An editor's cursor on a name finds the name.  Take any messages after which a new server still runs,
and a document that is open then: the server knows the index of its text.  Let the text have less than
`2 ^ 32` bytes.  Each name in it is in one line, with at least one column, and its bounds fit into 32
bits.  Each position from the first column of the name up to the last one, asked for in the document,
gives the offset as many bytes after the start of the name.  The target there is the node of this name,
and the range of the node is the one that the columns were taken from. -/
theorem cursor_finds_name (config : Config) (messages : List Message) (session : Session)
    (hrunning : (Phase.running (.fresh config)).after messages = .running session) (uri : String)
    (hopen : session.openDocuments.contains uri = true) :
    ∃ text, messages.foldl (Message.textAfter config uri) none = some text ∧
      let source : Text := text.toList
      let index := Index.ofTree uri (parse defaultNestingLimit source)
      session.store.get? uri = some index ∧
        (source.byteLength < UInt32.size → ∀ t ∈ Token.scan source, t.kind = .identifier →
          let range := Session.rangeOf index t.span
          range.stop.line = range.start.line ∧ range.start.character < range.stop.character ∧
            range.stop.line < UInt32.size ∧ range.stop.character < UInt32.size ∧
            ∀ character, range.start.character ≤ character → character < range.stop.character →
              let offset := t.start + (character - range.start.character)
              session.locate? ⟨uri, ⟨range.start.line, character⟩⟩ = some (index, offset) ∧
                ∃ s ∈ index.tree.sites, index.targetAt? offset = some s ∧
                  s.node = Grammar.nameNode t ∧ Session.rangeOf index s.node.span = range) := by
  have hholds := (Session.Holds.fresh config).foldl messages
  rw [← Phase.told_of_after hrunning] at hholds
  rw [hholds.isOpen] at hopen
  obtain ⟨text, htext⟩ := Option.isSome_iff_exists.mp hopen
  refine ⟨text, htext, ?_⟩
  intro source index
  have hentry : session.store.get? uri = some index := by
    rw [hholds.entry, htext]
    rfl
  refine ⟨hentry, fun hlength t ht hkind => ?_⟩
  obtain ⟨line, column, length, hpos, hrange, hline, hcolumn, hplaces⟩ :=
    Token.exists_range_of_name ht hkind
  have hbounds : Session.rangeOf index t.span = ⟨⟨line, column⟩, ⟨line, column + length⟩⟩ := hrange
  intro range
  rw [show range = _ from hbounds]
  refine ⟨rfl, Nat.lt_add_of_pos_right hpos, Nat.lt_of_le_of_lt hline hlength,
    Nat.lt_of_le_of_lt hcolumn hlength, fun character hfirst hlast => ?_⟩
  -- the cursor is as many columns after the start of the name as bytes
  obtain ⟨n, rfl⟩ : ∃ n, character = column + n := Nat.exists_eq_add_of_le hfirst
  obtain ⟨hoffset, hcontains⟩ := hplaces n (Nat.lt_of_add_lt_add_left hlast)
  obtain ⟨s, hs, htarget, hnode⟩ :=
    SyntaxTree.targetAt?_of_name defaultNestingLimit ht hkind hcontains
  dsimp only
  rw [Nat.add_sub_cancel_left]
  refine ⟨Session.locate?_of_get? hentry hoffset, s, hs, htarget, hnode, ?_⟩
  rw [hnode, span_nameNode]
  exact hbounds

/-- The second letter of a name after a character of two units, in the line after a line separator.  Both
are in a string. -/
theorem cursor_finds_name_after_separator :
    let text := "a = \"𝄞\u2028𝄞\" bc"
    let messages : List Message :=
      [.notification "textDocument/didOpen"
        (.arr [.arr [.str "file:///a", .str "abnf", .int 1, .str text]])]
    let index := Index.ofTree "file:///a" (parse defaultNestingLimit text.toList)
    let t : Token := ⟨.identifier, "bc".toList, 18, false⟩
    ∃ session, (Phase.running (.fresh {})).after messages = .running session ∧
      session.openDocuments.contains "file:///a" = true ∧ t ∈ Token.scan text.toList ∧
      Session.rangeOf index t.span = ⟨⟨1, 4⟩, ⟨1, 6⟩⟩ ∧
      session.locate? ⟨"file:///a", ⟨1, 5⟩⟩ = some (index, 19) ∧
      ∃ s ∈ index.tree.sites, index.targetAt? 19 = some s ∧ s.node = Grammar.nameNode t := by
  intro text messages index t
  have hrunning : (Phase.running (.fresh {})).after messages = .running _ := rfl
  have ht : t ∈ Token.scan text.toList := by decide +kernel
  have hrange : Session.rangeOf index t.span = ⟨⟨1, 4⟩, ⟨1, 6⟩⟩ := by decide +kernel
  refine ⟨_, hrunning, rfl, ht, hrange, ?_⟩
  obtain ⟨text', htext, hentry, hnames⟩ :=
    cursor_finds_name {} messages _ hrunning "file:///a" rfl
  obtain rfl : text = text' := Option.some.inj htext
  obtain ⟨-, -, -, -, hcursor⟩ := hnames (by decide) t ht rfl
  have hsecond := hcursor 5
  rw [hrange] at hsecond
  obtain ⟨hlocate, s, hs, htarget, hnode, -⟩ := hsecond (by decide) (by decide)
  exact ⟨hlocate, s, hs, htarget, hnode⟩

end Abnf
