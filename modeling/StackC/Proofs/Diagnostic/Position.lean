import StackC.Proofs.Diagnostic.Caret

/-! The line and the column of an offset, the line that is shown for it and the caret below that
line agree with each other. -/
namespace StackC

namespace Text

/-- The lines of a text are one more than its newlines. -/
theorem length_splitOn (t : Bytes) : (t.splitOn newline).length = t.count newline + 1 := by
  induction t with
  | nil => simp
  | cons b t ih =>
    rw [List.splitOn_cons_eq_if_modifyHead, List.count_cons]
    split
    · rw [List.length_cons, ih]
    · rw [List.length_modifyHead, ih, Nat.add_zero]

end Text

namespace Source

/-- The number of bytes of lines that each have a newline behind them. -/
def width : List Bytes → Nat
  | [] => 0
  | line :: lines => line.length + 1 + width lines

/-- The bytes of a text are those of its lines and the newlines between them. -/
theorem width_splitOn (t : Bytes) : width (t.splitOn Text.newline) = t.length + 1 := by
  induction t with
  | nil => simp [width]
  | cons b t ih =>
    rw [List.splitOn_cons_eq_if_modifyHead]
    split
    · rw [width, ih, List.length_cons, List.length_nil]
      omega
    · obtain ⟨l, ls, hl⟩ := List.exists_cons_of_ne_nil (List.splitOn_ne_nil Text.newline t)
      rw [hl, width] at ih
      rw [hl, List.modifyHead_cons, width, List.length_cons, List.length_cons]
      omega

/-- A place in a text and the line around it belong to the byte at an offset. -/
structure Locates (src : Bytes) (offset : Nat) (place : Position) (text : Bytes) : Prop where
  /-- The line has the number of the place. Numbers begin with 1. -/
  numbered : 0 < place.line ∧ (src.splitOn Text.newline)[place.line - 1]? = some text
  inLine : 0 ≤ place.column ∧ place.column ≤ text.length
  /-- The column is counted from behind the earlier lines. -/
  counted : (offset : Int) =
    place.column + width ((src.splitOn Text.newline).take (place.line - 1))
  /-- The byte stands in the column of the line. -/
  shown : offset < src.length → src[offset]? ≠ some Text.newline →
    text[place.column.toNat]? = src[offset]?
  /-- A newline and the end of the text stand behind the line. -/
  behind : offset = src.length ∨ src[offset]? = some Text.newline → place.column = text.length

section Locates

variable {src before line after : Bytes} {place : Position}

/-- The lines before one of the lines of a text. -/
theorem CutsLine.splitOn_eq (h : CutsLine src before line after) : ∃ earlier later,
    src.splitOn Text.newline = earlier ++ line :: later ∧
      earlier.length = before.count Text.newline ∧ width earlier = before.length := by
  obtain ⟨later, hlater⟩ : ∃ later, (line ++ after).splitOn Text.newline = line :: later := by
    rcases h.ends with rfl | ⟨t, rfl⟩
    · exact ⟨[], by rw [List.append_nil, List.splitOn_eq_singleton h.single]⟩
    · exact ⟨_, List.splitOn_append_cons_self_of_not_mem h.single t⟩
  rw [h.whole, List.append_assoc]
  rcases h.starts with rfl | ⟨t, rfl⟩
  · exact ⟨[], later, by simpa using hlater, by simp [width]⟩
  · refine ⟨t.splitOn Text.newline, later, ?_, ?_, ?_⟩
    · rw [List.append_assoc, List.singleton_append, List.splitOn_append_cons_self, hlater]
    · rw [Text.length_splitOn, List.count_append, List.count_singleton_self]
    · rw [width_splitOn, List.length_append, List.length_singleton]

theorem CutsLine.getElem?_eq (h : CutsLine src before line after) (column : Nat) :
    src[before.length + column]? = (line ++ after)[column]? := by
  rw [h.whole, List.append_assoc, List.getElem?_append_right (Nat.le_add_right _ _),
    Nat.add_sub_cancel_left]

/-- Only a newline or the end of the text stands behind a line. -/
theorem CutsLine.column_eq_iff (h : CutsLine src before line after) {column : Nat}
    (hc : column ≤ line.length) : column = line.length ↔
      before.length + column = src.length ∨
        src[before.length + column]? = some Text.newline := by
  have hat := h.getElem?_eq column
  constructor
  · rintro rfl
    rw [List.getElem?_append_right (Nat.le_refl _), Nat.sub_self] at hat
    rcases h.ends with rfl | ⟨t, rfl⟩
    · left
      rw [h.whole, List.append_nil, List.length_append]
    · exact .inr hat
  · intro hend
    refine Nat.le_antisymm hc (Nat.le_of_not_lt fun hlt => ?_)
    rw [List.getElem?_append_left hlt, List.getElem?_eq_getElem hlt] at hat
    rcases hend with hend | hend
    · rw [hend, List.getElem?_eq_none (Nat.le_refl _)] at hat
      cases hat
    · rw [hend, Option.some.injEq] at hat
      exact h.single (hat ▸ List.getElem_mem hlt)

theorem CutsLine.locates (h : CutsLine src before line after) {column : Nat}
    (hc : column ≤ line.length) :
    Locates src (before.length + column) ⟨before.count Text.newline + 1, column⟩ line := by
  obtain ⟨earlier, later, hsplit, hcount, hwidth⟩ := h.splitOn_eq
  have hend := h.column_eq_iff hc
  rw [← hcount]
  constructor
  · refine ⟨Nat.succ_pos _, ?_⟩
    rw [hsplit, Nat.add_sub_cancel, List.getElem?_append_right (Nat.le_refl _), Nat.sub_self,
      List.getElem?_cons_zero]
  · exact ⟨Int.natCast_nonneg column, Int.ofNat_le.mpr hc⟩
  · rw [hsplit, Nat.add_sub_cancel, List.take_left, hwidth, Int.natCast_add, Int.add_comm]
  · intro hlt hn
    have hne : column ≠ line.length := fun he => (hend.mp he).elim (Nat.ne_of_lt hlt) hn
    rw [h.getElem?_eq, Int.toNat_natCast, List.getElem?_append_left (Nat.lt_of_le_of_ne hc hne)]
  · intro he
    exact congrArg Nat.cast (hend.mpr he)

theorem locates_position {offset : Nat} (h : offset ≤ src.length) :
    Locates src offset (position src offset) (lineAt src offset) := by
  obtain ⟨before, after, hcut, hpos, hle, hge⟩ := cutsLine_lineAt h
  have hlocates := hcut.locates (Nat.sub_le_iff_le_add'.mpr hge)
  rw [Nat.add_sub_cancel' hle] at hlocates
  rw [hpos, ← Int.ofNat_sub hle]
  exact hlocates

/-- The place and its line tell the offset. -/
theorem Locates.offset_unique {a b : Nat} (ha : Locates src a place line)
    (hb : Locates src b place after) : a = b := by
  have hab := ha.counted.trans hb.counted.symm
  omega

end Locates

/-- Blanks that reach up to a column of a line as it is shown, whatever the width of a tab. -/
structure Reaches (text : Bytes) (column : Int) (blanks : Bytes) : Prop where
  length : (blanks.length : Int) = column
  tabs : ∀ i < blanks.length,
    blanks[i]? = some (if text[i]? = some (byte '\t') then byte '\t' else byte ' ')

private theorem reaches_indent {text : Bytes} {column : Int} (hlo : 0 ≤ column)
    (hhi : column ≤ text.length) : Reaches text column (indent text column.toNat) := by
  have hlen : (indent text column.toNat).length = column.toNat := by
    rw [indent, List.length_map, List.length_take]
    omega
  refine ⟨by omega, fun i hi => ?_⟩
  rw [hlen] at hi
  have hline : i < text.length := by omega
  rw [indent, List.getElem?_map, List.getElem?_take_of_lt hi, List.getElem?_eq_getElem hline]
  by_cases ht : text[i] = byte '\t'
  · simp [ht]
  · simp [ht]

end Source

/-- A message about a place in the source, over the line of that place. -/
theorem Diagnostic.render_of_offset {src : Bytes} {offset : Nat} {d : Diagnostic}
    (hd : d.offset = offset) (h : offset ≤ src.length) (color : Bool) :
    let place := Source.position src offset
    let line := Source.lineAt src offset
    d.render src color =
      (if src.contains Text.newline then
        ascii "line " ++ Text.decimalNat place.line ++ ascii ": " ++ d.stage.text ++ [Text.newline]
      else []) ++ line ++ [Text.newline] ++
      paint color (Source.indent line place.column.toNat ++ ascii "^ " ++
        if src.contains Text.newline then d.message else d.text) ++ [Text.newline] := by
  have hin : ¬(decide (d.offset < 0) || decide ((src.length : Int) < d.offset)) := by
    simp only [Bool.or_eq_true, decide_eq_true_eq]
    omega
  rw [render, if_neg hin]
  simp only [hd, Int.toNat_natCast]
  rfl

/-- The line and the column of an offset belong to the line that is shown for it: the line has that
number, and the byte at the offset stands in that column, or the column is the first behind the
line. So no two offsets have one place. The caret is shown under that line, behind blanks that are
as wide as the line is before that byte. -/
theorem Source.position_agrees {src : Bytes} {offset : Nat} (h : offset ≤ src.length) :
    let place := position src offset
    let line := lineAt src offset
    let blanks := indent line place.column.toNat
    Locates src offset place line ∧
      (∀ other ≤ src.length, position src other = place → other = offset) ∧
      Reaches line place.column blanks ∧
      ∀ (d : Diagnostic) (color : Bool), d.offset = offset → d.render src color =
        (if src.contains Text.newline then
          ascii "line " ++ Text.decimalNat place.line ++ ascii ": " ++ d.stage.text ++
            [Text.newline]
        else []) ++ line ++ [Text.newline] ++
        Diagnostic.paint color (blanks ++ ascii "^ " ++
          if src.contains Text.newline then d.message else d.text) ++ [Text.newline] := by
  intro place line blanks
  have hplace := locates_position h
  refine ⟨hplace, fun other ho he => ?_, reaches_indent hplace.inLine.1 hplace.inLine.2,
    fun d color hd => Diagnostic.render_of_offset hd h color⟩
  have hother := locates_position ho
  rw [he] at hother
  exact hother.offset_unique hplace

/-- The end of a line behind a tab, with an empty line before it. -/
theorem Source.position_agrees_lineEnd :
    let src := ascii "a\n\n\tb\nc"
    5 ≤ src.length ∧ position src 5 = ⟨3, 2⟩ ∧ lineAt src 5 = ascii "\tb" ∧
      Locates src 5 ⟨3, 2⟩ (ascii "\tb") ∧ Reaches (ascii "\tb") 2 (ascii "\t ") := by
  intro src
  have h : 5 ≤ src.length := by decide
  have hplace : position src 5 = ⟨3, 2⟩ := by decide
  have hline : lineAt src 5 = ascii "\tb" := by decide
  obtain ⟨hlocates, -, hreaches, -⟩ := position_agrees h
  rw [Int.cast_ofNat_Int, hplace, hline] at hlocates hreaches
  exact ⟨h, hplace, hline, hlocates, hreaches⟩

end StackC
