import StackC.Markdown.Fence
import StackC.Proofs.Markdown.Layout

/-! Indentation, and what the reader makes of the lines of a fence. -/
namespace StackC.Markdown

/-- The text is not indented. -/
def Flush (t : Bytes) : Prop := ∀ b ∈ t.head?, isPad b = false

/-- The start of a line that is not part of the code: no more than `indent` spaces, or less and a
tab. -/
inductive Margin (indent : Nat) : Bytes → Prop
  | spaces {k : Nat} (short : k ≤ indent) : Margin indent (List.replicate k (byte ' '))
  | tab {k : Nat} (short : k < indent) :
      Margin indent (List.replicate k (byte ' ') ++ [byte '\t'])

/-- What a margin leaves to the code. A tab goes up to the fourth column. -/
def leftBy (indent : Nat) (margin : Bytes) : Bytes :=
  if margin.contains (byte '\t') then List.replicate (4 - indent) (byte ' ') else []

/-- A line that is code wherever it stands in a fence: behind the margin it begins with neither a
blank nor a mark. -/
structure CodeText.Plain (indent : Nat) (c : CodeText) : Prop where
  margin : Margin indent c.margin
  rest : ∃ t, Inert t ∧ c.rest = t ++ [Text.newline]
  text : c.text = leftBy indent c.margin ++ c.rest

theorem Margin.newline_notMem {indent : Nat} {m : Bytes} (h : Margin indent m) :
    Text.newline ∉ m := by
  have hspaces (k : Nat) : Text.newline ∉ List.replicate k (byte ' ') := fun hn =>
    absurd (List.eq_of_mem_replicate hn) (by decide)
  cases h with
  | spaces short => exact hspaces _
  | tab short => exact List.not_mem_append (hspaces _) (by decide)

theorem Margin.eq_spaces {indent : Nat} {m : Bytes} (h : Margin indent m) (htab : byte '\t' ∉ m) :
    m = List.replicate m.length (byte ' ') := by
  cases h with
  | spaces short => rw [List.length_replicate]
  | tab short => exact absurd (List.mem_append_right _ List.mem_cons_self) htab

theorem leftBy_spaces (indent k : Nat) : leftBy indent (List.replicate k (byte ' ')) = [] := by
  rw [leftBy, if_neg]
  rw [List.contains_iff_mem]
  exact fun h => absurd (List.eq_of_mem_replicate h) (by decide)

theorem leftBy_tab (indent k : Nat) : leftBy indent (List.replicate k (byte ' ') ++ [byte '\t']) =
    List.replicate (4 - indent) (byte ' ') := if_pos (by simp)

theorem Margin.pads {indent : Nat} {m : Bytes} (h : Margin indent m) : ∀ b ∈ m, isPad b := by
  have hspaces (k : Nat) : ∀ b ∈ List.replicate k (byte ' '), isPad b := fun b hb => by
    rw [List.eq_of_mem_replicate hb]
    rfl
  cases h with
  | spaces short => exact hspaces _
  | tab short => exact List.forall_mem_append.mpr ⟨hspaces _, List.forall_mem_singleton.mpr rfl⟩

/-- What stands behind the margin of a line that is code. -/
theorem CodeText.Plain.exists_rest {c : CodeText} {indent : Nat} (h : c.Plain indent) :
    ∃ b v, c.rest = b :: v ∧ b ≠ Text.newline ∧ isPad b = false ∧ isMark b = false := by
  obtain ⟨t, ht, hrest⟩ := h.rest
  have hbegins := ht.begins
  cases t with
  | nil => cases hbegins
  | cons b v =>
    rw [List.head?_cons, Option.any_some, Bool.and_eq_true, Bool.not_eq_true',
      Bool.not_eq_true'] at hbegins
    exact ⟨b, _, hrest, fun he => ht.within (he ▸ List.mem_cons_self), hbegins⟩

section Indentation

variable {limit k : Nat} {i : Indent} {t u : Bytes}

theorem indentUpTo_full (h : limit ≤ i.columns) (t : Bytes) : indentUpTo limit i t = i := by
  cases t with
  | nil => rfl
  | cons b t => rw [indentUpTo, if_pos h]

theorem indentUpTo_flush (h : Flush t) : indentUpTo limit i t = i := by
  cases t with
  | nil => rfl
  | cons b t =>
    have hb := h b rfl
    rw [isPad, Bool.or_eq_false_iff] at hb
    simp [indentUpTo, hb.1, hb.2]

theorem indentUpTo_space (h : i.columns < limit) (t : Bytes) :
    indentUpTo limit i (byte ' ' :: t) = indentUpTo limit ⟨i.columns + 1, i.bytes + 1⟩ t := by
  rw [indentUpTo, if_neg (Nat.not_le.mpr h), if_pos (by simp)]

theorem indentUpTo_spaces (h : i.columns + k ≤ limit) (u : Bytes) :
    indentUpTo limit i (List.replicate k (byte ' ') ++ u) =
      indentUpTo limit ⟨i.columns + k, i.bytes + k⟩ u := by
  induction k generalizing i with
  | zero => rfl
  | succ k ih =>
    rw [List.replicate_succ, List.cons_append, indentUpTo_space (by omega),
      ih (by simp only; omega)]
    simp only [Nat.add_assoc, Nat.add_comm 1]

theorem indentUpTo_tab (hlimit : limit ≤ 3) (h : i.columns < limit) (t : Bytes) :
    indentUpTo limit i (byte '\t' :: t) = ⟨4, i.bytes + 1⟩ := by
  have hcolumns : i.columns + (4 - i.columns % 4) = 4 := by omega
  rw [indentUpTo, if_neg (Nat.not_le.mpr h), if_neg (by decide), if_pos (by simp), hcolumns,
    indentUpTo_full (by simp only; omega)]

/-- Up to three columns are all spaces, or are reached by a tab. -/
theorem indentUpTo_cases (hlimit : limit ≤ 3) (hi : i.columns ≤ limit) (t : Bytes) :
    (∃ k u, t = List.replicate k (byte ' ') ++ u ∧ i.columns + k ≤ limit ∧
        indentUpTo limit i t = ⟨i.columns + k, i.bytes + k⟩) ∨
      ∃ k u, t = List.replicate k (byte ' ') ++ byte '\t' :: u ∧ i.columns + k < limit ∧
        indentUpTo limit i t = ⟨4, i.bytes + k + 1⟩ := by
  induction t generalizing i with
  | nil => exact .inl ⟨0, [], rfl, hi, rfl⟩
  | cons b t ih =>
    by_cases hfull : limit ≤ i.columns
    · exact .inl ⟨0, b :: t, rfl, hi, indentUpTo_full hfull _⟩
    by_cases hs : b = byte ' '
    · subst hs
      rw [indentUpTo_space (by omega)]
      rcases ih (i := ⟨i.columns + 1, i.bytes + 1⟩) (by simp only; omega) with
        ⟨k, u, rfl, hk, h⟩ | ⟨k, u, rfl, hk, h⟩
      · refine .inl ⟨k + 1, u, rfl, by simp only at hk; omega, ?_⟩
        rw [h]
        simp only [Nat.add_assoc, Nat.add_comm 1]
      · refine .inr ⟨k + 1, u, rfl, by simp only at hk; omega, ?_⟩
        rw [h]
        simp only [Nat.add_assoc, Nat.add_comm 1]
    by_cases ht : b = byte '\t'
    · subst ht
      exact .inr ⟨0, t, rfl, by omega, indentUpTo_tab hlimit (by omega) t⟩
    · have hflush : Flush (b :: t) := by simp [Flush, isPad, hs, ht]
      exact .inl ⟨0, b :: t, rfl, hi, indentUpTo_flush hflush⟩

/-- The indentation of a text behind a margin is the margin. -/
theorem indentUpTo_margin {m : Bytes} (hlimit : limit ≤ 3) (hm : Margin limit m) (hu : Flush u) :
    ∃ columns, indentUpTo limit ⟨0, 0⟩ (m ++ u) = ⟨columns, m.length⟩ ∧
      leftBy limit m = List.replicate (columns - limit) (byte ' ') := by
  cases hm with
  | @spaces k short =>
    refine ⟨k, ?_, ?_⟩
    · rw [indentUpTo_spaces (by simpa using short), indentUpTo_flush hu]
      simp
    · rw [leftBy_spaces, Nat.sub_eq_zero_of_le short, List.replicate_zero]
  | @tab k short =>
    refine ⟨4, ?_, ?_⟩
    · rw [List.append_assoc, indentUpTo_spaces (by simp only; omega), List.singleton_append,
        indentUpTo_tab hlimit (by simp only; omega)]
      simp
    · rw [leftBy_tab]

/-- Less than four columns are all spaces. -/
theorem indentUpTo_lt (h : (indentUpTo codeColumns i t).columns < codeColumns) :
    ∃ k u, t = List.replicate k (byte ' ') ++ u ∧ Flush u ∧
      indentUpTo codeColumns i t = ⟨i.columns + k, i.bytes + k⟩ := by
  induction t generalizing i with
  | nil => exact ⟨0, [], rfl, by simp [Flush], rfl⟩
  | cons b t ih =>
    by_cases hfull : codeColumns ≤ i.columns
    · rw [indentUpTo_full hfull] at h
      omega
    by_cases hs : b = byte ' '
    · subst hs
      rw [indentUpTo_space (by omega)] at h ⊢
      obtain ⟨k, u, rfl, hu, hi⟩ := ih h
      refine ⟨k + 1, u, rfl, hu, ?_⟩
      rw [hi]
      simp only [Nat.add_assoc, Nat.add_comm 1]
    by_cases ht : b = byte '\t'
    · rw [indentUpTo, if_neg hfull, if_neg (by simpa using hs), if_pos (by simpa using ht),
        indentUpTo_full (by simp only [codeColumns] at hfull ⊢; omega)] at h
      simp only [codeColumns] at h hfull
      omega
    · have hflush : Flush (b :: t) := by simp [Flush, isPad, hs, ht]
      exact ⟨0, b :: t, rfl, hflush, indentUpTo_flush hflush⟩

theorem unindented?_spaces (hk : k ≤ 3) (hu : Flush u) :
    unindented? (List.replicate k (byte ' ') ++ u) = some u := by
  have hi : indentUpTo codeColumns ⟨0, 0⟩ (List.replicate k (byte ' ') ++ u) = ⟨k, k⟩ := by
    rw [indentUpTo_spaces (by simp only [codeColumns]; omega), indentUpTo_flush hu]
    simp
  have hlt : k < codeColumns := by
    simp only [codeColumns]
    omega
  rw [unindented?, hi, if_pos hlt, List.drop_left' List.length_replicate]

theorem eq_spaces_of_unindented? (h : unindented? t = some u) :
    ∃ k ≤ 3, t = List.replicate k (byte ' ') ++ u ∧ Flush u := by
  rw [unindented?] at h
  split at h
  · next hlt =>
    obtain ⟨k, v, ht, hv, hi⟩ := indentUpTo_lt hlt
    rw [hi, Nat.zero_add] at h hlt
    rw [ht, List.drop_left' List.length_replicate, Option.some.injEq] at h
    simp only [codeColumns] at hlt
    exact ⟨k, by omega, h ▸ ht, h ▸ hv⟩
  · cases h

private theorem flush_of_marks {mark : UInt8} (hm : isMark mark) {width : Nat} (hw : 0 < width)
    (tail : Bytes) : Flush (List.replicate width mark ++ tail) := by
  obtain ⟨w, rfl⟩ := Nat.exists_eq_add_of_lt hw
  rw [isMark, Bool.or_eq_true, beq_iff_eq, beq_iff_eq] at hm
  intro b hb
  rw [Nat.zero_add, List.replicate_succ, List.cons_append, List.head?_cons,
    Option.mem_some_iff] at hb
  rw [← hb]
  rcases hm with rfl | rfl <;> rfl

end Indentation

namespace Opening

variable {o : Opening} {t : Bytes} {indent : Nat}

/-- A text begins with the run of one byte that it begins with. -/
theorem eq_replicate_append (mark : UInt8) (t : Bytes) :
    t = List.replicate (t.takeWhile (· == mark)).length mark ++ t.dropWhile (· == mark) := by
  have hall : t.takeWhile (· == mark) = List.replicate (t.takeWhile (· == mark)).length mark :=
    List.eq_replicate_iff.mpr ⟨rfl, fun b hb => by
      simpa using List.all_eq_true.mp List.all_takeWhile b hb⟩
  conv_lhs => rw [← List.takeWhile_append_dropWhile (p := (· == mark)) (l := t), hall]

def line (o : Opening) (t : Bytes) : MarkLine :=
  ⟨o.indent, o.mark, o.width, t.drop (o.indent + o.width)⟩

structure Proper (o : Opening) (t : Bytes) : Prop where
  indent : o.indent ≤ 3
  mark : isMark o.mark
  width : 3 ≤ o.width
  text : (o.line t).text = t
  tagged : o.infoStop = none → o.language = []
  info : ∀ n ∈ o.infoStop, n = (Text.trimRight isBlank t).length

theorem proper_of_opening? (h : opening? t = some o) : o.Proper t := by
  unfold opening? at h
  simp only [Option.bind_eq_bind, Option.bind_eq_some_iff] at h
  obtain ⟨body, hbody, mark, hmark, h⟩ := h
  obtain ⟨k, hk, ht, -⟩ := eq_spaces_of_unindented? hbody
  split at h
  · next hc =>
    simp only [Bool.and_eq_true, decide_eq_true_eq] at hc
    have hindent : t.length - body.length = k := by
      rw [ht, List.length_append, List.length_replicate, Nat.add_sub_cancel]
    cases h
    refine ⟨hindent ▸ hk, hc.1.1, hc.1.2, ?_, ?_, ?_⟩
    · have hmarks := eq_replicate_append mark body
      simp only [line, MarkLine.text, hindent]
      generalize (body.takeWhile (· == mark)).length = width at hmarks
      generalize body.dropWhile (· == mark) = tail at hmarks
      rw [ht, hmarks, ← List.drop_drop, List.drop_left' List.length_replicate,
        List.drop_left' List.length_replicate]
    · intro hnone
      simp only [ite_eq_left_iff, reduceCtorEq, imp_false, not_not, List.isEmpty_iff] at hnone ⊢
      rw [hnone]
      rfl
    · intro n hn
      simp only at hn
      split at hn
      · cases hn
      · cases hn
        rfl
  · cases h

/-- How far a line of marks is indented makes no difference, up to three spaces. -/
theorem closedBy_text (o : Opening) {l : MarkLine} (hmark : isMark l.mark) (hwidth : 0 < l.width)
    (hindent : l.indent ≤ 3) (hn : indent ≤ 3) :
    o.closedBy { l with indent }.text = o.closedBy l.text := by
  have hflush := flush_of_marks hmark hwidth l.tail
  rw [closedBy, closedBy, MarkLine.text, MarkLine.text, unindented?_spaces hn hflush,
    unindented?_spaces hindent hflush]

theorem exists_line_of_closedBy (h : o.closedBy t) :
    ∃ l : MarkLine, l.text = t ∧ l.indent ≤ 3 ∧ l.mark = o.mark ∧ o.width ≤ l.width := by
  unfold closedBy at h
  split at h
  · cases h
  · next body hbody =>
    obtain ⟨k, hk, rfl, -⟩ := eq_spaces_of_unindented? hbody
    rw [Bool.and_eq_true, decide_eq_true_eq] at h
    refine ⟨⟨k, o.mark, _, body.dropWhile (· == o.mark)⟩, ?_, hk, rfl, h.1⟩
    rw [MarkLine.text]
    exact congrArg _ (eq_replicate_append o.mark body).symm

/-- A line that begins with neither a blank nor a mark closes no fence. -/
theorem not_closedBy_plain (hmark : isMark o.mark) (hwidth : 0 < o.width) {c : CodeText}
    (hc : c.Plain indent) : o.closedBy c.line = false := by
  rw [← Bool.not_eq_true]
  intro hclosed
  obtain ⟨l, hl, -, hmark', hwidth'⟩ := exists_line_of_closedBy hclosed
  have hspaces (k : Nat) : ∀ b ∈ List.replicate k (byte ' '), (b == byte ' ') = true := by
    intro b hb
    rw [List.eq_of_mem_replicate hb]
    rfl
  -- Both lines are told apart by the first byte that is not a space.
  obtain ⟨k, b, v, hline, hb, hnot⟩ : ∃ k b v, c.line = List.replicate k (byte ' ') ++ b :: v ∧
      (b == byte ' ') = false ∧ isMark b = false := by
    obtain ⟨b, v, hrest, -, hpad, hnot⟩ := hc.exists_rest
    have hmargin := hc.margin
    rw [CodeText.line, hrest]
    generalize c.margin = m at hmargin
    cases hmargin with
    | spaces => exact ⟨_, b, v, rfl, (Bool.or_eq_false_iff.mp hpad).1, hnot⟩
    | tab => exact ⟨_, byte '\t', b :: v, List.append_assoc _ _ _, rfl, rfl⟩
  obtain ⟨w, hw⟩ := Nat.exists_eq_add_of_lt (Nat.lt_of_lt_of_le hwidth hwidth')
  have hm : (l.mark == byte ' ') = false := by
    rw [hmark']
    rw [isMark, Bool.or_eq_true, beq_iff_eq, beq_iff_eq] at hmark
    rcases hmark with h | h <;> rw [h] <;> rfl
  have hsame := congrArg (fun t => (List.dropWhile (· == byte ' ') t).head?) hl
  simp only [MarkLine.text, hline, List.dropWhile_append_of_pos (hspaces _), hw, Nat.zero_add,
    List.replicate_succ, List.cons_append] at hsame
  rw [List.dropWhile_cons_of_neg (by simp [hm]), List.dropWhile_cons_of_neg (by simp [hb]),
    List.head?_cons, List.head?_cons, Option.some.injEq, hmark'] at hsame
  rw [hsame, hnot] at hmark
  cases hmark

def codeText (o : Opening) (t : Bytes) : CodeText where
  margin := t.take (o.strip t).bytes
  rest := t.drop (o.strip t).bytes
  text := (o.codeLine ⟨t, 0⟩).text

theorem line_codeText (o : Opening) (t : Bytes) : (o.codeText t).line = t :=
  List.take_append_drop _ _

theorem map_line_codeText (o : Opening) (ts : List Bytes) :
    (ts.map o.codeText).map CodeText.line = ts := by
  rw [List.map_map]
  exact List.map_id'' o.line_codeText ts

theorem codeText_of_strip {m u : Bytes} {columns : Nat}
    (hs : o.strip (m ++ u) = ⟨columns, m.length⟩)
    (hleft : leftBy o.indent m = List.replicate (columns - o.indent) (byte ' ')) :
    o.codeText (m ++ u) = ⟨m, u, leftBy o.indent m ++ u⟩ := by
  simp only [codeText, codeLine, hs, hleft, List.take_left, List.drop_left]

/-- What a line loses is a margin. -/
theorem exists_margin (hindent : o.indent ≤ 3) (t : Bytes) :
    ∃ m u, t = m ++ u ∧ Margin o.indent m ∧ (o.strip t).bytes = m.length ∧
      o.codeText t = ⟨m, u, leftBy o.indent m ++ u⟩ := by
  obtain ⟨m, u, columns, rfl, hm, hs, hleft⟩ : ∃ m u columns, t = m ++ u ∧ Margin o.indent m ∧
      o.strip t = ⟨columns, m.length⟩ ∧
      leftBy o.indent m = List.replicate (columns - o.indent) (byte ' ') := by
    rw [strip]
    split
    · refine ⟨[], t, 0, rfl, .spaces (k := 0) (Nat.zero_le _), rfl, ?_⟩
      rw [Nat.zero_sub]
      exact leftBy_spaces o.indent 0
    · rcases indentUpTo_cases (i := ⟨0, 0⟩) hindent (Nat.zero_le _) t with
        ⟨k, u, ht, hk, h⟩ | ⟨k, u, ht, hk, h⟩
      · rw [Nat.zero_add] at hk
        refine ⟨_, u, k, ht, .spaces hk, ?_, ?_⟩
        · rw [h]
          simp
        · rw [leftBy_spaces, Nat.sub_eq_zero_of_le hk, List.replicate_zero]
      · rw [Nat.zero_add] at hk
        refine ⟨_, u, 4, ?_, .tab hk, ?_, leftBy_tab o.indent k⟩
        · rw [ht, List.append_assoc, List.singleton_append]
        · rw [h]
          simp
  exact ⟨m, u, rfl, hm, by rw [hs], codeText_of_strip hs hleft⟩

theorem codeLine_eq (hindent : o.indent ≤ 3) (t : Bytes) (start : Nat) : o.codeLine ⟨t, start⟩ =
    ⟨start + (o.codeText t).margin.length, start + (o.codeText t).line.length,
      (o.codeText t).text⟩ := by
  obtain ⟨m, u, -, -, hbytes, hcode⟩ := exists_margin hindent t
  have hlen : (o.codeText t).margin.length = (o.strip t).bytes := by
    rw [hcode, hbytes]
  rw [hlen, line_codeText]
  rfl

theorem margin_codeText (hindent : o.indent ≤ 3) (t : Bytes) :
    Margin o.indent (o.codeText t).margin := by
  obtain ⟨m, u, -, hm, -, hcode⟩ := exists_margin hindent t
  rw [hcode]
  exact hm

theorem codeText_plain (hindent : o.indent ≤ 3) {c : CodeText} (hc : c.Plain o.indent) :
    o.codeText c.line = c := by
  obtain ⟨b, v, hrest, hline, hpad, -⟩ := hc.exists_rest
  have hflush : Flush c.rest := by
    rw [hrest]
    simpa [Flush] using hpad
  obtain ⟨columns, hi, hleft⟩ := indentUpTo_margin hindent hc.margin hflush
  have hspace : isSpaceLine c.line = false := by
    change (c.line.dropWhile isPad).all _ = false
    rw [CodeText.line, List.dropWhile_append_of_pos hc.margin.pads, hrest,
      List.dropWhile_cons_of_neg (by simp [hpad]), List.all_cons, beq_false_of_ne hline,
      Bool.false_and]
  have hstrip : o.strip (c.margin ++ c.rest) = ⟨columns, c.margin.length⟩ := by
    rw [← CodeText.line] at hi ⊢
    rw [strip, hspace, hi, Bool.and_false, if_neg Bool.false_ne_true]
  rw [CodeText.line, codeText_of_strip hstrip hleft, ← hc.text]

end Opening

end StackC.Markdown
