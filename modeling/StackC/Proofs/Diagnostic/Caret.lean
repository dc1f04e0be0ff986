import StackC.Diagnostic

/-! A message about a place in the source is shown under the line of that place, behind a caret in
its column. -/
namespace StackC

namespace Source

/-- A text cut before and behind one of its lines. -/
structure CutsLine (src before line after : Bytes) : Prop where
  whole : src = before ++ line ++ after
  single : Text.newline ∉ line
  starts : before = [] ∨ ∃ t, before = t ++ [Text.newline]
  ends : after = [] ∨ ∃ t, after = Text.newline :: t

theorem exists_firstLine (t : Bytes) : ∃ after, t = t.takeWhile (· != Text.newline) ++ after ∧
    (after = [] ∨ ∃ u, after = Text.newline :: u) := by
  refine ⟨t.dropWhile (· != Text.newline), List.takeWhile_append_dropWhile.symm, ?_⟩
  cases hd : t.dropWhile (· != Text.newline) with
  | nil => exact .inl rfl
  | cons b u =>
    have hb := List.head?_dropWhile_not (· != Text.newline) t
    rw [hd] at hb
    simp only [List.head?_cons, bne_eq_false_iff_eq] at hb
    exact .inr ⟨u, hb ▸ rfl⟩

theorem newline_notMem_takeWhile (t : Bytes) :
    Text.newline ∉ t.takeWhile (· != Text.newline) := by
  intro h
  have hn := List.all_eq_true.mp List.all_takeWhile _ h
  simp at hn

/-- The last line of a text is its first line from behind. -/
theorem exists_lastLine (t : Bytes) : ∃ before, t = before ++ lastLine t ∧
    (before = [] ∨ ∃ u, before = u ++ [Text.newline]) := by
  obtain ⟨after, ht, ha⟩ := exists_firstLine t.reverse
  refine ⟨after.reverse, ?_, ?_⟩
  · rw [lastLine, ← List.reverse_append, ← ht, List.reverse_reverse]
  · rcases ha with rfl | ⟨u, rfl⟩
    · exact .inl rfl
    · exact .inr ⟨u.reverse, List.reverse_cons⟩

private theorem newline_notMem_lastLine (t : Bytes) : Text.newline ∉ lastLine t := by
  rw [lastLine, List.mem_reverse]
  exact newline_notMem_takeWhile t.reverse

/-- The line around an offset, and where in it the offset lies. -/
theorem cutsLine_lineAt {src : Bytes} {offset : Nat} (h : offset ≤ src.length) :
    ∃ before after, CutsLine src before (lineAt src offset) after ∧
      position src offset =
        { line := before.count Text.newline + 1, column := offset - before.length } ∧
      before.length ≤ offset ∧ offset ≤ before.length + (lineAt src offset).length := by
  obtain ⟨before, hfront, hstarts⟩ := exists_lastLine (src.take offset)
  obtain ⟨after, hback, hends⟩ := exists_firstLine (src.drop offset)
  have hlast := newline_notMem_lastLine (src.take offset)
  have hlen : offset = before.length + (lastLine (src.take offset)).length := by
    rw [← List.length_append, ← hfront, List.length_take, Nat.min_eq_left h]
  refine ⟨before, after, ⟨?_, ?_, hstarts, hends⟩, ?_, by omega, ?_⟩
  · calc src = src.take offset ++ src.drop offset := (List.take_append_drop offset src).symm
      _ = before ++ lastLine (src.take offset) ++
          ((src.drop offset).takeWhile (· != Text.newline) ++ after) := by rw [← hfront, ← hback]
      _ = before ++ lineAt src offset ++ after := by simp only [lineAt, List.append_assoc]
  · rw [lineAt, List.mem_append, not_or]
    exact ⟨hlast, newline_notMem_takeWhile _⟩
  · have hcount : (src.take offset).count Text.newline = before.count Text.newline := by
      rw [hfront, List.count_append, List.count_eq_zero_of_not_mem hlast, Nat.add_zero]
    rw [position, if_neg (by omega)]
    simp only [Int.toNat_natCast, hcount, Position.mk.injEq, true_and]
    omega
  · rw [lineAt, List.length_append]
    omega

end Source

namespace Diagnostic

/-- A text as it is shown, in red if the output has colors. -/
def paint (color : Bool) (t : Bytes) : Bytes :=
  if color then ascii "\x1b[31m" ++ t ++ ascii "\x1b[0m" else t

/-- The text shows the line of the place that the message is about, and the message behind a caret
below the byte at that place. In a source of several lines the line is numbered. -/
def PointsAt (d : Diagnostic) (src : Bytes) (color : Bool) (text : Bytes) : Prop :=
  ∃ before line after blanks, Source.CutsLine src before line after ∧
    d.offset = before.length + blanks.length ∧ blanks.length ≤ line.length ∧
    (∀ b ∈ blanks, b = byte ' ' ∨ b = byte '\t') ∧
    text =
      (if Text.newline ∈ src then
        ascii "line " ++ Text.decimalNat (before.count Text.newline + 1) ++ ascii ": " ++
          d.stage.text ++ [Text.newline]
      else []) ++ line ++ [Text.newline] ++
      paint color (blanks ++ ascii "^ " ++ if Text.newline ∈ src then d.message else d.text) ++
      [Text.newline]

/-- A message about a place inside the source or at its end points at it. -/
theorem pointsAt_render {src : Bytes} {d : Diagnostic} (color : Bool) (hlo : 0 ≤ d.offset)
    (hhi : d.offset ≤ src.length) : d.PointsAt src color (d.render src color) := by
  obtain ⟨n, hn⟩ := Int.eq_ofNat_of_zero_le hlo
  have hn' : n ≤ src.length := by omega
  obtain ⟨before, after, hcut, hpos, hle, hge⟩ := Source.cutsLine_lineAt hn'
  have hcol : ((n : Int) - before.length).toNat = n - before.length := by omega
  have hlen : (Source.indent (Source.lineAt src n) (n - before.length)).length =
      n - before.length := by
    rw [Source.indent, List.length_map, List.length_take]
    omega
  refine ⟨before, _, after, Source.indent (Source.lineAt src n) (n - before.length), hcut,
    by omega, by omega, ?_, ?_⟩
  · intro b hb
    obtain ⟨c, -, rfl⟩ := List.mem_map.mp hb
    split
    · next ht => exact .inr (beq_iff_eq.mp ht)
    · exact .inl rfl
  · have hin : ¬ (decide (d.offset < 0) || decide ((src.length : Int) < d.offset)) := by
      simp only [Bool.or_eq_true, decide_eq_true_eq]
      omega
    rw [render, if_neg hin]
    simp only [hn, hpos, hcol, Int.toNat_natCast, List.contains_iff_mem]
    rfl

/-- A message about no place is shown alone. -/
theorem render_of_neg {src : Bytes} {d : Diagnostic} (color : Bool) (h : d.offset < 0) :
    d.render src color = d.text ++ [Text.newline] := by
  simp [render, h]

end Diagnostic

end StackC
