import StackC.Text.Bytes

/-! The lines of a text, and texts made of lines that each end in a newline. -/
namespace StackC.Text

/-- Lines without a newline of their own are what stands between the newlines of their text. -/
theorem splitOn_lines {ts : List Bytes} (h : ∀ t ∈ ts, newline ∉ t) :
    (ts.flatMap (· ++ [newline])).splitOn newline = ts ++ [[]] := by
  induction ts with
  | nil => simp
  | cons t ts ih =>
    rw [List.forall_mem_cons] at h
    rw [List.flatMap_cons, List.append_assoc, List.singleton_append,
      List.splitOn_append_cons_self_of_not_mem h.1, ih h.2, List.cons_append]

theorem lines_inj {ts us : List Bytes} (ht : ∀ t ∈ ts, newline ∉ t) (hu : ∀ u ∈ us, newline ∉ u)
    (h : ts.flatMap (· ++ [newline]) = us.flatMap (· ++ [newline])) : ts = us := by
  have hs := congrArg (List.splitOn newline) h
  rw [splitOn_lines ht, splitOn_lines hu] at hs
  exact List.append_cancel_right hs

section Cutting

variable {t l m : Bytes} {ls : List Bytes}

private theorem lines_newline (t : Bytes) : lines (newline :: t) = [newline] :: lines t := by
  simp [lines]

theorem lines_eq_nil : lines t = [] ↔ t = [] := by
  cases t with
  | nil => simp [lines]
  | cons b t =>
    rw [lines]
    split
    · simp
    · split <;> simp

/-- The lines concatenate to the text. -/
@[simp] theorem flatten_lines (t : Bytes) : (lines t).flatten = t := by
  induction t with
  | nil => rfl
  | cons b t ih =>
    rw [lines]
    split
    · rw [List.flatten_cons, ih, List.singleton_append]
    · split
      · next h =>
        rw [lines_eq_nil.mp h]
        rfl
      · next l ls h =>
        rw [h, List.flatten_cons] at ih
        rw [List.flatten_cons, List.cons_append, ih]

/-- Text without a newline goes into the first line of what follows. -/
theorem lines_append_of_notMem (hm : newline ∉ m) (h : lines t = l :: ls) :
    lines (m ++ t) = (m ++ l) :: ls := by
  induction m with
  | nil => exact h
  | cons b m ih =>
    rw [List.mem_cons, not_or] at hm
    rw [List.cons_append, lines, ih hm.2, if_neg (by simpa using Ne.symm hm.1)]
    rfl

theorem lines_line (hm : newline ∉ m) (t : Bytes) :
    lines (m ++ newline :: t) = (m ++ [newline]) :: lines t :=
  lines_append_of_notMem hm (lines_newline t)

theorem lines_of_notMem (hm : newline ∉ m) (hne : m ≠ []) : lines m = [m] := by
  obtain ⟨m, b, rfl⟩ := List.eq_nil_or_concat m |>.resolve_left hne
  have hb : lines [b] = [[b]] := by
    have hb : b ≠ newline := fun he => hm (by simp [he])
    simp [lines, hb]
  rw [List.concat_eq_append, List.mem_append, not_or] at hm
  exact List.concat_eq_append ▸ lines_append_of_notMem hm.1 hb

end Cutting

/-- The lines of a text: all but the last end in a newline, and there is no other newline. -/
inductive Lined : List Bytes → Prop
  | nil : Lined []
  | last {t : Bytes} (filled : t ≠ []) (within : newline ∉ t) : Lined [t]
  | cons {t : Bytes} {ls : List Bytes} (within : newline ∉ t) (rest : Lined ls) :
      Lined ((t ++ [newline]) :: ls)

def Ended (t : Bytes) : Prop := t.getLast? = some newline

theorem ended_append (t : Bytes) {u : Bytes} (h : Ended u) : Ended (t ++ u) := by
  rw [Ended, List.getLast?_append, h]
  rfl

theorem ended_line (t : Bytes) : Ended (t ++ [newline]) := ended_append t rfl

section Lined

variable {l : Bytes} {ls ms : List Bytes}

theorem lined_lines (t : Bytes) : Lined (lines t) := by
  induction t with
  | nil => exact .nil
  | cons b t ih =>
    rw [lines]
    split
    · next hb =>
      rw [beq_iff_eq] at hb
      subst hb
      exact .cons (t := []) List.not_mem_nil ih
    · next hb =>
      have hb' : newline ≠ b := fun he => hb (by simp [he])
      split
      · exact .last (List.cons_ne_nil _ _) (by simpa using hb')
      · next l ls h =>
        rw [h] at ih
        cases ih with
        | last filled within => exact .last (List.cons_ne_nil _ _) (by simp [hb', within])
        | @cons t _ within rest => exact .cons (t := b :: t) (by simp [hb', within]) rest

theorem Lined.ne_nil (h : Lined ls) : ∀ l ∈ ls, l ≠ [] := by
  induction h with
  | nil => simp
  | last filled within => simpa using filled
  | cons within rest ih => simpa using ih

theorem Lined.lines_flatten (h : Lined ls) : lines ls.flatten = ls := by
  induction h with
  | nil => rfl
  | last filled within => simpa using lines_of_notMem within filled
  | cons within rest ih =>
    rw [List.flatten_cons, List.append_assoc, List.singleton_append, lines_line within, ih]

theorem lined_cons : Lined (l :: ls) ↔ lines l = [l] ∧ (ls = [] ∨ Ended l) ∧ Lined ls := by
  constructor
  · intro h
    cases h with
    | last filled within => exact ⟨lines_of_notMem within filled, .inl rfl, .nil⟩
    | cons within rest => exact ⟨lines_line within [], .inr (ended_line _), rest⟩
  · rintro ⟨hl, hend, hls⟩
    have h : Lined [l] := hl ▸ lined_lines l
    cases h with
    | last filled within =>
      rcases hend with rfl | he
      · exact .last filled within
      · exact absurd (List.mem_of_getLast? he) within
    | cons within _ => exact .cons within hls

theorem lined_append :
    Lined (ls ++ ms) ↔ Lined ls ∧ Lined ms ∧ (ms = [] ∨ ∀ l ∈ ls, Ended l) := by
  induction ls with
  | nil => simp [Lined.nil]
  | cons l ls ih =>
    rw [List.cons_append, lined_cons, lined_cons, ih, List.append_eq_nil_iff, List.forall_mem_cons]
    by_cases hm : ms = []
    · simp [hm, Lined.nil]
    · simp only [hm, and_false, false_or]
      constructor
      · rintro ⟨hl, he, hls, hms, hall⟩
        exact ⟨⟨hl, .inr he, hls⟩, hms, he, hall⟩
      · rintro ⟨⟨hl, -, hls⟩, hms, he, hall⟩
        exact ⟨hl, he, hls, hms, hall⟩

end Lined

end StackC.Text
