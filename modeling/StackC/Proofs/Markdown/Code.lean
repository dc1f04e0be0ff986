import StackC.Proofs.Markdown.Layout

/-! Fences whose code is replaced by other code. -/
namespace StackC.Markdown

/-- A text of lines that are not indented and do not begin with a mark. -/
inductive Listed : Bytes → Prop
  | nil : Listed []
  | cons {t out : Bytes} (line : Inert t) (rest : Listed out) :
      Listed (t ++ Text.newline :: out)

theorem Listed.ofLines {ts : List Bytes} (h : ∀ t ∈ ts, Inert t) :
    Listed (ts.flatMap (· ++ [Text.newline])) := by
  induction ts with
  | nil => exact .nil
  | cons t ts ih =>
    rw [List.forall_mem_cons] at h
    rw [List.flatMap_cons, List.append_assoc, List.singleton_append]
    exact .cons h.1 (ih h.2)

theorem Listed.lines_eq {out : Bytes} (h : Listed out) :
    ∀ l ∈ Text.lines out, ∃ t, Inert t ∧ l = t ++ [Text.newline] := by
  induction h with
  | nil => simp [Text.lines]
  | @cons t out line rest ih =>
    rw [Text.lines_line line.within, List.forall_mem_cons]
    exact ⟨⟨t, line, rfl⟩, ih⟩

namespace Fenced

def footIndent (f : Fenced) : Nat := f.foot.elim 0 MarkLine.indent

/-- The fence with other code between its margin and its closing line. Without code the margin goes
to the closing line. -/
def withCode (f : Fenced) (out : Bytes) : Fenced :=
  f.filled (Text.lines out)
    (if out.isEmpty then f.margin.length + f.footIndent else f.footIndent)

/-- The fence ends where it did when it has no code: the margin and its closing line together are
still not indented like code. -/
structure StaysWithoutCode (f : Fenced) : Prop where
  closed : f.foot ≠ none
  spaced : byte '\t' ∉ f.margin
  near : f.margin.length + f.footIndent ≤ 3

variable {f : Fenced} {out : Bytes}

section CodeOf

theorem lines_codeOf (f : Fenced) (h : out ≠ []) :
    (f.codeOf (Text.lines out)).flatMap CodeText.line = f.margin ++ out := by
  have hflat := Text.flatten_lines out
  cases hl : Text.lines out with
  | nil => exact absurd (Text.lines_eq_nil.mp hl) h
  | cons t ts =>
    rw [hl, List.flatten_cons] at hflat
    have hrest : (ts.map fun t => (⟨[], t, t⟩ : CodeText)).flatMap CodeText.line = ts.flatten := by
      rw [List.flatMap_map]
      exact List.flatMap_id'
    rw [codeOf, List.flatMap_cons, hrest, CodeText.line, List.append_assoc, hflat]

theorem texts_codeOf (h : f.left = []) (out : Bytes) :
    (f.codeOf (Text.lines out)).flatMap CodeText.text = out := by
  have hflat := Text.flatten_lines out
  cases hl : Text.lines out with
  | nil => exact (Text.lines_eq_nil.mp hl).symm
  | cons t ts =>
    rw [hl, List.flatten_cons] at hflat
    rw [codeOf, h, List.flatMap_cons, List.flatMap_map]
    exact (congrArg (t ++ ·) List.flatMap_id').trans hflat

theorem margin_filled (f : Fenced) {ts : List Bytes} (h : ts ≠ []) (indent : Nat) :
    (f.filled ts indent).margin = f.margin := by
  cases ts with
  | nil => exact absurd rfl h
  | cons t ts => rfl

theorem codeOf_eq_nil {ts : List Bytes} : f.codeOf ts = [] ↔ ts = [] := by
  cases ts <;> simp [codeOf]

end CodeOf

theorem Proper.footIndent_le (h : f.Proper) : f.footIndent ≤ 3 := by
  rw [footIndent]
  cases hl : f.foot with
  | none => exact Nat.zero_le _
  | some l => exact (h.closing l hl).1

theorem foot_withCode_eq_none : (f.withCode out).foot = none ↔ f.foot = none :=
  Option.map_eq_none_iff

theorem body_withCode_eq_nil : (f.withCode out).body = [] ↔ out = [] :=
  codeOf_eq_nil.trans Text.lines_eq_nil

theorem foot_filled_footIndent (f : Fenced) (ts : List Bytes) :
    (f.filled ts f.footIndent).foot = f.foot := by
  rw [filled, footIndent]
  cases f.foot <;> rfl

theorem foot_withCode_nil (f : Fenced) : (f.withCode []).foot =
    f.foot.map fun l => { l with indent := f.margin.length + f.footIndent } := rfl

theorem margin_withCode (h : out ≠ []) : (f.withCode out).margin = f.margin :=
  f.margin_filled (mt Text.lines_eq_nil.mp h) _

theorem withCode_eq (h : out ≠ []) :
    f.withCode out = { f with body := f.codeOf (Text.lines out) } := by
  have hlines : (Text.lines out).isEmpty = false := by simpa [Text.lines_eq_nil] using h
  rw [withCode, if_neg (by simpa using h), ← foot_filled_footIndent f (Text.lines out), filled,
    hlines, if_neg Bool.false_ne_true]

/-- The code is put between the margin and the closing line. -/
theorem text_withCode (h : f.Proper) (hf : out = [] → f.StaysWithoutCode) :
    (f.withCode out).text = f.head.text ++ (f.margin ++ (out ++ f.footText)) := by
  by_cases hout : out = []
  · subst hout
    obtain ⟨l, hl⟩ := Option.ne_none_iff_exists'.mp (hf rfl).closed
    have hm : f.margin = List.replicate f.margin.length (byte ' ') :=
      List.eq_replicate_iff.mpr ⟨rfl, (h.spaces (hf rfl).spaced).1⟩
    have hfoot : (f.withCode []).footText = f.margin ++ f.footText := by
      conv_rhs => rw [hm]
      rw [footText, footText, foot_withCode_nil, footIndent, hl]
      simp [MarkLine.text, ← List.replicate_append_replicate]
    rw [text, hfoot, code, body_withCode_eq_nil.mpr rfl]
    rfl
  · rw [withCode_eq hout, text, code, lines_codeOf _ hout, List.append_assoc]
    rfl

theorem content_withCode (h : f.left = []) (out : Bytes) :
    (f.withCode out).body.flatMap CodeText.text = out := texts_codeOf h out

theorem StaysWithoutCode.withCode (h : f.StaysWithoutCode) : (f.withCode []).StaysWithoutCode where
  closed := mt foot_withCode_eq_none.mp h.closed
  spaced := List.not_mem_nil
  near := by
    obtain ⟨l, hl⟩ := Option.ne_none_iff_exists'.mp h.closed
    have hm : (f.withCode []).margin = [] := rfl
    have hfoot : (f.withCode []).footIndent = f.margin.length + f.footIndent := by
      rw [footIndent, foot_withCode_nil, hl]
      rfl
    rw [hm, hfoot, List.length_nil, Nat.zero_add]
    exact h.near

theorem footIndent_withCode_le (h : f.Proper) (hout : out = [] → f.StaysWithoutCode) :
    (if out.isEmpty then f.margin.length + f.footIndent else f.footIndent) ≤ 3 := by
  split
  · next he => exact (hout (List.isEmpty_iff.mp he)).near
  · exact h.footIndent_le

theorem Proper.withCode (h : f.Proper) (hf : f.body ≠ [] ∨ f.foot ≠ none)
    (hout : out = [] → f.StaysWithoutCode) : (f.withCode out).Proper where
  marks := h.marks
  opening := by
    obtain ⟨t, ht, hinfo, hhead | ⟨-, hbody, hfoot⟩⟩ := h.opening
    · exact ⟨t, ht, hinfo, .inl hhead⟩
    · exact absurd hf (by simp [hbody, hfoot])
  tagged := h.tagged
  within := by
    by_cases ho : out = []
    · subst ho
      exact List.not_mem_nil
    · rw [margin_withCode ho]
      exact h.within
  spaces := by
    by_cases ho : out = []
    · subst ho
      exact fun _ => ⟨by simp [margin, withCode, filled, codeOf, Text.lines], rfl⟩
    · rw [margin_withCode ho, withCode_eq ho]
      exact h.spaces
  closing l hc := by
    obtain ⟨k, hk, rfl⟩ := Option.map_eq_some_iff.mp hc
    exact ⟨footIndent_withCode_le h hout, (h.closing k hk).2⟩

/-- Other code may stand in a fence. -/
theorem Proper.replaces (h : f.Proper) (hl : Listed out) (hf : f.body ≠ [] ∨ f.foot ≠ none)
    (hout : out = [] → f.StaysWithoutCode) :
    Replaces (.fence f) (.fence (f.withCode out)) :=
  .code (ended_head h hf) hl.lines_eq (footIndent_withCode_le h hout)

end Fenced

end StackC.Markdown
