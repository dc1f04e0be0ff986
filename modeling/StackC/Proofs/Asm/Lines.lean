import Mathlib.Data.List.TakeWhile
import StackC.Asm.Instr
import StackC.Proofs.Text.Lines
import StackC.Proofs.Text.Plain

/-! Lines of assembly text that are read back as they were. -/
namespace StackC.Asm

namespace Line

/-- A line that its text says all about: a label with a name, or an opcode that is one word and no
label. -/
inductive Regular : Line → Prop
  | label {l : Bytes} (named : l ≠ []) : Regular { label := l }
  | op {op arg : Bytes} (notLabel : op.head? ≠ some (byte '%')) (word : byte ' ' ∉ op) :
      Regular { op, arg }

theorem ofText_op {t : Bytes} (h : t.head? ≠ some (byte '%')) : ofText t =
    { op := t.takeWhile (· != byte ' '), arg := (t.dropWhile (· != byte ' ')).drop 1 } := by
  cases t with
  | nil => rfl
  | cons b rest =>
    have hb : (b == byte '%') = false := by simpa using h
    rw [ofText, hb]
    rfl

section Op

variable {op arg : Bytes} (word : byte ' ' ∉ op)
include word

theorem ne_space : ∀ b ∈ op, (b != byte ' ') = true :=
  fun _ hb => bne_iff_ne.mpr fun he => word (he ▸ hb)

theorem ofText_bare (h : op.head? ≠ some (byte '%')) : ofText op = { op } := by
  rw [ofText_op h, List.takeWhile_eq_self_iff.mpr (ne_space word),
    List.dropWhile_eq_nil_iff.mpr (ne_space word)]
  rfl

/-- The operand begins behind the first space. -/
theorem ofText_arg (h : (op ++ byte ' ' :: arg).head? ≠ some (byte '%')) :
    ofText (op ++ byte ' ' :: arg) = { op, arg } := by
  rw [ofText_op h, List.takeWhile_append_of_pos (ne_space word),
    List.dropWhile_append_of_pos (ne_space word)]
  simp

end Op

theorem text_op (op arg : Bytes) : ({ op, arg } : Line).text =
    if arg = [] then op else op ++ byte ' ' :: arg := by
  cases arg with
  | nil => rfl
  | cons b arg => simp [text, ascii]

/-- A regular line is read back from its text. -/
theorem ofText_text {l : Line} (h : Regular l) : ofText l.text = l := by
  cases h with
  | @label l named => simp [text, named, ofText]
  | @op op arg notLabel word =>
    rw [text_op]
    split
    · next harg => rw [ofText_bare word notLabel, harg]
    · refine ofText_arg word ?_
      cases op with
      | nil => exact fun he => absurd (Option.some.inj he) (by decide)
      | cons b op => exact notLabel

/-- A line is kept unless it is a label without a name, or its only space is at its end. -/
theorem text_ofText_iff (t : Bytes) : (ofText t).text = t ↔ t ≠ ascii "%" ∧
    ¬ (t.head? ≠ some (byte '%') ∧ ∃ op, t = op ++ [byte ' '] ∧ byte ' ' ∉ op) := by
  by_cases hl : t.head? = some (byte '%')
  · obtain ⟨l, rfl⟩ := List.head?_eq_some_iff.mp hl
    cases l with
    | nil => exact ⟨fun he => absurd he (by decide), fun he => absurd rfl he.1⟩
    | cons b l => simp [ofText, text, ascii]
  have hlabel : t ≠ ascii "%" := fun he => hl (he ▸ rfl)
  simp only [hlabel, hl, ne_eq, not_false_eq_true, true_and, not_exists, not_and, not_not]
  by_cases hs : byte ' ' ∈ t
  · obtain ⟨op, arg, rfl, word⟩ := List.eq_append_cons_of_mem hs
    rw [ofText_arg word hl, text_op]
    constructor
    · rintro htext op' heq
      by_contra word'
      obtain ⟨-, -, harg⟩ := (List.append_cons_inj_of_notMem word' List.not_mem_nil).mp heq.symm
      rw [← harg, if_pos rfl] at htext
      simp at htext
    · intro h
      rw [if_neg]
      rintro rfl
      exact word (h op rfl)
  · rw [ofText_bare hs hl, text_op, if_pos rfl]
    simp only [true_iff]
    rintro op rfl
    simp at hs

end Line

/-- A name that can stand on a line. -/
def Writable (name : Bytes) : Prop := name ≠ [] ∧ Text.newline ∉ name

namespace Instr

def operand? : Instr → Option Bytes
  | label l | jump l | jumpZero l | jumpNegative l | call l => some l
  | load x | address x | store x | storeThrough x => some x
  | _ => none

/-- The name in the instruction, if it has one, can stand on its line. -/
def Spellable (i : Instr) : Prop := ∀ name ∈ i.operand?, Writable name

/-- Different instructions have different lines. -/
theorem line_inj {i j : Instr} (h : i.line = j.line) : i = j := by
  -- The sigil of a cell is not the first byte of a number.
  have sigil {b : UInt8} (hb : ¬ (Text.isDigit b ∨ b = byte '-')) (n : Int) (x : Bytes) :
      Text.decimal n ≠ b :: x := fun he => hb (Text.mem_decimal (he ▸ List.mem_cons_self))
  have hload := sigil (b := byte '&') (by decide)
  have haddress := sigil (b := byte '$') (by decide)
  have hdrop : ascii "R0" = [byte 'R', byte '0'] := rfl
  cases i <;> cases j <;>
    simp +decide [line, hload, haddress, fun n x => (hload n x).symm,
      fun n x => (haddress n x).symm, hdrop] at h ⊢
  case push.push => exact Text.decimal_inj h
  all_goals exact h

variable {i : Instr}

theorem Spellable.bare (h : i.operand? = none) : i.Spellable := by
  simp [Spellable, h]

theorem Spellable.named {name : Bytes} (h : i.operand? = some name) (hn : Writable name) :
    i.Spellable := by
  simpa [Spellable, h] using hn

theorem regular_line (h : i.Spellable) : i.line.Regular := by
  cases i with
  | label l => exact .label (h l rfl).1
  | _ => exact .op (by decide) (by decide)

/-- The text of an instruction is one line. -/
theorem newline_notMem_text (h : i.Spellable) : Text.newline ∉ i.text := by
  have op {op arg : Bytes} (hop : Text.newline ∉ op) (harg : Text.newline ∉ arg) :
      Text.newline ∉ ({ op, arg } : Line).text := by
    rw [Line.text_op]
    split
    · exact hop
    · exact List.not_mem_append hop (List.not_mem_cons_of_ne_of_not_mem (by decide) harg)
  have named {b : UInt8} {x : Bytes} (hb : Text.newline ≠ b) (hx : Writable x) :
      Text.newline ∉ b :: x := List.not_mem_cons_of_ne_of_not_mem hb hx.2
  cases i with
  | label l =>
    rw [text, line, Line.text, List.isEmpty_eq_false_iff.mpr (h l rfl).1]
    exact named (by decide) (h l rfl)
  | jump l | jumpZero l | jumpNegative l | call l =>
    exact op (by decide) (named (by decide) (h l rfl))
  | load x | address x | store x | storeThrough x =>
    exact op (by decide) (named (by decide) (h x rfl))
  | push n =>
    exact op (by decide) fun hn => absurd (Text.mem_decimal hn) (by decide)
  | _ => exact op (by decide) (by decide)

end Instr

end StackC.Asm
