import StackC.Proofs.Compile.Dump
import StackC.Proofs.Lowering.Helpers
import StackC.Proofs.Lowering.Ingredients

/-! The assembly text of a program is read back as the program. -/
namespace StackC

open Asm

namespace Asm.Instr

variable {code : List Instr}

theorem listing_eq_lines (code : List Instr) :
    listing code = (code.map text).flatMap (· ++ [Text.newline]) := by
  rw [listing, Line.listing, List.flatMap_map, List.flatMap_map]
  rfl

private theorem newline_notMem_texts (h : ∀ i ∈ code, i.Spellable) :
    ∀ t ∈ code.map text, Text.newline ∉ t :=
  List.forall_mem_map.mpr fun i hi => newline_notMem_text (h i hi)

/-- The lines of a listing are read back as those of the instructions. The last newline has an empty
line behind it. -/
theorem ofText_listing (h : ∀ i ∈ code, i.Spellable) :
    ((listing code).splitOn Text.newline).map Line.ofText = code.map line ++ [({} : Line)] := by
  rw [listing_eq_lines, Text.splitOn_lines (newline_notMem_texts h), List.map_append,
    List.map_map]
  congr 1
  exact List.map_congr_left fun i hi => Line.ofText_text (regular_line (h i hi))

private theorem listing_inj {code' : List Instr} (h : ∀ i ∈ code, i.Spellable)
    (h' : ∀ i ∈ code', i.Spellable) (heq : listing code = listing code') : code = code' := by
  have hlines : code.map line = code'.map line := by
    have hread := congrArg (fun t => (t.splitOn Text.newline).map Line.ofText) heq
    simp only [ofText_listing h, ofText_listing h'] at hread
    exact List.append_cancel_right hread
  exact List.map_injective_iff.mpr (fun i j hij => line_inj hij) hlines

end Asm.Instr

theorem sessionStep_eq_ok {req : Requirements} {src : Bytes} {code : List Instr}
    (h : (sessionStep req src).code = .ok code) :
    ∃ toks p, Token.scan src = .ok toks ∧ Grammar.parse toks req = .ok p ∧
      Lowering.program p = .ok code := by
  unfold sessionStep at h
  cases hsrc : Token.scan src with
  | error e => simp [hsrc] at h
  | ok toks =>
    cases hp : Grammar.parse toks req with
    | error e => simp [hsrc, hp] at h
    | ok p => exact ⟨toks, p, rfl, hp, by simpa [hsrc, hp] using h⟩

theorem spellable_of_sessionStep {req : Requirements} {src : Bytes} {code : List Instr}
    (h : (sessionStep req src).code = .ok code) : ∀ i ∈ code, i.Spellable := by
  obtain ⟨toks, p, hsrc, hp, hc⟩ := sessionStep_eq_ok h
  have proper := Grammar.proper_of_parse hsrc hp
  exact Lowering.spellable_of_program proper (Grammar.named_of_parse hsrc hp)
    (Lowering.emits_of_program proper hc)

private theorem compile_asm_of_sessionStep {src : Bytes} {code : List Instr}
    (h : (sessionStep {} src).code = .ok code) :
    (compile .asm src).result = .ok (Instr.listing code) := by
  obtain ⟨toks, p, hsrc, hp, hc⟩ := sessionStep_eq_ok h
  obtain ⟨d, -, -, hasm⟩ := compile_of_parse hsrc hp
  rw [hasm, hc]
  rfl

/-- The text of a program that compiles is read back line by line as its instructions, so that no
other program has the text; and any line is kept by reading and writing it unless it is a label
without a name, or its only space is at its end. -/
theorem listing_decodes {req req' : Requirements} {src src' : Bytes} {code code' : List Instr}
    (h : (sessionStep req src).code = .ok code) (h' : (sessionStep req' src').code = .ok code') :
    ((Instr.listing code).splitOn Text.newline).map Line.ofText =
        code.map Instr.line ++ [({} : Line)] ∧
      (req = {} → (compile .asm src).result = .ok (Instr.listing code)) ∧
      (Instr.listing code = Instr.listing code' → code = code') ∧
      ∀ t, (Line.ofText t).text = t ↔ t ≠ ascii "%" ∧
        ¬ (t.head? ≠ some (byte '%') ∧ ∃ op, t = op ++ [byte ' '] ∧ byte ' ' ∉ op) := by
  have hs := spellable_of_sessionStep h
  have hs' := spellable_of_sessionStep h'
  refine ⟨Instr.ofText_listing hs, ?_, Instr.listing_inj hs hs', Line.text_ofText_iff⟩
  rintro rfl
  exact compile_asm_of_sessionStep h

/-- The code of a block, from that of its comparison routines and its statements. -/
def blockCode (helpers inner : List Instr) : List Instr :=
  .jump startLabel :: (helpers ++
    Instr.label startLabel :: (inner ++ [Instr.label Lowering.topExit, .display, .halt]))

def comparingCode : List Instr :=
  blockCode (Routine.less.code ++ Routine.notEqual.code)
    [.push 1, .load (ascii "a"), .call (ascii "le"), .push 0, .call (ascii "ne"),
      .jump Lowering.topExit]

/-- A block with two comparisons is read back, and is not an empty block. -/
theorem listing_decodes_comparing :
    (compile .asm (ascii "\x7breturn a>1!=0;\x7d")).result = .ok (Instr.listing comparingCode) ∧
      ((Instr.listing comparingCode).splitOn Text.newline).map Line.ofText =
        comparingCode.map Instr.line ++ [({} : Line)] ∧
      Instr.listing comparingCode ≠ Instr.listing (blockCode [] []) := by
  have h : (sessionStep {} (ascii "\x7breturn a>1!=0;\x7d")).code = .ok comparingCode := by
    unfold sessionStep
    simp only [Lowering.scan_twoComparisons, Lowering.parse_twoComparisons]
    rfl
  have h' : (sessionStep {} (ascii "\x7b\x7d")).code = .ok (blockCode [] []) := by
    have hsrc : Token.scan (ascii "\x7b\x7d") =
        .ok [⟨.punct, 0, ascii "\x7b", 0⟩, ⟨.punct, 1, ascii "\x7d", 0⟩, .eof 2] := by
      decide +kernel
    unfold sessionStep
    simp only [hsrc]
    cbv
  obtain ⟨hread, hasm, hinj, -⟩ := listing_decodes h h'
  exact ⟨hasm rfl, hread, fun he => absurd (hinj he) (by decide)⟩

end StackC
