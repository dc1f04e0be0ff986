import StackC.Proofs.Execution.Stmt
import StackC.Proofs.Lowering.WellFormed

/-! The code of a program without functions shows the value that the program returns. -/
namespace StackC.Lowering

open Asm

private theorem routine_suffix {req : Requirements} {r : Routine} (hr : r ∈ Routine.all)
    (hn : req.needs r.op) (tail : List Instr) :
    ∃ rest, r.code ++ rest <:+ routines req ++ tail := by
  have hm : r ∈ Routine.all.filter fun r => req.needs r.op := List.mem_filter.mpr ⟨hr, hn⟩
  obtain ⟨before, after, he⟩ := List.append_of_mem hm
  refine ⟨after.flatMap Routine.code ++ tail, before.flatMap Routine.code, ?_⟩
  rw [routines, he]
  simp

theorem linked_of_program {p : Program} {code : List Instr} (hp : p.Proper)
    (h : EmitsProgram p code) : Linked p.req code := by
  refine ⟨nodup_of_program hp h, fun r hr hn => ?_⟩
  obtain ⟨tail, rfl⟩ := h.exists_tail
  obtain ⟨rest, hs⟩ := routine_suffix hr hn tail
  exact ⟨rest, hs.trans (List.suffix_cons _ _)⟩

/-- The main part of a program without functions, from the first jump to the last instruction. -/
theorem reaches_halt_of_emits {req : Requirements} {locals : List Local} {xs : List Stmt}
    {code inner : List Instr} {n m : Nat} (hl : Linked req code)
    (hcode : .label startLabel :: (inner ++ [Instr.label topExit, .display, .halt]) <:+ code)
    (h : Emits { locals, req, exit := topExit } (.many xs) n inner m) (hd : Stmt.allDirect xs)
    {M : Machine} (hs : Separate M locals) {σ σ' : Store} {v : Int} {bound : Nat}
    (hr : (Task.many xs).run M locals bound σ = some (.returned v σ')) {memory : Memory}
    (hm : Agrees M locals σ memory) {tail : List Instr} :
    ∃ s, M.Reaches code ⟨.jump startLabel :: tail, [], [], memory, []⟩ s ∧ s.halted ∧
      s.shown = [v] ∧ Agrees M locals σ' s.memory := by
  have hstart : behind startLabel code = some (inner ++ [Instr.label topExit, .display, .halt]) :=
    behind_of_suffix (a := []) hl.distinct hcode
  have hexit : behind topExit code = some [.display, .halt] :=
    behind_of_suffix (a := .label startLabel :: inner) hl.distinct hcode
  have hinner : inner ++ [Instr.label topExit, .display, .halt] <:+ code :=
    (List.suffix_cons _ _).trans hcode
  have harr := simulates (c := { locals, req, exit := topExit }) hl hs hexit bound (.many xs) σ
    (.returned v σ') _ _ hd hr ⟨n, inner, m, h, rfl⟩ hinner
  obtain ⟨stack, memory', hm', hreach⟩ := harr [] [] memory [] hm
  exact ⟨⟨[.halt], stack, [], memory', [v]⟩,
    .step (Machine.step_jump hstart) (hreach.trans (.step rfl .refl)), rfl, rfl, hm'⟩

/-- If a program without functions returns a value, its code shows this value and halts, on any
machine with a cell for each local and for scratch. The cells of the locals are then as the program
leaves them. -/
theorem reaches_halt_of_returns {src : Bytes} {toks : List Token} {req : Requirements}
    {p : Program} {f : Function} {code : List Instr} (hsrc : Token.scan src = .ok toks)
    (hp : Grammar.parse toks req = .ok p) (hc : program p = .ok code) (htop : p.topLevel = true)
    (hf : f ∈ p.funcs) (hd : f.direct) {M : Machine} (hs : Separate M f.locals) {σ σ' : Store}
    {v : Int} (hr : f.Returns M σ v σ') {memory : Memory} (hm : Agrees M f.locals σ memory) :
    ∃ s, M.Reaches code (.initial code memory) s ∧ s.halted ∧ s.shown = [v] ∧
      ∀ i x, f.locals[i]? = some x → s.memory (M.address x.name) = some (σ' i) := by
  have proper := Grammar.proper_of_parse hsrc hp
  have h := emits_of_program proper hc
  have hl := linked_of_program proper h
  obtain ⟨b, bound, hb, hrun⟩ := hr
  cases h with
  | functions notTop =>
    rw [htop] at notTop
    cases notTop
  | @topLevel g b' inner m isTop single hasBody first =>
    rw [single, List.mem_singleton] at hf
    cases hf
    cases hb.symm.trans hasBody
    rw [Function.direct, hb] at hd
    obtain ⟨s, hreach, hhalt, hshown, ha⟩ := reaches_halt_of_emits hl
      ((List.suffix_append _ _).trans (List.suffix_cons _ _)) first hd hs hrun hm
    exact ⟨s, hreach, hhalt, hshown, ha.cells⟩

def setting : List Token :=
  [⟨.punct, 0, ascii "\x7b", 0⟩, ⟨.keyword, 1, ascii "for", 0⟩, ⟨.punct, 4, ascii "(", 0⟩,
    ⟨.punct, 5, ascii ";", 0⟩, ⟨.ident, 6, ascii "i", 0⟩, ⟨.punct, 7, ascii "<", 0⟩,
    ⟨.num, 8, ascii "1", 1⟩, ⟨.punct, 9, ascii ";", 0⟩, ⟨.punct, 10, ascii ")", 0⟩,
    ⟨.ident, 11, ascii "i", 0⟩, ⟨.punct, 12, ascii "=", 0⟩, ⟨.num, 13, ascii "1", 1⟩,
    ⟨.punct, 14, ascii ";", 0⟩, ⟨.keyword, 15, ascii "return", 0⟩, ⟨.ident, 22, ascii "i", 0⟩,
    ⟨.punct, 23, ascii ";", 0⟩, ⟨.punct, 24, ascii "\x7d", 0⟩, .eof 25]

def settingBlock : Function where
  name := []
  pos := 0
  locals := [⟨ascii "i", .int, 6⟩]
  body := some {
    pos := 0
    stmts := [
      .loop 1 .absent (.binary 7 .lt (.var 6 0) (.num 8 1)) .absent
        (.expr 11 (.assign 12 (.var 11 0) (.num 13 1))),
      .ret 15 (.var 22 0)] }

def settingTree : Program where
  topLevel := true
  funcs := [settingBlock]
  req := { lt := true }

def settingCode : List Instr :=
  .jump startLabel :: (Routine.less.code ++
    [Instr.label startLabel, .label (ascii "l.begin.1"), .load (ascii "i"), .push 1,
      .call (ascii "le"), .jumpZero (ascii "l.end.1"), .push 1, .store (ascii "i"),
      .jump (ascii "l.begin.1"), .label (ascii "l.end.1"), .load (ascii "i"), .jump topExit,
      .label topExit, .display, .halt])

/-- A machine with the scratch cell at 2 and any other at 1. -/
def twoCells : Machine where
  address x := if x = scratchName then 2 else 1
  quotient := Int.tdiv

def twoCellsMemory : Memory := fun a => if a = 1 ∨ a = 2 then some 0 else none

theorem reaches_halt_of_setting :
    ∃ s, twoCells.Reaches settingCode (.initial settingCode twoCellsMemory) s ∧ s.halted ∧
      s.shown = [1] ∧ s.memory 1 = some 1 := by
  have hsrc : Token.scan (ascii "\x7bfor(;i<1;)i=1;return i;\x7d") = .ok setting := by
    decide +kernel
  have hp : Grammar.parse setting {} = .ok settingTree := Grammar.parse_of_walk rfl
  have hc : program settingTree = .ok settingCode := by rfl
  have hs : Separate twoCells settingBlock.locals := by
    unfold Separate
    decide
  have hr : settingBlock.Returns twoCells (fun _ => 0) 1 (Function.update (fun _ => 0) 0 1) :=
    ⟨_, 10, rfl, rfl⟩
  have hm : Agrees twoCells settingBlock.locals (fun _ => 0) twoCellsMemory := by
    refine ⟨fun i x hx => ?_, rfl⟩
    cases i with
    | zero =>
      cases hx
      rfl
    | succ i => cases hx
  obtain ⟨s, hreach, hhalt, hshown, hcells⟩ := reaches_halt_of_returns hsrc hp hc rfl
    List.mem_cons_self rfl hs hr hm
  exact ⟨s, hreach, hhalt, hshown, hcells 0 _ rfl⟩

end StackC.Lowering
