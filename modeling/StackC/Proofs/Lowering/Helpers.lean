import Mathlib.Data.List.Infix
import StackC.Proofs.Lowering.CallOrder
import StackC.Proofs.Lowering.WellFormed
import StackC.Proofs.Tree.Operators

/-! The comparison routines in the code of a program are those that it calls. -/
namespace StackC

namespace Expr

/-- No call among these nodes is of a name that belongs to no function. -/
def Unreserved (xs : List Expr) : Prop :=
  ∀ pos name args, Expr.call pos name args ∈ xs → name ∉ reservedNames

variable {op : BinaryOp} {xs ys : List Expr}

theorem Unreserved.mono (h : Unreserved ys) (hs : xs ⊆ ys) : Unreserved xs :=
  fun pos name args hm => h pos name args (hs hm)

theorem uses_append : Uses op (xs ++ ys) ↔ Uses op xs ∨ Uses op ys := by
  simp only [Uses, List.mem_append, exists_or]

/-- A node that is no operation. -/
theorem uses_cons {x : Expr} (hx : ∀ pos l r, x ≠ binary pos op l r) :
    Uses op (x :: xs) ↔ Uses op xs := by
  unfold Uses
  constructor
  · rintro ⟨pos, l, r, hm⟩
    rcases List.mem_cons.mp hm with hm | hm
    · exact absurd hm.symm (hx pos l r)
    · exact ⟨pos, l, r, hm⟩
  · rintro ⟨pos, l, r, hm⟩
    exact ⟨pos, l, r, List.mem_cons_of_mem _ hm⟩

private theorem uses_binary {pos : Int} {op' : BinaryOp} {l r : Expr} :
    Uses op (binary pos op' l r).nodes ↔ Uses op l.nodes ∨ Uses op r.nodes ∨ op' = op := by
  unfold Uses
  simp only [nodes, List.mem_cons, List.mem_append, binary.injEq]
  constructor
  · rintro ⟨q, a, b, ⟨-, rfl, -, -⟩ | hm | hm⟩
    · exact .inr (.inr rfl)
    · exact .inl ⟨q, a, b, hm⟩
    · exact .inr (.inl ⟨q, a, b, hm⟩)
  · rintro (⟨q, a, b, hm⟩ | ⟨q, a, b, hm⟩ | rfl)
    · exact ⟨q, a, b, .inr (.inl hm)⟩
    · exact ⟨q, a, b, .inr (.inr hm)⟩
    · exact ⟨pos, l, r, .inl ⟨rfl, rfl, rfl, rfl⟩⟩

end Expr

def calledLabels (calls : List Invocation) : List Bytes := calls.map Invocation.label

@[simp] theorem calledLabels_append (xs ys : List Invocation) :
    calledLabels (xs ++ ys) = calledLabels xs ++ calledLabels ys := List.map_append

section Routines

open Asm

variable {r : Routine} (hr : r ∈ Routine.all)
include hr

private theorem name_mem_reservedNames : r.name ∈ reservedNames := by
  have hd : ∀ r ∈ Routine.all, r.name ∈ reservedNames := by decide
  exact hd r hr

/-- An operator is a call of its own routine only. -/
theorem name_mem_invocation? (op : BinaryOp) :
    r.name ∈ calledLabels op.invocation?.toList ↔ op = r.op := by
  have hd : ∀ r ∈ Routine.all, ∀ op ∈ BinaryOp.all,
      (r.name ∈ calledLabels op.invocation?.toList ↔ op = r.op) := by decide
  have hv : ∀ r ∈ Routine.all, r.op ∈ BinaryOp.all := by decide
  cases op with
  | invalid code =>
    have hi : BinaryOp.invalid code ∉ BinaryOp.all := by simp [BinaryOp.all]
    constructor
    · intro h
      cases h
    · intro h
      exact absurd (h ▸ hv r hr) hi
  | _ => exact hd r hr _ (by decide)

variable {count : Nat} {req : Requirements}

/-- Only comparisons call routines. -/
theorem Expr.name_mem_calls {x : Expr} (hx : x.Proper count req) (hu : Unreserved x.nodes) :
    r.name ∈ calledLabels x.calls ↔ Uses r.op x.nodes := by
  induction hx with
  | num | var => simp [calls, calledLabels, nodes, Uses]
  | neg operand ih | addr operand ih | deref operand ih =>
    rw [nodes, uses_cons (by simp)]
    exact ih (hu.mono (List.subset_cons_self _ _))
  | binary supported left right ih₁ ih₂ =>
    have hl := ih₁ (hu.mono fun y hy => by simp [nodes, hy])
    have hr' := ih₂ (hu.mono fun y hy => by simp [nodes, hy])
    rw [uses_binary, calls, calledLabels_append, calledLabels_append, List.mem_append,
      List.mem_append, hl, hr', name_mem_invocation? hr]
  | assign left right ih₁ ih₂ =>
    have hl := ih₁ (hu.mono fun y hy => by simp [nodes, hy])
    have hr' := ih₂ (hu.mono fun y hy => by simp [nodes, hy])
    rw [nodes, uses_cons (by simp), uses_append, calls, calledLabels_append, List.mem_append, hl,
      hr', or_comm]
  | @call pos name args isName arguments ih =>
    have hn : r.name ≠ name := by
      intro he
      exact hu pos name args (by simp [nodes]) (he ▸ name_mem_reservedNames hr)
    have ha : r.name ∈ calledLabels (allCalls args) ↔ Uses r.op (allNodes args) := by
      replace hu : Unreserved (allNodes args) := hu.mono fun y hy => by simp [nodes, hy]
      clear arguments hn
      induction args with
      | nil => simp [allCalls, allNodes, calledLabels, Uses]
      | cons a args iha =>
        rw [List.forall_mem_cons] at ih
        have h₁ := ih.1 (hu.mono (List.subset_append_left _ _))
        have h₂ := iha ih.2 (hu.mono (List.subset_append_right _ _))
        rw [allCalls, allNodes, calledLabels_append, List.mem_append, uses_append]
        exact or_congr h₁ h₂
    rw [nodes, uses_cons (by simp), calls, calledLabels_append, List.mem_append, ha]
    simp [calledLabels, hn]

theorem Expr.name_mem_calls_optional {x : Expr} (hx : x.isAbsent = false → x.Proper count req)
    (hu : Unreserved x.nodes) : r.name ∈ calledLabels x.calls ↔ Uses r.op x.nodes := by
  refine x.absent_or ?_ fun ha => name_mem_calls hr (hx ha) hu
  simp [calls, calledLabels, nodes, Uses]

omit hr in
theorem Stmt.name_mem_allCalls {xs : List Stmt}
    (h : ∀ x ∈ xs, Expr.Unreserved x.nodes →
      (r.name ∈ calledLabels x.calls ↔ Expr.Uses r.op x.nodes))
    (hu : Expr.Unreserved (allNodes xs)) :
    r.name ∈ calledLabels (allCalls xs) ↔ Expr.Uses r.op (allNodes xs) := by
  induction xs with
  | nil => simp [allCalls, allNodes, calledLabels, Expr.Uses]
  | cons x xs ih =>
    rw [List.forall_mem_cons] at h
    have h₁ := h.1 (hu.mono (List.subset_append_left _ _))
    have h₂ := ih h.2 (hu.mono (List.subset_append_right _ _))
    rw [allCalls, allNodes, calledLabels_append, List.mem_append, Expr.uses_append, h₁, h₂]

theorem Stmt.name_mem_calls {x : Stmt} (hx : x.Proper count req) (hu : Expr.Unreserved x.nodes) :
    r.name ∈ calledLabels x.calls ↔ Expr.Uses r.op x.nodes := by
  have optional {y : Stmt}
      (h : y.isAbsent = false → Expr.Unreserved y.nodes →
        (r.name ∈ calledLabels y.calls ↔ Expr.Uses r.op y.nodes))
      (hu : Expr.Unreserved y.nodes) :
      r.name ∈ calledLabels y.calls ↔ Expr.Uses r.op y.nodes := by
    refine y.absent_or ?_ fun ha => h ha hu
    simp [calls, calledLabels, nodes, Expr.Uses]
  induction hx with
  | block inner ih => exact name_mem_allCalls ih hu
  | cond tested first second ih₁ ih₂ =>
    have ht := Expr.name_mem_calls hr tested (hu.mono fun y hy => by simp [nodes, hy])
    have hy := ih₁ (hu.mono fun y hy => by simp [nodes, hy])
    have hn := optional ih₂ (hu.mono fun y hy => by simp [nodes, hy])
    simp only [calls, nodes, calledLabels_append, List.mem_append, Expr.uses_append, ht, hy, hn]
  | loop started tested stepped inner ih₁ ih₂ =>
    have hi := optional ih₁ (hu.mono fun y hy => by simp [nodes, hy])
    have ht := Expr.name_mem_calls_optional hr tested (hu.mono fun y hy => by simp [nodes, hy])
    have hs := Expr.name_mem_calls_optional hr stepped (hu.mono fun y hy => by simp [nodes, hy])
    have hb := ih₂ (hu.mono fun y hy => by simp [nodes, hy])
    simp only [calls, nodes, calledLabels_append, List.mem_append, Expr.uses_append, hi, ht, hs, hb,
      or_comm, or_left_comm]
  | ret value => exact Expr.name_mem_calls hr value hu
  | expr value => exact Expr.name_mem_calls hr value hu

/-- A program calls the routines of the operators that it uses. -/
theorem Program.name_mem_calls {p : Program} (hp : p.Proper) (hu : Expr.Unreserved p.nodes) :
    r.name ∈ calledLabels p.calls ↔ p.Uses r.op := by
  have hm : r.name ∉ calledLabels
      (if p.topLevel then [] else [{ label := Lowering.mainName, args := 0 }]) := by
    intro h
    have hmain : ∀ r ∈ Routine.all, r.name ≠ Lowering.mainName := by decide
    cases ht : p.topLevel with
    | true => simp [ht, calledLabels] at h
    | false =>
      rw [ht] at h
      exact hmain r hr (List.mem_singleton.mp h)
  have hf : ∀ f ∈ p.funcs, r.name ∈ calledLabels f.calls ↔ Expr.Uses r.op f.nodes := by
    intro f hf
    have hn : Expr.Unreserved f.nodes := hu.mono fun y hy => List.mem_flatMap.mpr ⟨f, hf, hy⟩
    obtain ⟨b, hb, hs⟩ := (hp.functions f hf).body
    rw [Function.nodes, hb] at hn
    rw [Function.calls, Function.nodes, hb]
    exact Stmt.name_mem_allCalls (fun x hx => Stmt.name_mem_calls hr (hs x hx)) hn
  have hc : r.name ∈ calledLabels (p.funcs.flatMap Function.calls) ↔
      ∃ f ∈ p.funcs, r.name ∈ calledLabels f.calls := by
    simp only [calledLabels, List.map_flatMap, List.mem_flatMap]
  rw [Program.calls, calledLabels_append, List.mem_append, or_iff_left hm, hc]
  constructor
  · rintro ⟨f, hmem, h⟩
    obtain ⟨pos, a, b, h⟩ := (hf f hmem).mp h
    exact ⟨pos, a, b, List.mem_flatMap.mpr ⟨f, hmem, h⟩⟩
  · rintro ⟨pos, a, b, h⟩
    obtain ⟨f, hmem, h⟩ := List.mem_flatMap.mp h
    exact ⟨f, hmem, (hf f hmem).mpr ⟨pos, a, b, h⟩⟩

end Routines

namespace Asm

/-- How often one list of instructions stands in another. -/
def occurrences (part code : List Instr) : Nat := code.tails.countP fun t => part.isPrefixOf t

variable {l : Bytes} {part code rest : List Instr}

/-- Code that begins with a label stands at most where the label does. -/
theorem occurrences_le_count : occurrences (.label l :: rest) code ≤ (labels code).count l := by
  unfold occurrences
  induction code with
  | nil => simp [List.isPrefixOf]
  | cons i code ih =>
    rw [List.tails_cons, List.countP_cons]
    by_cases hi : i = .label l
    · subst hi
      rw [labels_label, List.count_cons_self]
      split <;> omega
    · have hp : (Instr.label l :: rest).isPrefixOf (i :: code) = false := by
        simp [List.isPrefixOf, Ne.symm hi]
      have hc : (labels code).count l ≤ (labels (i :: code)).count l := by
        refine List.Sublist.count_le l ?_
        exact (List.sublist_cons_self i code).filterMap Instr.defines?
      simp only [hp, Bool.false_eq_true, if_false]
      omega

theorem occurrences_pos (h : part <:+: code) : 0 < occurrences part code := by
  obtain ⟨a, b, rfl⟩ := h
  rw [occurrences, List.countP_pos_iff]
  refine ⟨part ++ b, ?_, ?_⟩
  · rw [List.mem_tails, List.append_assoc]
    exact List.suffix_append a (part ++ b)
  · rw [List.isPrefixOf_iff_prefix]
    exact List.prefix_append part b

theorem infix_of_occurrences_pos (h : 0 < occurrences part code) : part <:+: code := by
  rw [occurrences, List.countP_pos_iff] at h
  obtain ⟨t, ht, hpart⟩ := h
  exact (List.isPrefixOf_iff_prefix.mp hpart).isInfix.trans ((List.mem_tails t code).mp ht).isInfix

end Asm

namespace Lowering

open Asm

variable {p : Program} {code : List Instr} {r : Routine}

/-- The code begins with a jump over comparison routines, which stand in the order of their table
before any other label. They are those that are called behind them, and there is no other copy of a
routine in the code. -/
def HelpersFirst (code : List Instr) : Prop :=
  ∃ (used : List Routine) (l : Bytes) (rest : List Instr),
    code = .jump startLabel :: (used.flatMap Routine.code ++ .label l :: rest) ∧
    used.Sublist [Routine.less, Routine.lessOrEqual, Routine.notEqual] ∧
    (∀ r ∈ Routine.all, l ∉ labels r.code) ∧
    (∀ r ∈ Routine.all, r ∈ used ↔ Instr.call r.name ∈ rest) ∧
    ∀ r ∈ Routine.all, occurrences r.code code = if Instr.call r.name ∈ rest then 1 else 0

/-- The label of a routine stands among those that are needed only if it is one of them. -/
theorem needs_of_name_mem {req : Requirements} (hr : r ∈ Routine.all)
    (h : r.name ∈ labels (routines req)) : req.needs r.op := by
  have hd : ∀ r ∈ Routine.all, ∀ r' ∈ Routine.all, r.name ∈ labels r'.code → r = r' := by decide
  rw [mem_labels] at h
  obtain ⟨r', hr', hl⟩ := List.mem_flatMap.mp h
  obtain ⟨hm, hn⟩ := List.mem_filter.mp hr'
  cases hd r hr r' hm (mem_labels.mpr hl)
  exact hn

/-- No label of a comparison routine is one that a program gives. -/
theorem IsOwn.not_mem_code {l : Bytes} (h : IsOwn p l) (hr : r ∈ Routine.all) :
    l ∉ labels r.code := by
  intro hl
  refine h.not_mem_routines { lt := true, le := true, ne := true } ?_
  have hd : ∀ r ∈ Routine.all, ∀ l ∈ labels r.code,
      l ∈ labels (routines { lt := true, le := true, ne := true }) := by decide
  exact hd r hr l hl

/-- A routine stands in the code once if it is needed, and otherwise not at all. -/
theorem occurrences_routine (hp : p.Proper) (h : EmitsProgram p code) (hr : r ∈ Routine.all) :
    occurrences r.code code = if p.req.needs r.op then 1 else 0 := by
  obtain ⟨ls, hlabels, -, hown⟩ := labels_of_program hp h
  have hle : occurrences r.code code ≤ (labels code).count r.name := occurrences_le_count
  by_cases hn : p.req.needs r.op
  · obtain ⟨tail, rfl⟩ := h.exists_tail
    have hi : r.code <:+: routines p.req := by
      have hu : r ∈ Routine.all.filter fun r => p.req.needs r.op := List.mem_filter.mpr ⟨hr, hn⟩
      obtain ⟨a, b, hab⟩ := List.append_of_mem hu
      refine ⟨a.flatMap Routine.code, b.flatMap Routine.code, ?_⟩
      rw [routines, hab, List.flatMap_append, List.flatMap_cons, List.append_assoc]
    have hc : r.code <:+: .jump startLabel :: (routines p.req ++ tail) :=
      hi.trans ⟨[.jump startLabel], tail, rfl⟩
    have hpos := occurrences_pos hc
    have hone := List.nodup_iff_count_le_one.mp (nodup_of_program hp h) r.name
    rw [if_pos hn]
    omega
  · have hnot : r.name ∉ labels code := by
      rw [hlabels, List.mem_append]
      rintro (hm | hm)
      · exact hn (needs_of_name_mem hr hm)
      · exact (hown _ hm).not_mem_code hr (by simp [Routine.code])
    rw [List.count_eq_zero_of_not_mem hnot] at hle
    rw [if_neg hn]
    omega

/-- The flags are those of the comparisons in the tree, and the routines in its code are those that
it calls. -/
theorem helpers_exact_of_parse {src : Bytes} {toks : List Token} {p : Program}
    (hsrc : Token.scan src = .ok toks) (hp : Grammar.parse toks {} = .ok p) :
    ((p.req.lt = true ↔ p.Uses .lt) ∧ (p.req.le = true ↔ p.Uses .le) ∧
      (p.req.ne = true ↔ p.Uses .ne)) ∧
      ∀ code, program p = .ok code → HelpersFirst code := by
  have flag {op : BinaryOp} (hop : op ∈ Grammar.flagged) : p.req.needs op ↔ p.Uses op :=
    Grammar.needs_iff_uses hsrc hp hop
  have flags : (p.req.lt = true ↔ p.Uses .lt) ∧ (p.req.le = true ↔ p.Uses .le) ∧
      (p.req.ne = true ↔ p.Uses .ne) :=
    ⟨@flag .lt (by decide), @flag .le (by decide), @flag .ne (by decide)⟩
  refine ⟨flags, fun code hc => ?_⟩
  have proper := Grammar.proper_of_parse hsrc hp
  have he := emits_of_program proper hc
  have hu : Expr.Unreserved p.nodes := fun pos name args hm =>
    (calls_of_program he pos name args hm).1.2
  obtain ⟨ls, hlabels, -, hown⟩ := labels_of_program proper he
  obtain ⟨l, rest, hcode, hm⟩ := makes_of_program he
  have hcall {r : Routine} (hr : r ∈ Routine.all) :
      Instr.call r.name ∈ rest ↔ p.req.needs r.op := by
    have hop : r.op ∈ Grammar.flagged := by
      have hd : ∀ r ∈ Routine.all, r.op ∈ Grammar.flagged := by decide
      exact hd r hr
    rw [flag hop, ← Program.name_mem_calls hr proper hu, calledLabels, ← show _ = _ from hm,
      mem_called, List.mem_cons]
    simp
  refine ⟨Routine.all.filter fun r => p.req.needs r.op, l, rest, hcode, List.filter_sublist,
    fun r hr => ?_, fun r hr => ?_, fun r hr => ?_⟩
  · rw [hcode, labels_jump, labels_append, labels_label] at hlabels
    have hl : IsOwn p l := hown l (List.append_cancel_left hlabels ▸ List.mem_cons_self)
    exact hl.not_mem_code hr
  · rw [List.mem_filter, and_iff_right hr, hcall hr]
  · rw [occurrences_routine proper he hr]
    simp only [hcall hr]

/-- The tokens of a program that compares with `>` and with `!=`. -/
def twoComparisons : List Token :=
  [⟨.punct, 0, ascii "\x7b", 0⟩, ⟨.keyword, 1, ascii "return", 0⟩, ⟨.ident, 8, ascii "a", 0⟩,
    ⟨.punct, 9, ascii ">", 0⟩, ⟨.num, 10, ascii "1", 1⟩, ⟨.punct, 11, ascii "!=", 0⟩,
    ⟨.num, 13, ascii "0", 0⟩, ⟨.punct, 14, ascii ";", 0⟩, ⟨.punct, 15, ascii "\x7d", 0⟩, .eof 16]

def twoComparisonsTree : Program where
  topLevel := true
  funcs := [{ name := [], pos := 0, locals := [⟨ascii "a", .int, 8⟩], body := some {
    pos := 0, stmts := [.ret 1 (.binary 11 .ne (.binary 9 .lt (.num 10 1) (.var 8 0))
      (.num 13 0))] } }]
  req := { lt := true, ne := true }

theorem scan_twoComparisons : Token.scan (ascii "\x7breturn a>1!=0;\x7d") = .ok twoComparisons := by
  decide +kernel

theorem parse_twoComparisons : Grammar.parse twoComparisons {} = .ok twoComparisonsTree :=
  Grammar.parse_of_walk rfl

/-- The routines of both comparisons stand behind the jump, that of `<` first. -/
theorem helpers_exact_of_twoComparisons :
    ((twoComparisonsTree.req.lt = true ↔ twoComparisonsTree.Uses .lt) ∧
      (twoComparisonsTree.req.le = true ↔ twoComparisonsTree.Uses .le) ∧
      (twoComparisonsTree.req.ne = true ↔ twoComparisonsTree.Uses .ne)) ∧ ∃ code main,
      program twoComparisonsTree = .ok code ∧ HelpersFirst code ∧
      code = .jump startLabel :: (Routine.less.code ++ (Routine.notEqual.code ++
        .label startLabel :: main)) ∧
      Instr.call Routine.less.name ∈ main ∧ Instr.call Routine.notEqual.name ∈ main := by
  obtain ⟨flags, helpers⟩ := helpers_exact_of_parse scan_twoComparisons parse_twoComparisons
  obtain ⟨code, hc, main, hcode, hless, hne⟩ : ∃ code, program twoComparisonsTree = .ok code ∧
      ∃ main, code = .jump startLabel :: (Routine.less.code ++ (Routine.notEqual.code ++
          .label startLabel :: main)) ∧
        Instr.call Routine.less.name ∈ main ∧ Instr.call Routine.notEqual.name ∈ main :=
    ⟨_, rfl, _, rfl, by decide, by decide⟩
  exact ⟨flags, code, main, hc, helpers code hc, hcode, hless, hne⟩

end Lowering

end StackC
