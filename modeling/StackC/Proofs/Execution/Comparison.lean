import StackC.Proofs.Execution.Source

/-! The comparison routines compute the comparisons that they stand for. -/
namespace StackC.Asm

/-- The code has its labels once, and it holds the routines that are needed. -/
structure Linked (req : Requirements) (code : List Instr) : Prop where
  distinct : (labels code).Nodup
  routines : ∀ r ∈ Routine.all, req.needs r.op → ∃ rest, r.code ++ rest <:+ code

/-- The end of every routine, and what follows it. -/
def verdictThen (yes done : Bytes) (rest : List Instr) : List Instr :=
  .drop :: .push 0 :: .jump done :: .label yes :: .drop :: .push 1 :: .label done :: .ret :: rest

variable {M : Machine} {req : Requirements} {code before rest back : List Instr} {yes done : Bytes}
  {a b x : Int} {stack shown : List Int} {calls : List (List Instr)} {memory : Memory}

theorem behind_done (hd : (labels code).Nodup)
    (h : before ++ verdictThen yes done rest <:+ code) :
    behind done code = some (.ret :: rest) := by
  refine behind_of_suffix
    (a := before ++ [Instr.drop, .push 0, .jump done, .label yes, .drop, .push 1]) hd ?_
  rw [List.append_assoc]
  exact h

/-- A routine whose test fails returns 0. -/
theorem verdict_falls (hd : (labels code).Nodup)
    (h : before ++ verdictThen yes done rest <:+ code) :
    M.Runs code ⟨verdictThen yes done rest, x :: stack, back :: calls, memory, shown⟩
      ⟨back, 0 :: stack, calls, memory, shown⟩ :=
  .inside rfl rfl (.inside rfl rfl (.inside rfl (Machine.step_jump (behind_done hd h))
    (.inside rfl rfl .refl)))

theorem behind_verdict (hd : (labels code).Nodup)
    (h : before ++ verdictThen yes done rest <:+ code) :
    behind yes code = some (.drop :: .push 1 :: .label done :: .ret :: rest) := by
  refine behind_of_suffix (a := before ++ [Instr.drop, .push 0, .jump done]) hd ?_
  rw [List.append_assoc]
  exact h

/-- A routine that is left at its test returns 1. -/
theorem verdict_jumps :
    M.Runs code
      ⟨.drop :: .push 1 :: .label done :: .ret :: rest, x :: stack, back :: calls, memory, shown⟩
      ⟨back, 1 :: stack, calls, memory, shown⟩ :=
  .inside rfl rfl (.inside rfl rfl (.inside rfl rfl (.inside rfl rfl .refl)))

namespace Linked

/-- The body of a routine is behind its label. -/
theorem behind_name (h : Linked req code) {r : Routine} (hr : r ∈ Routine.all)
    (hn : req.needs r.op) :
    ∃ tail, r.code ++ tail <:+ code ∧ behind r.name code = some (r.body ++ tail) := by
  obtain ⟨tail, ht⟩ := h.routines r hr hn
  exact ⟨tail, ht, behind_of_suffix (a := []) h.distinct ht⟩

theorem less (h : Linked req code) (hn : req.needs .lt) :
    M.Runs code ⟨.call Routine.less.name :: rest, b :: a :: stack, calls, memory, shown⟩
      ⟨rest, truth (a < b) :: stack, calls, memory, shown⟩ := by
  obtain ⟨tail, ht, hb⟩ := h.behind_name (r := Routine.less) (by decide) hn
  have hv : [Instr.label (ascii "le"), .sub, .jumpNegative (ascii "le.less")] ++
      verdictThen (ascii "le.less") (ascii "le.end") tail <:+ code := ht
  have hy := behind_verdict h.distinct hv
  refine .enter hb (.inside rfl rfl ?_)
  by_cases hlt : a < b
  · rw [truth_of_pos hlt]
    exact .inside rfl (Machine.step_jumpNegative_taken (by omega) hy) verdict_jumps
  · rw [truth_of_neg hlt]
    exact .inside rfl (Machine.step_jumpNegative_passed (by omega)) (verdict_falls h.distinct hv)

theorem lessOrEqual (h : Linked req code) (hn : req.needs .le) :
    M.Runs code ⟨.call Routine.lessOrEqual.name :: rest, b :: a :: stack, calls, memory, shown⟩
      ⟨rest, truth (a ≤ b) :: stack, calls, memory, shown⟩ := by
  obtain ⟨tail, ht, hb⟩ := h.behind_name (r := Routine.lessOrEqual) (by decide) hn
  have hv : [Instr.label (ascii "leq"), .sub, .jumpNegative (ascii "leq.lesseq"),
      .jumpZero (ascii "leq.lesseq")] ++
      verdictThen (ascii "leq.lesseq") (ascii "leq.end") tail <:+ code := ht
  have hy := behind_verdict h.distinct hv
  refine .enter hb (.inside rfl rfl ?_)
  rcases Int.lt_trichotomy a b with hlt | rfl | hgt
  · rw [truth_of_pos (Int.le_of_lt hlt)]
    exact .inside rfl (Machine.step_jumpNegative_taken (by omega) hy) verdict_jumps
  · rw [truth_of_pos (Int.le_refl a), Int.sub_self]
    refine .inside rfl (Machine.step_jumpNegative_passed (by decide)) ?_
    exact .inside rfl (Machine.step_jumpZero_taken hy) verdict_jumps
  · rw [truth_of_neg (by omega)]
    refine .inside rfl (Machine.step_jumpNegative_passed (by omega)) ?_
    exact .inside rfl (Machine.step_jumpZero_passed (by omega)) (verdict_falls h.distinct hv)

theorem notEqual (h : Linked req code) (hn : req.needs .ne) :
    M.Runs code ⟨.call Routine.notEqual.name :: rest, b :: a :: stack, calls, memory, shown⟩
      ⟨rest, truth (a ≠ b) :: stack, calls, memory, shown⟩ := by
  obtain ⟨tail, ht, hb⟩ := h.behind_name (r := Routine.notEqual) (by decide) hn
  have hv : [Instr.label (ascii "ne"), .equal, .jumpZero (ascii "ne.neq")] ++
      verdictThen (ascii "ne.neq") (ascii "ne.end") tail <:+ code := ht
  have hy := behind_verdict h.distinct hv
  refine .enter hb (.inside rfl rfl ?_)
  by_cases he : a = b
  · rw [truth_of_pos he, truth_of_neg (not_not.mpr he)]
    exact .inside rfl (Machine.step_jumpZero_passed (by decide)) (verdict_falls h.distinct hv)
  · rw [truth_of_neg he, truth_of_pos he]
    exact .inside rfl (Machine.step_jumpZero_taken hy) verdict_jumps

end Linked

end StackC.Asm
