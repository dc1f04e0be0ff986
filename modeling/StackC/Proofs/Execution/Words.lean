import StackC.Proofs.Execution.Comparison

/-! The comparison routines on a machine whose values are signed words of 32 bits. They read the
order of two words off the sign of a difference, so they are right where that difference is a word
itself. -/
namespace StackC.Asm

/-- What is left of an exact number in a word. -/
def wrap (v : Int) : Int := v.bmod 4294967296

def words (ws : List Int32) : List Int := ws.map Int32.toInt

def IsWord (v : Int) : Prop := -2147483648 ≤ v ∧ v ≤ 2147483647

@[simp] theorem words_cons (w : Int32) (ws : List Int32) :
    words (w :: ws) = w.toInt :: words ws := rfl

/-- The number in a word stays as it is. -/
@[simp] theorem wrap_toInt (w : Int32) : wrap w.toInt = w.toInt := Int32.toInt_bmod w

@[simp] theorem map_wrap_words (ws : List Int32) : (words ws).map wrap = words ws := by
  simp [words]

/-- A difference of words wraps around to their difference as words. -/
theorem map_wrap_sub (a b : Int32) (ws : List Int32) :
    ((a.toInt - b.toInt) :: words ws).map wrap = words ((a - b) :: ws) := by
  rw [List.map_cons, map_wrap_words, words_cons, Int32.toInt_sub]
  rfl

private theorem map_wrap_truth (p : Prop) [Decidable p] (ws : List Int32) :
    (truth p :: words ws).map wrap = words ((if p then 1 else 0) :: ws) := by
  rw [List.map_cons, map_wrap_words, words_cons, truth]
  split <;> rfl

namespace Machine

/-- One step on words: exact results are wrapped around. -/
def wordStep (M : Machine) (code : List Instr) (s : State) : Option State :=
  (M.step code s).map fun t => { t with stack := t.stack.map wrap }

/-- The machine on words gets from one state to another, and not to the place of the second one
before. -/
def WordRuns (M : Machine) (code : List Instr) (s t : State) : Prop :=
  Relation.ReflTransGen (fun u v => u.Before t.rest t.calls ∧ M.wordStep code u = some v) s t

variable {M : Machine} {code : List Instr} {s t u : State}

namespace WordRuns

theorem refl : M.WordRuns code s s := Relation.ReflTransGen.refl

/-- One step of a part before the place, and then others. -/
theorem step {i : Instr} (part : List Instr) (hp : s.rest = i :: part ++ t.rest)
    (hc : s.calls = t.calls) (h : M.step code s = some u) {ws : List Int32}
    (hw : u.stack.map wrap = words ws) (h' : M.WordRuns code { u with stack := words ws } t) :
    M.WordRuns code s t := by
  refine Relation.ReflTransGen.head ⟨.ahead _ (List.cons_ne_nil i part) hp hc, ?_⟩ h'
  simp [wordStep, h, hw]

/-- A place is reached in one way. -/
theorem unique (ht : M.WordRuns code s t) (hu : M.WordRuns code s u) (hr : t.rest = u.rest)
    (hc : t.calls = u.calls) : t = u := by
  induction ht using Relation.ReflTransGen.head_induction_on with
  | refl =>
    rcases Relation.ReflTransGen.cases_head hu with rfl | ⟨v, ⟨hb, -⟩, -⟩
    · rfl
    · rw [← hr, ← hc] at hb
      exact absurd hb t.not_before_self
  | head hab _ ih =>
    rcases Relation.ReflTransGen.cases_head hu with rfl | ⟨v, ⟨-, hv⟩, hu⟩
    · have hb := hab.1
      rw [hr, hc] at hb
      exact absurd hb (State.not_before_self _)
    · cases hab.2.symm.trans hv
      exact ih hu

end WordRuns

end Machine

section Routines

variable {M : Machine} {code before tail : List Instr} {yes done : Bytes} {x : Int32}
  {stack : List Int32} {shown : List Int} {calls : List (List Instr)} {memory : Memory}

/-- A routine whose test fails gets to its end with 0. -/
theorem verdict_falls_words (hd : (labels code).Nodup)
    (h : before ++ verdictThen yes done tail <:+ code) :
    M.WordRuns code ⟨verdictThen yes done tail, words (x :: stack), calls, memory, shown⟩
      ⟨.ret :: tail, words (0 :: stack), calls, memory, shown⟩ := by
  refine .step [.push 0, .jump done, .label yes, .drop, .push 1, .label done] rfl rfl rfl
    (map_wrap_words stack) ?_
  refine .step [.jump done, .label yes, .drop, .push 1, .label done] rfl rfl rfl
    (map_wrap_words (0 :: stack)) ?_
  exact .step [.label yes, .drop, .push 1, .label done] rfl rfl
    (Machine.step_jump (behind_done hd h)) (map_wrap_words (0 :: stack)) .refl

/-- A routine that is left at its test gets to its end with 1. -/
theorem verdict_jumps_words :
    M.WordRuns code
      ⟨.drop :: .push 1 :: .label done :: .ret :: tail, words (x :: stack), calls, memory, shown⟩
      ⟨.ret :: tail, words (1 :: stack), calls, memory, shown⟩ := by
  refine .step [.push 1, .label done] rfl rfl rfl (map_wrap_words stack) ?_
  refine .step [.label done] rfl rfl rfl (map_wrap_words (1 :: stack)) ?_
  exact .step [] rfl rfl rfl (map_wrap_words (1 :: stack)) .refl

def verdictPart (yes done : Bytes) : List Instr :=
  [.drop, .push 0, .jump done, .label yes, .drop, .push 1, .label done]

/-- What the routine of an operator makes of two words. -/
def verdictOn (a b : Int32) : BinaryOp → Int32
  | .lt => if (a - b).toInt < 0 then 1 else 0
  | .le => if (a - b).toInt ≤ 0 then 1 else 0
  | _ => if a ≠ b then 1 else 0

variable {a b : Int32}

private theorem less_words (hd : (labels code).Nodup) (hc : Routine.less.code ++ tail <:+ code) :
    M.WordRuns code ⟨Routine.less.code ++ tail, words (b :: a :: stack), calls, memory, shown⟩
      ⟨.ret :: tail, words (verdictOn a b .lt :: stack), calls, memory, shown⟩ := by
  have hv : [Instr.label (ascii "le"), .sub, .jumpNegative (ascii "le.less")] ++
      verdictThen (ascii "le.less") (ascii "le.end") tail <:+ code := hc
  have hy := behind_verdict hd hv
  let part := verdictPart (ascii "le.less") (ascii "le.end")
  refine .step (.sub :: .jumpNegative (ascii "le.less") :: part) rfl rfl rfl
    (map_wrap_words (b :: a :: stack)) ?_
  refine .step (.jumpNegative (ascii "le.less") :: part) rfl rfl rfl (map_wrap_sub a b stack) ?_
  by_cases hn : (a - b).toInt < 0
  · rw [verdictOn, if_pos hn]
    exact .step part rfl rfl (Machine.step_jumpNegative_taken hn hy)
      (map_wrap_words ((a - b) :: stack)) verdict_jumps_words
  · rw [verdictOn, if_neg hn]
    exact .step part rfl rfl (Machine.step_jumpNegative_passed hn)
      (map_wrap_words ((a - b) :: stack)) (verdict_falls_words hd hv)

private theorem lessOrEqual_words (hd : (labels code).Nodup)
    (hc : Routine.lessOrEqual.code ++ tail <:+ code) :
    M.WordRuns code
      ⟨Routine.lessOrEqual.code ++ tail, words (b :: a :: stack), calls, memory, shown⟩
      ⟨.ret :: tail, words (verdictOn a b .le :: stack), calls, memory, shown⟩ := by
  have hv : [Instr.label (ascii "leq"), .sub, .jumpNegative (ascii "leq.lesseq"),
      .jumpZero (ascii "leq.lesseq")] ++
      verdictThen (ascii "leq.lesseq") (ascii "leq.end") tail <:+ code := hc
  have hy := behind_verdict hd hv
  have keep := map_wrap_words ((a - b) :: stack)
  let part := verdictPart (ascii "leq.lesseq") (ascii "leq.end")
  let zero := .jumpZero (ascii "leq.lesseq") :: part
  refine .step (.sub :: .jumpNegative (ascii "leq.lesseq") :: zero) rfl rfl rfl
    (map_wrap_words (b :: a :: stack)) ?_
  refine .step (.jumpNegative (ascii "leq.lesseq") :: zero) rfl rfl rfl (map_wrap_sub a b stack) ?_
  rcases Int.lt_trichotomy (a - b).toInt 0 with hn | hz | hp
  · rw [verdictOn, if_pos (Int.le_of_lt hn)]
    exact .step zero rfl rfl (Machine.step_jumpNegative_taken hn hy) keep verdict_jumps_words
  · rw [verdictOn, if_pos (Int.le_of_eq hz)]
    refine .step zero rfl rfl (Machine.step_jumpNegative_passed (by omega)) keep ?_
    rw [Int32.toInt_inj.mp (show (a - b).toInt = (0 : Int32).toInt from hz)]
    exact .step part rfl rfl (Machine.step_jumpZero_taken hy) (map_wrap_words (0 :: stack))
      verdict_jumps_words
  · rw [verdictOn, if_neg (by omega)]
    refine .step zero rfl rfl (Machine.step_jumpNegative_passed (by omega)) keep ?_
    exact .step part rfl rfl (Machine.step_jumpZero_passed (by omega)) keep
      (verdict_falls_words hd hv)

private theorem notEqual_words (hd : (labels code).Nodup)
    (hc : Routine.notEqual.code ++ tail <:+ code) :
    M.WordRuns code ⟨Routine.notEqual.code ++ tail, words (b :: a :: stack), calls, memory, shown⟩
      ⟨.ret :: tail, words (verdictOn a b .ne :: stack), calls, memory, shown⟩ := by
  have hv : [Instr.label (ascii "ne"), .equal, .jumpZero (ascii "ne.neq")] ++
      verdictThen (ascii "ne.neq") (ascii "ne.end") tail <:+ code := hc
  have hy := behind_verdict hd hv
  let part := verdictPart (ascii "ne.neq") (ascii "ne.end")
  refine .step (.equal :: .jumpZero (ascii "ne.neq") :: part) rfl rfl rfl
    (map_wrap_words (b :: a :: stack)) ?_
  refine .step (.jumpZero (ascii "ne.neq") :: part) rfl rfl rfl
    (map_wrap_truth (a.toInt = b.toInt) stack) ?_
  by_cases he : a = b
  · simp only [verdictOn, if_neg (not_not.mpr he), if_pos (congrArg Int32.toInt he)]
    exact .step part rfl rfl (Machine.step_jumpZero_passed (by decide))
      (map_wrap_words (1 :: stack)) (verdict_falls_words hd hv)
  · simp only [verdictOn, if_pos he, if_neg (mt Int32.toInt_inj.mp he)]
    exact .step part rfl rfl (Machine.step_jumpZero_taken hy)
      (map_wrap_words (0 :: stack)) verdict_jumps_words

/-- Every routine gets to its end with its verdict in the place of the operands. -/
theorem routine_words {r : Routine} (hr : r ∈ Routine.all) (hd : (labels code).Nodup)
    (hc : r.code ++ tail <:+ code) :
    M.WordRuns code ⟨r.code ++ tail, words (b :: a :: stack), calls, memory, shown⟩
      ⟨.ret :: tail, words (verdictOn a b r.op :: stack), calls, memory, shown⟩ := by
  simp only [Routine.all, List.mem_cons, List.not_mem_nil, or_false] at hr
  rcases hr with rfl | rfl | rfl
  · exact less_words hd hc
  · exact lessOrEqual_words hd hc
  · exact notEqual_words hd hc

end Routines

/-- A difference of words that is no word has the wrong sign, and is not zero. -/
theorem sign_sub_iff (a b : Int32) :
    (((a - b).toInt < 0 ↔ a.toInt < b.toInt) ↔ IsWord (a.toInt - b.toInt)) ∧
      (((a - b).toInt ≤ 0 ↔ a.toInt ≤ b.toInt) ↔ IsWord (a.toInt - b.toInt)) := by
  have ha := And.intro a.le_toInt a.toInt_lt
  have hb := And.intro b.le_toInt b.toInt_lt
  rw [Int32.toInt_sub, Int.bmod_def, IsWord]
  constructor
  · split <;> omega
  · split <;> omega

/-- A test stands for a comparison if both hold at once. -/
theorem truth_eq_iff {p q : Prop} [Decidable p] [Decidable q] :
    some (truth p) = some (if q then (1 : Int32) else 0).toInt ↔ (q ↔ p) := by
  rw [truth, Option.some_inj]
  split <;> split <;> simp_all

/-- The verdict is that of the operator on the exact numbers if and only if no order is read off a
difference that is no word. -/
theorem apply_eq_verdictOn_iff {M : Machine} {r : Routine} (hr : r ∈ Routine.all) (a b : Int32) :
    r.op.apply M a.toInt b.toInt = some (verdictOn a b r.op).toInt ↔
      r.op = .ne ∨ IsWord (a.toInt - b.toInt) := by
  simp only [Routine.all, List.mem_cons, List.not_mem_nil, or_false] at hr
  rcases hr with rfl | rfl | rfl
  · rw [← (sign_sub_iff a b).1]
    exact (truth_eq_iff (p := a.toInt < b.toInt) (q := (a - b).toInt < 0)).trans
      (by simp [Routine.less])
  · rw [← (sign_sub_iff a b).2]
    exact (truth_eq_iff (p := a.toInt ≤ b.toInt) (q := (a - b).toInt ≤ 0)).trans
      (by simp [Routine.lessOrEqual])
  · refine (truth_eq_iff (p := a.toInt ≠ b.toInt) (q := a ≠ b)).trans ?_
    simp [Routine.notEqual, Int32.toInt_inj]

/-- Every routine gets from its entry to its return with 1 or 0 in the place of its two operands and
all else as it was. This is the value of its operator if and only if the routine does not read the
order of its operands off a difference that is no word. -/
theorem routine_compares_iff (M : Machine) {r : Routine} (hr : r ∈ Routine.all)
    {code tail : List Instr} (hd : (labels code).Nodup) (hc : r.code ++ tail <:+ code)
    (a b : Int32) (stack : List Int32) (calls : List (List Instr)) (memory : Memory)
    (shown : List Int) :
    ∃ v : Int32, (v = 0 ∨ v = 1) ∧
      M.WordRuns code ⟨r.code ++ tail, words (b :: a :: stack), calls, memory, shown⟩
        ⟨.ret :: tail, words (v :: stack), calls, memory, shown⟩ ∧
      (r.op.apply M a.toInt b.toInt = some v.toInt ↔
        r.op = .ne ∨ IsWord (a.toInt - b.toInt)) := by
  refine ⟨verdictOn a b r.op, ?_, routine_words hr hd hc, apply_eq_verdictOn_iff hr a b⟩
  unfold verdictOn
  repeat' split
  all_goals simp

def allRoutines : List Instr := Routine.all.flatMap Routine.code

def plainMachine : Machine := ⟨fun _ => 0, Int.tdiv⟩

/-- The least word is not greater than zero. -/
theorem routine_compares_least :
    Routine.lessOrEqual ∈ Routine.all ∧ (labels allRoutines).Nodup ∧
      Routine.lessOrEqual.code ++ Routine.notEqual.code <:+ allRoutines ∧
      ∃ v : Int32, (v = 0 ∨ v = 1) ∧
        plainMachine.WordRuns allRoutines
          ⟨Routine.lessOrEqual.code ++ Routine.notEqual.code, words [0, Int32.minValue, 7], [],
            fun _ => none, []⟩
          ⟨.ret :: Routine.notEqual.code, words [v, 7], [], fun _ => none, []⟩ ∧
        (BinaryOp.le.apply plainMachine Int32.minValue.toInt (0 : Int32).toInt = some v.toInt ↔
          BinaryOp.le = .ne ∨ IsWord (Int32.minValue.toInt - (0 : Int32).toInt)) := by
  have hr : Routine.lessOrEqual ∈ Routine.all := by decide
  have hd : (labels allRoutines).Nodup := by decide +kernel
  have hc : Routine.lessOrEqual.code ++ Routine.notEqual.code <:+ allRoutines :=
    ⟨Routine.less.code, rfl⟩
  exact ⟨hr, hd, hc, routine_compares_iff plainMachine hr hd hc Int32.minValue 0 [7] [] _ []⟩

/-- Not every routine gets to its return with the value of its operator: the least word is less than
one, but their difference wraps around to the greatest word. -/
theorem not_forall_routine_compares :
    ¬∀ (M : Machine) (r : Routine), r ∈ Routine.all →
      ∀ (a b v : Int32) (stack : List Int32) (memory : Memory),
        r.op.apply M a.toInt b.toInt = some v.toInt →
        M.WordRuns r.code ⟨r.code, words (b :: a :: stack), [], memory, []⟩
          ⟨[.ret], words (v :: stack), [], memory, []⟩ := by
  intro h
  have hr : Routine.less ∈ Routine.all := by decide
  have hright := h plainMachine .less hr Int32.minValue 1 1 [] (fun _ => none) (by decide)
  have hwrong : plainMachine.WordRuns Routine.less.code
      ⟨Routine.less.code ++ [], words [1, Int32.minValue], [], fun _ => none, []⟩
      ⟨[.ret], words [verdictOn Int32.minValue 1 .lt], [], fun _ => none, []⟩ :=
    routine_words hr (by decide +kernel) ⟨[], rfl⟩
  have he := hright.unique hwrong rfl rfl
  have hs : words [1] = words [0] := congrArg State.stack he
  revert hs
  decide

end StackC.Asm
