import StackC.Proofs.Asm.Paths

/-! What the comparison routines do to the stack: which meanings of the jumps make them put one
value in the place of their two operands. -/
namespace StackC.Asm

/-- The routine as it stands. It makes no calls. -/
def Routine.marked (r : Routine) : List Marked := r.code.map fun i => { instr := i }

/-- Before the next instruction all that it takes is there, and before a return nothing else. -/
def fits (s : List Marked) (d : Int) : Bool :=
  s.head?.all fun i => i.pops ≤ d && (i.instr != .ret || d == 1)

/-- On every path from its entry on the routine leaves what is below its operands alone, and where
it returns there is one value in their place. -/
def Replaces (m : JumpMeaning) (r : Routine) : Prop :=
  ∀ k s d, Path m r.marked k r.marked 2 s d → fits s d

/-- The meanings that the routine of an operator was written for. -/
def JumpMeaning.suits (m : JumpMeaning) : BinaryOp → Bool
  | .lt => !m.negativePops
  | .le => !m.zeroPops && !m.negativePops
  | .ne => !m.zeroPops
  | _ => true

section Search

variable (m : JumpMeaning) (code : List Marked)

/-- All paths of less than this many steps fit, and none is longer. -/
def allFit : Nat → List Marked → Int → Bool
  | 0, _, _ => false
  | _ + 1, [], _ => true
  | k + 1, i :: rest, d => fits (i :: rest) d &&
      (successors code i rest).all fun next => allFit k next (d + i.net m)

/-- Where control is after this many steps, if it goes on to the next instruction wherever it
can. -/
def fall : Nat → List Marked → Int → Option (List Marked × Int)
  | 0, s, d => some (s, d)
  | _ + 1, [], _ => none
  | k + 1, i :: rest, d => (successors code i rest).head?.bind fun next => fall k next (d + i.net m)

variable {m code}

private theorem fits_of_allFit {k j : Nat} {s t : List Marked} {d e : Int}
    (h : Path m code k s d t e) (ha : allFit m code j s d) : fits t e := by
  induction h generalizing j with
  | @stay s d =>
    cases s with
    | nil => rfl
    | cons i rest =>
      cases j with
      | zero => cases ha
      | succ j =>
        rw [allFit, Bool.and_eq_true] at ha
        exact ha.1
  | step leads later ih =>
    cases j with
    | zero => cases ha
    | succ j =>
      rw [allFit, Bool.and_eq_true, List.all_eq_true] at ha
      exact ih (ha.2 _ leads)

private theorem path_of_fall {k : Nat} {s t : List Marked} {d e : Int}
    (h : fall m code k s d = some (t, e)) : Path m code k s d t e := by
  induction k generalizing s d with
  | zero =>
    cases h
    exact .stay
  | succ k ih =>
    cases s with
    | nil => cases h
    | cons i rest =>
      rw [fall, Option.bind_eq_some_iff] at h
      obtain ⟨next, hn, h⟩ := h
      exact .step (List.mem_of_mem_head? hn) (ih h)

end Search

section Routines

variable {m : JumpMeaning} {r : Routine} (hr : r ∈ Routine.all)

include hr

private theorem replaces_of_suits (h : m.suits r.op) : Replaces m r := by
  have hd : ∀ zero negative, ∀ r ∈ Routine.all, (JumpMeaning.mk zero negative).suits r.op →
      allFit ⟨zero, negative⟩ r.marked 12 r.marked 2 := by decide
  intro k s d path
  exact fits_of_allFit path (hd _ _ r hr h)

/-- A jump that takes what it tests leaves too little for the instruction behind it. -/
theorem suits_of_replaces (h : Replaces m r) : m.suits r.op := by
  have hd : ∀ zero negative, ∀ r ∈ Routine.all, (JumpMeaning.mk zero negative).suits r.op = false →
      ∃ k ∈ List.range 5, ∃ x ∈ fall ⟨zero, negative⟩ r.marked k r.marked 2,
        fits x.1 x.2 = false := by decide
  by_contra hn
  obtain ⟨k, -, ⟨s, d⟩, hfall, hfits⟩ := hd _ _ r hr (Bool.eq_false_iff.mpr hn)
  have hgood := h k s d (path_of_fall hfall)
  rw [hfits] at hgood
  cases hgood

/-- A routine replaces its operands for the meanings it was written for, and for no others. -/
theorem replaces_iff : Replaces m r ↔ m.suits r.op :=
  ⟨suits_of_replaces hr, replaces_of_suits hr⟩

end Routines

end StackC.Asm
