import StackC.Proofs.Lowering.Labels

/-! The ways that control can take through code, and the depth of the stack along them. -/
namespace StackC.Asm

/-- What the conditional jumps do with the value that they test: they take it off the stack or they
keep it there. -/
structure JumpMeaning where
  zeroPops : Bool
  negativePops : Bool
  deriving DecidableEq, Repr

/-- How many of the values that `jumpZero` tests stay on the stack. -/
def JumpMeaning.left (m : JumpMeaning) : Nat := if m.zeroPops then 0 else 1

/-- An instruction, with the number of its arguments if it is a call. -/
structure Marked where
  instr : Instr
  args : Nat := 0
  deriving DecidableEq, Repr

namespace Marked

/-- How many values there have to be on the stack. -/
def pops (i : Marked) : Nat :=
  match i.instr with
  | .label _ | .jump _ | .ret | .halt | .push _ | .load _ | .address _ => 0
  | .jumpZero _ | .jumpNegative _ | .display | .store _ | .storeThrough _ | .drop | .neg
  | .deref => 1
  | .add | .sub | .mul | .div | .equal => 2
  | .call _ => i.args

/-- How many values come in their place. -/
def pushes (m : JumpMeaning) (i : Marked) : Nat :=
  match i.instr with
  | .push _ | .load _ | .address _ | .neg | .deref | .add | .sub | .mul | .div | .equal
  | .call _ => 1
  | .jumpZero _ => if m.zeroPops then 0 else 1
  | .jumpNegative _ => if m.negativePops then 0 else 1
  | _ => 0

def net (m : JumpMeaning) (i : Marked) : Int := i.pushes m - i.pops

section

variable (m : JumpMeaning) (l : Bytes) (n : Nat)

theorem net_label : net m ⟨.label l, n⟩ = 0 := rfl

theorem net_jump : net m ⟨.jump l, n⟩ = 0 := rfl

theorem net_jumpZero : net m ⟨.jumpZero l, n⟩ = m.left - 1 := rfl

theorem net_call : net m ⟨.call l, n⟩ = 1 - n := rfl

end

end Marked

def instrs (code : List Marked) : List Instr := code.map Marked.instr

/-- What the instructions add to the depth of the stack if they are run one after the other. -/
def rise (m : JumpMeaning) : List Marked → Int
  | [] => 0
  | i :: code => i.net m + rise m code

/-- The code behind the first place of a label. -/
def after (l : Bytes) : List Marked → Option (List Marked)
  | [] => none
  | i :: rest => if i.instr = .label l then some rest else after l rest

/-- The places where control can be after an instruction. A jump to a label that the code does not
have leaves it. -/
def successors (code : List Marked) (i : Marked) (rest : List Marked) : List (List Marked) :=
  match i.instr with
  | .jump l => (after l code).toList
  | .jumpZero l | .jumpNegative l => rest :: (after l code).toList
  | .ret | .halt => []
  | _ => [rest]

/-- Control can get from one place to another in this many steps, and the depth of the stack from
one number to another. -/
inductive Path (m : JumpMeaning) (code : List Marked) :
    Nat → List Marked → Int → List Marked → Int → Prop
  | stay {s : List Marked} {d : Int} : Path m code 0 s d s d
  | step {k : Nat} {i : Marked} {rest next t : List Marked} {d e : Int}
      (leads : next ∈ successors code i rest) (later : Path m code k next (d + i.net m) t e) :
      Path m code (k + 1) (i :: rest) d t e

section Places

variable {l : Bytes} {n : Nat} {code a b : List Marked}

@[simp] theorem instrs_cons (i : Marked) : instrs (i :: a) = i.instr :: instrs a := rfl

@[simp] theorem instrs_append : instrs (a ++ b) = instrs a ++ instrs b := List.map_append

@[simp] theorem rise_nil (m : JumpMeaning) : rise m [] = 0 := rfl

@[simp] theorem rise_cons (m : JumpMeaning) (i : Marked) :
    rise m (i :: a) = i.net m + rise m a := rfl

@[simp] theorem rise_append (m : JumpMeaning) : rise m (a ++ b) = rise m a + rise m b := by
  induction a with
  | nil => rw [List.nil_append, rise_nil, Int.zero_add]
  | cons i a ih => rw [List.cons_append, rise_cons, rise_cons, ih, Int.add_assoc]

theorem after_eq_none (h : l ∉ labels (instrs code)) : after l code = none := by
  induction code with
  | nil => rfl
  | cons i code ih =>
    rw [mem_labels, instrs_cons, List.mem_cons, not_or] at h
    have hrest : l ∉ labels (instrs code) := mt mem_labels.mp h.2
    simp [after, Ne.symm h.1, ih hrest]

private theorem after_append (h : l ∉ labels (instrs a)) :
    after l (a ++ ⟨.label l, n⟩ :: b) = some b := by
  induction a with
  | nil => simp [after]
  | cons i a ih =>
    rw [mem_labels, instrs_cons, List.mem_cons, not_or] at h
    have hrest : l ∉ labels (instrs a) := mt mem_labels.mp h.2
    simp [after, Ne.symm h.1, ih hrest]

/-- Where labels are distinct, a jump leads behind the label in any suffix. -/
theorem after_of_suffix (hd : (labels (instrs code)).Nodup)
    (h : a ++ ⟨.label l, n⟩ :: b <:+ code) : after l code = some b := by
  obtain ⟨c, rfl⟩ := h
  rw [← List.append_assoc] at hd ⊢
  refine after_append fun hl => ?_
  rw [instrs_append, labels_append] at hd
  exact List.disjoint_of_nodup_append hd hl (by simp)

end Places

/-- Control runs through the code from its beginning to its end, and adds this to the depth. -/
structure Straight (m : JumpMeaning) (code : List Marked) (r : Int) : Prop where
  plain : (instrs code).all Instr.isPlain
  rise_eq : rise m code = r

theorem successors_plain {code rest : List Marked} {i : Marked} (h : i.instr.isPlain) :
    successors code i rest = [rest] := by
  unfold successors
  cases hi : i.instr <;> simp_all [Instr.isPlain]

namespace Path

variable {m : JumpMeaning} {code s t u rest : List Marked} {i : Marked} {k j n : Nat}
  {d e f : Int} {l : Bytes}

theorem trans (h : Path m code k s d t e) (h' : Path m code j t e u f) :
    Path m code (k + j) s d u f := by
  induction h with
  | stay =>
    rw [Nat.zero_add]
    exact h'
  | step leads later ih =>
    rw [Nat.add_right_comm]
    exact .step leads (ih h')

/-- A path to the end begins with a step, if it is not there yet. -/
theorem exists_step (h : Path m code k (i :: rest) d [] e) :
    ∃ k' next, k = k' + 1 ∧ next ∈ successors code i rest ∧
      Path m code k' next (d + i.net m) [] e := by
  cases h with
  | step leads later => exact ⟨_, _, rfl, leads, later⟩

/-- At the end a path is over. -/
theorem eq_of_nil (h : Path m code k [] d [] e) : e = d := by
  cases h
  rfl

section Straight

variable {a : List Marked} {r : Int}

/-- Straight code leads to what is behind it. -/
theorem straight (ha : Straight m a r) (d : Int) :
    Path m code a.length (a ++ rest) d rest (d + r) := by
  obtain ⟨hplain, rfl⟩ := ha
  induction a generalizing d with
  | nil =>
    rw [rise_nil, Int.add_zero]
    exact .stay
  | cons i a ih =>
    rw [instrs_cons, List.all_cons, Bool.and_eq_true] at hplain
    rw [rise_cons, ← Int.add_assoc]
    refine .step ?_ (ih _ hplain.2)
    rw [successors_plain hplain.1]
    exact List.mem_singleton_self _

/-- A path to the end has to run through straight code. -/
theorem behind_straight (ha : Straight m a r) (h : Path m code k (a ++ rest) d [] e) :
    ∃ k' ≤ k, Path m code k' rest (d + r) [] e := by
  obtain ⟨hplain, rfl⟩ := ha
  induction a generalizing k d with
  | nil =>
    refine ⟨k, Nat.le_refl k, ?_⟩
    rw [rise_nil, Int.add_zero]
    exact h
  | cons i a ih =>
    rw [instrs_cons, List.all_cons, Bool.and_eq_true] at hplain
    obtain ⟨k₁, next, rfl, leads, later⟩ := h.exists_step
    rw [successors_plain hplain.1, List.mem_singleton] at leads
    subst leads
    obtain ⟨k', hk, later⟩ := ih later hplain.2
    refine ⟨k', by omega, ?_⟩
    rw [rise_cons, ← Int.add_assoc]
    exact later

end Straight

section Control

theorem label (d : Int) : Path m code 1 (⟨.label l, n⟩ :: rest) d rest d := by
  have hd : d + Marked.net m ⟨.label l, n⟩ = d := by rw [Marked.net_label, Int.add_zero]
  have leads : rest ∈ successors code ⟨.label l, n⟩ rest := List.mem_singleton_self rest
  refine .step leads ?_
  rw [hd]
  exact .stay

theorem behind_label (h : Path m code k (⟨.label l, n⟩ :: rest) d [] e) :
    ∃ k' < k, Path m code k' rest d [] e := by
  obtain ⟨k', next, rfl, leads, later⟩ := h.exists_step
  have hd : d + Marked.net m ⟨.label l, n⟩ = d := by rw [Marked.net_label, Int.add_zero]
  rw [hd] at later
  cases List.mem_singleton.mp leads
  exact ⟨k', Nat.lt_succ_self k', later⟩

theorem jump (ht : after l code = some t) (d : Int) :
    Path m code 1 (⟨.jump l, n⟩ :: rest) d t d := by
  have hd : d + Marked.net m ⟨.jump l, n⟩ = d := by rw [Marked.net_jump, Int.add_zero]
  have leads : t ∈ successors code ⟨.jump l, n⟩ rest := by simp [successors, ht]
  refine .step leads ?_
  rw [hd]
  exact .stay

theorem behind_jump (h : Path m code k (⟨.jump l, n⟩ :: rest) d [] e) :
    ∃ k' t, k' < k ∧ after l code = some t ∧ Path m code k' t d [] e := by
  obtain ⟨k', next, rfl, leads, later⟩ := h.exists_step
  have hd : d + Marked.net m ⟨.jump l, n⟩ = d := by rw [Marked.net_jump, Int.add_zero]
  rw [hd] at later
  exact ⟨k', next, Nat.lt_succ_self k', by simpa [successors] using leads, later⟩

/-- A conditional jump leads on, or behind its label. -/
theorem behind_jumpZero (h : Path m code k (⟨.jumpZero l, n⟩ :: rest) (d + 1) [] e) :
    ∃ k' < k, Path m code k' rest (d + m.left) [] e ∨
      ∃ t, after l code = some t ∧ Path m code k' t (d + m.left) [] e := by
  obtain ⟨k', next, rfl, leads, later⟩ := h.exists_step
  have hd : d + 1 + Marked.net m ⟨.jumpZero l, n⟩ = d + m.left := by
    rw [Marked.net_jumpZero]
    omega
  rw [hd] at later
  refine ⟨k', Nat.lt_succ_self k', ?_⟩
  have hn : next = rest ∨ after l code = some next := by simpa [successors] using leads
  rcases hn with rfl | hn
  · exact .inl later
  · exact .inr ⟨next, hn, later⟩

theorem jumpZero (ht : t = rest ∨ after l code = some t) (d : Int) :
    Path m code 1 (⟨.jumpZero l, n⟩ :: rest) (d + 1) t (d + m.left) := by
  have hd : d + 1 + Marked.net m ⟨.jumpZero l, n⟩ = d + m.left := by
    rw [Marked.net_jumpZero]
    omega
  have leads : t ∈ successors code ⟨.jumpZero l, n⟩ rest := by simpa [successors] using ht
  refine .step leads ?_
  rw [hd]
  exact .stay

end Control

end Path

end StackC.Asm
