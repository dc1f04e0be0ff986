import StackC.Proofs.Execution.Program
import StackC.Proofs.Lowering.Supply

/-! The value of an assignment. Its code stores the value of the right side and loads it again from
where it went, so that the two may differ if the store changes the pointer that it goes through. -/
namespace StackC

/-- No node among these is a call. -/
def Expr.CallFree (xs : List Expr) : Prop := ∀ pos name args, Expr.call pos name args ∉ xs

theorem Expr.CallFree.mono {xs ys : List Expr} (h : CallFree ys) (hs : xs ⊆ ys) : CallFree xs :=
  fun pos name args hm => h pos name args (hs hm)

namespace Asm.Machine

open Lowering (Context value)

variable {M : Machine} {code a b : List Instr} {xs ys : List Int} {k n : Nat}

section Steps

variable {x : Bytes} {v p : Int} {rest : List Instr} {stack shown : List Int}
  {calls : List (List Instr)} {memory : Memory} {u : State}

theorem step_load_eq_some : M.step code ⟨.load x :: rest, stack, calls, memory, shown⟩ = some u ↔
    ∃ v, memory (M.address x) = some v ∧ u = ⟨rest, v :: stack, calls, memory, shown⟩ := by
  simp [step, execute, @eq_comm State u]

theorem step_deref_eq_some :
    M.step code ⟨.deref :: rest, p :: stack, calls, memory, shown⟩ = some u ↔
    ∃ v, memory p = some v ∧ u = ⟨rest, v :: stack, calls, memory, shown⟩ := by
  simp [step, execute, @eq_comm State u]

theorem step_store_eq_some :
    M.step code ⟨.store x :: rest, v :: stack, calls, memory, shown⟩ = some u ↔
      (∃ old, memory (M.address x) = some old) ∧
        u = ⟨rest, stack, calls, Function.update memory (M.address x) (some v), shown⟩ := by
  simp [step, execute, State.write, @eq_comm State u]

theorem step_storeThrough_eq_some :
    M.step code ⟨.storeThrough x :: rest, v :: stack, calls, memory, shown⟩ = some u ↔
      ∃ a, memory (M.address x) = some a ∧ (∃ old, memory a = some old) ∧
        u = ⟨rest, stack, calls, Function.update memory a (some v), shown⟩ := by
  simp [step, execute, State.write, Option.bind_eq_some_iff, @eq_comm State u]

end Steps

/-- A run that is not over takes the step of the next instruction. -/
theorem Runs.next {i : Instr} {rest : List Instr} {stack shown : List Int}
    {calls : List (List Instr)} {memory : Memory} {t : State}
    (h : M.Runs code ⟨i :: rest, stack, calls, memory, shown⟩ t) (more : List Instr)
    (hrest : rest = more ++ t.rest) (hcalls : calls = t.calls) :
    ∃ u, M.step code ⟨i :: rest, stack, calls, memory, shown⟩ = some u ∧ M.Runs code u t :=
  h.exists_step (.ahead (i :: more) (List.cons_ne_nil _ _) (by simp [hrest]) hcalls)

/-- A run through the part of the code exchanges the values on top of the stack for some number of
others, and leaves alone what is below them. -/
def Exchanges (M : Machine) (code part : List Instr) (xs : List Int) (k : Nat) : Prop :=
  ∀ rest stack calls memory shown (t : State) more, rest = more ++ t.rest → calls = t.calls →
    M.Runs code ⟨part ++ rest, xs ++ stack, calls, memory, shown⟩ t →
    ∃ ys memory', ys.length = k ∧ M.Runs code ⟨part ++ rest, xs ++ stack, calls, memory, shown⟩
      ⟨rest, ys ++ stack, calls, memory', shown⟩

namespace Exchanges

theorem append (ha : M.Exchanges code a xs k) (ys : List Int)
    (hb : ∀ zs : List Int, zs.length = k → M.Exchanges code b (zs ++ ys) n) :
    M.Exchanges code (a ++ b) (xs ++ ys) n := by
  intro rest stack calls memory shown t more hrest hcalls hrun
  rw [List.append_assoc, List.append_assoc] at hrun ⊢
  obtain ⟨zs, m₁, hz, hfirst⟩ :=
    ha (b ++ rest) (ys ++ stack) calls memory shown t (b ++ more) (by simp [hrest]) hcalls hrun
  have hthen := hrun.onward hfirst (p := b ++ more) (by simp [hrest]) hcalls
  rw [← List.append_assoc] at hthen
  obtain ⟨ws, m₂, hw, hsecond⟩ := hb zs hz rest stack calls m₁ shown t more hrest hcalls hthen
  rw [List.append_assoc] at hsecond
  exact ⟨ws, m₂, hw, hfirst.trans hsecond rfl rfl⟩

/-- An instruction that control gets behind. -/
theorem instr {i : Instr} (h : ∀ rest stack calls memory shown u,
      M.step code ⟨i :: rest, xs ++ stack, calls, memory, shown⟩ = some u →
        ∃ ys memory', ys.length = k ∧ u = ⟨rest, ys ++ stack, calls, memory', shown⟩) :
    M.Exchanges code [i] xs k := by
  intro rest stack calls memory shown t more hrest hcalls hrun
  obtain ⟨u, hu, -⟩ := hrun.next _ hrest hcalls
  obtain ⟨ys, memory', hy, rfl⟩ := h rest stack calls memory shown u hu
  exact ⟨ys, memory', hy, .step (.ahead [i] (List.cons_ne_nil _ _) rfl rfl) hu .refl⟩

section Instructions

variable (name : Bytes) (v w : Int)

theorem load : M.Exchanges code [.load name] [] 1 := by
  refine instr fun rest stack calls memory shown u hu => ?_
  obtain ⟨x, -, rfl⟩ := step_load_eq_some.mp hu
  exact ⟨[x], memory, rfl, rfl⟩

theorem address : M.Exchanges code [.address name] [] 1 := by
  refine instr fun rest stack calls memory shown u hu => ?_
  cases hu
  exact ⟨[M.address name], memory, rfl, rfl⟩

theorem push : M.Exchanges code [.push v] [] 1 := by
  refine instr fun rest stack calls memory shown u hu => ?_
  cases hu
  exact ⟨[v], memory, rfl, rfl⟩

theorem neg : M.Exchanges code [.neg] [v] 1 := by
  refine instr fun rest stack calls memory shown u hu => ?_
  cases hu
  exact ⟨[-v], memory, rfl, rfl⟩

theorem deref : M.Exchanges code [.deref] [v] 1 := by
  refine instr fun rest stack calls memory shown u hu => ?_
  obtain ⟨x, -, rfl⟩ := step_deref_eq_some.mp hu
  exact ⟨[x], memory, rfl, rfl⟩

theorem store : M.Exchanges code [.store name] [v] 0 := by
  refine instr fun rest stack calls memory shown u hu => ?_
  obtain ⟨-, rfl⟩ := step_store_eq_some.mp hu
  exact ⟨[], _, rfl, rfl⟩

theorem storeThrough : M.Exchanges code [.storeThrough name] [v] 0 := by
  refine instr fun rest stack calls memory shown u hu => ?_
  obtain ⟨a, -, -, rfl⟩ := step_storeThrough_eq_some.mp hu
  exact ⟨[], _, rfl, rfl⟩

theorem div : M.Exchanges code [.div] [w, v] 1 := by
  refine instr fun rest stack calls memory shown u hu => ?_
  have hu : (if w = 0 then none
      else some (⟨rest, M.quotient v w :: stack, calls, memory, shown⟩ : State)) = some u := hu
  split at hu
  · cases hu
  · cases hu
    exact ⟨[M.quotient v w], memory, rfl, rfl⟩

end Instructions

variable {c : Context} {x : Expr} {part : List Instr}

theorem operation (hl : Linked c.req code) {pos : Int} {op : BinaryOp} {i : Instr}
    (ho : Lowering.operation c pos op = .ok i) (v w : Int) : M.Exchanges code [i] [w, v] 1 := by
  cases op with
  | add | sub | mul | eq =>
    cases ho
    refine instr fun rest stack calls memory shown u hu => ?_
    cases hu
    exact ⟨[_], memory, rfl, rfl⟩
  | div =>
    cases ho
    exact div v w
  | lt =>
    obtain ⟨hn, rfl⟩ := Lowering.routine_of_operation (r := Routine.less) rfl rfl ho
    exact fun _ _ _ memory _ _ _ _ _ _ => ⟨[_], memory, rfl, hl.less hn⟩
  | le =>
    obtain ⟨hn, rfl⟩ := Lowering.routine_of_operation (r := Routine.lessOrEqual) rfl rfl ho
    exact fun _ _ _ memory _ _ _ _ _ _ => ⟨[_], memory, rfl, hl.lessOrEqual hn⟩
  | ne =>
    obtain ⟨hn, rfl⟩ := Lowering.routine_of_operation (r := Routine.notEqual) rfl rfl ho
    exact fun _ _ _ memory _ _ _ _ _ _ => ⟨[_], memory, rfl, hl.notEqual hn⟩
  | invalid n => cases ho

theorem reload (hp : Lowering.place c x = .ok b) (h : Lowering.reload c x = .ok part) :
    M.Exchanges code part [] 1 := by
  have through (name : Bytes) : M.Exchanges code [.load name, .deref] [] 1 := by
    refine (load name).append [] (b := [.deref]) fun zs hz => ?_
    obtain ⟨z, rfl⟩ := List.length_eq_one_iff.mp hz
    exact deref z
  unfold Lowering.reload at h
  split at h
  · obtain ⟨name, -, h⟩ := Outcome.bind_eq_ok.mp h
    cases h
    exact load name
  · obtain ⟨name, -, h⟩ := Outcome.bind_eq_ok.mp h
    cases h
    exact through name
  · cases h
    exact through scratchName
  · next hv _ hd =>
    rcases Lowering.place_cases hp with ⟨p, i, name, rfl, -⟩ | ⟨q, p, i, name, rfl, -⟩ |
      ⟨q, y, a, rfl, -⟩
    · exact absurd rfl (hv p i)
    · exact absurd rfl (hd q _)
    · exact absurd rfl (hd q y)

/-- A store takes the value that is stored. -/
theorem place (h : ∀ q y, x = .deref q y → ∀ b, value c y = .ok b → M.Exchanges code b [] 1)
    (hp : Lowering.place c x = .ok part) (v : Int) : M.Exchanges code part [v] 0 := by
  rcases Lowering.place_cases hp with ⟨p, i, name, rfl, -, rfl⟩ | ⟨q, p, i, name, rfl, -, rfl⟩ |
    ⟨q, y, b, rfl, -, hb, rfl⟩
  · exact store name v
  · exact storeThrough name v
  · refine (h q y rfl b hb).append [v] fun zs hz => ?_
    obtain ⟨z, rfl⟩ := List.length_eq_one_iff.mp hz
    refine (store scratchName z).append [v] (b := [.storeThrough scratchName])
      fun zs hz => ?_
    cases List.length_eq_zero_iff.mp hz
    exact storeThrough scratchName v

/-- A run through the code of an expression without calls pushes one value, and one through a store
into it takes one. -/
theorem ofExpr (hl : Linked c.req code) (hx : x.Proper c.locals.length c.req)
    (hfree : Expr.CallFree x.nodes) :
    (∀ part, value c x = .ok part → M.Exchanges code part [] 1) ∧
      ∀ part, Lowering.place c x = .ok part → ∀ v, M.Exchanges code part [v] 0 := by
  induction hx with
  | num =>
    refine ⟨fun part hp => ?_, fun part => place (by simp)⟩
    cases hp
    exact push _
  | var bound =>
    refine ⟨fun part hp => ?_, fun part => place (by simp)⟩
    obtain ⟨name, -, rfl⟩ := Lowering.value_var_eq_ok.mp hp
    exact load name
  | neg operand ih =>
    refine ⟨fun part hp => ?_, fun part => place (by simp)⟩
    obtain ⟨a, ha, rfl⟩ := Lowering.value_neg_eq_ok.mp hp
    refine ((ih (hfree.mono (List.subset_cons_self _ _))).1 a ha).append [] fun zs hz => ?_
    obtain ⟨z, rfl⟩ := List.length_eq_one_iff.mp hz
    exact neg z
  | addr operand ih =>
    refine ⟨fun part hp => ?_, fun part => place (by simp)⟩
    obtain ⟨p, k, name, rfl, -, rfl⟩ := Lowering.value_addr_eq_ok.mp hp
    exact address name
  | deref operand ih =>
    have hinner := (ih (hfree.mono (List.subset_cons_self _ _))).1
    refine ⟨fun part hp => ?_, fun part => place fun q y hy => ?_⟩
    · obtain ⟨a, ha, rfl⟩ := Lowering.value_deref_eq_ok.mp hp
      refine (hinner a ha).append [] fun zs hz => ?_
      obtain ⟨z, rfl⟩ := List.length_eq_one_iff.mp hz
      exact deref z
    · cases hy
      exact hinner
  | @binary pos op l r supported left right ih₁ ih₂ =>
    refine ⟨fun part hp => ?_, fun part => place (by simp)⟩
    obtain ⟨a, b, i, ha, hb, hi, rfl⟩ := Lowering.value_binary_eq_ok.mp hp
    have hleft : l.nodes ⊆ (Expr.binary pos op l r).nodes := by simp [Expr.nodes]
    have hright : r.nodes ⊆ (Expr.binary pos op l r).nodes := by simp [Expr.nodes]
    rw [List.append_assoc]
    refine ((ih₁ (hfree.mono hleft)).1 a ha).append [] fun zs hz => ?_
    obtain ⟨v, rfl⟩ := List.length_eq_one_iff.mp hz
    refine ((ih₂ (hfree.mono hright)).1 b hb).append [v] fun zs hz => ?_
    obtain ⟨w, rfl⟩ := List.length_eq_one_iff.mp hz
    exact operation hl hi v w
  | @assign pos l r left right ih₁ ih₂ =>
    refine ⟨fun part hp => ?_, fun part => place (by simp)⟩
    obtain ⟨a, b, d, ha, hb, hd, rfl⟩ := Lowering.value_assign_eq_ok.mp hp
    have hleft : l.nodes ⊆ (Expr.assign pos l r).nodes := by simp [Expr.nodes]
    have hright : r.nodes ⊆ (Expr.assign pos l r).nodes := by simp [Expr.nodes]
    rw [List.append_assoc]
    refine ((ih₂ (hfree.mono hright)).1 a ha).append [] fun zs hz => ?_
    obtain ⟨v, rfl⟩ := List.length_eq_one_iff.mp hz
    refine ((ih₁ (hfree.mono hleft)).2 b hb v).append [] fun zs hz => ?_
    cases List.length_eq_zero_iff.mp hz
    exact reload hb hd
  | @call pos name args isName arguments ih => exact absurd List.mem_cons_self (hfree pos name args)

end Exchanges

/-- The machine runs the code of an expression from one state to the other, which is behind it, and
the value is on the stack then. -/
structure Yields (M : Machine) (code : List Instr) (c : Context) (x : Expr) (s t : State)
    (v : Int) : Prop where
  place : ∃ part, value c x = .ok part ∧ s.rest = part ++ t.rest
  level : s.calls = t.calls
  runs : M.Runs code s t
  stack : t.stack = v :: s.stack

/-- The address that a store into an expression goes to, if its code begins in this state. -/
inductive Aims (M : Machine) (code : List Instr) (c : Context) (s : State) : Expr → Int → Prop
  | variable {pos i : Int} {name : Bytes} (cell : c.cell i = .ok name) :
      Aims M code c s (.var pos i) (M.address name)
  | pointer {q pos i a : Int} {name : Bytes} (cell : c.cell i = .ok name)
      (holds : s.memory (M.address name) = some a) : Aims M code c s (.deref q (.var pos i)) a
  | computed {q a : Int} {y : Expr} {t : State} (compound : ∀ pos i, y ≠ .var pos i)
      (yields : M.Yields code c y s t a) : Aims M code c s (.deref q y) a

/-- The target is what a variable points to, and the address is that of the variable. -/
def PointsToItself (M : Machine) (c : Context) (l : Expr) (a : Int) : Prop :=
  ∃ q pos i name, l = .deref q (.var pos i) ∧ c.cell i = .ok name ∧ M.address name = a

/-- A value has been stored, and one has been loaded again. They are the same unless the store has
changed the pointer that the second goes through. -/
structure Reloads (M : Machine) (code : List Instr) (c : Context) (l : Expr) (v : Int)
    (s t : State) (a w : Int) : Prop where
  aims : M.Aims code c s l a
  stored : t.memory a = some v
  left : t.stack = w :: s.stack.tail
  same : a ≠ M.address scratchName → (w = v ↔ (M.PointsToItself c l a → t.memory v = some v))

section Assignments

variable {M : Machine} {code : List Instr} {c : Context} {l r : Expr} {v : Int} {s t : State}
  {rest store again : List Instr} {stack shown : List Int} {calls : List (List Instr)}
  {memory : Memory}

private theorem reloads_variable {pos i : Int} {name : Bytes} (hcell : c.cell i = .ok name)
    (hrun : M.Runs code
      ⟨.store name :: .load name :: t.rest, v :: stack, t.calls, memory, shown⟩ t) :
    ∃ a w, M.Reloads code c (.var pos i) v
      ⟨.store name :: .load name :: t.rest, v :: stack, t.calls, memory, shown⟩ t a w := by
  obtain ⟨u, hu, hrun⟩ := hrun.next [.load name] rfl rfl
  obtain ⟨-, rfl⟩ := step_store_eq_some.mp hu
  obtain ⟨u, hu, hrun⟩ := hrun.next [] rfl rfl
  obtain ⟨w, hw, rfl⟩ := step_load_eq_some.mp hu
  have ht := hrun.eq_of_place rfl rfl
  have hw : v = w := by simpa using hw
  refine ⟨M.address name, w, .variable hcell, ?_, ?_, fun _ => ?_⟩
  · rw [← ht]
    simp
  · rw [← ht]
    rfl
  · simp [PointsToItself, hw]

/-- The pointer is loaded again. If it has been stored into, it points elsewhere now. -/
theorem reloads_pointer {q pos i : Int} {name : Bytes} (hcell : c.cell i = .ok name)
    (hrun : M.Runs code ⟨.storeThrough name :: .load name :: .deref :: t.rest, v :: stack, t.calls,
      memory, shown⟩ t) :
    ∃ a w, M.Reloads code c (.deref q (.var pos i)) v
      ⟨.storeThrough name :: .load name :: .deref :: t.rest, v :: stack, t.calls, memory, shown⟩
      t a w := by
  obtain ⟨u, hu, hrun⟩ := hrun.next [.load name, .deref] rfl rfl
  obtain ⟨a, ha, -, rfl⟩ := step_storeThrough_eq_some.mp hu
  obtain ⟨u, hu, hrun⟩ := hrun.next [.deref] rfl rfl
  obtain ⟨b, hb, rfl⟩ := step_load_eq_some.mp hu
  obtain ⟨u, hu, hrun⟩ := hrun.next [] rfl rfl
  obtain ⟨w, hw, rfl⟩ := step_deref_eq_some.mp hu
  have ht := hrun.eq_of_place rfl rfl
  refine ⟨a, w, .pointer hcell ha, ?_, ?_, fun _ => ?_⟩
  · rw [← ht]
    simp
  · rw [← ht]
    rfl
  · have hmemory : t.memory = Function.update memory a (some v) := by rw [← ht]
    have hself : M.PointsToItself c (.deref q (.var pos i)) a ↔ M.address name = a := by
      simp [PointsToItself, hcell]
    rw [hself, hmemory]
    by_cases hn : M.address name = a
    · have hb : v = b := by simpa [hn] using hb
      rw [← hb] at hw
      simp [hn, hw]
    · have hb : a = b := by
        rw [Function.update_of_ne hn, ha] at hb
        exact Option.some.inj hb
      have hw : v = w := by simpa [← hb] using hw
      simp [hn, hw]

theorem reloads_computed {q : Int} {y : Expr} {b : List Instr} (hy : ∀ pos i, y ≠ .var pos i)
    (hb : value c y = .ok b) (hpush : M.Exchanges code b [] 1)
    (hrun : M.Runs code ⟨b ++ .store scratchName :: .storeThrough scratchName ::
      .load scratchName :: .deref :: t.rest, v :: stack, t.calls, memory, shown⟩ t) :
    ∃ a w, M.Reloads code c (.deref q y) v ⟨b ++ .store scratchName :: .storeThrough scratchName ::
      .load scratchName :: .deref :: t.rest, v :: stack, t.calls, memory, shown⟩ t a w := by
  obtain ⟨ys, m₁, hlen, hfirst⟩ := hpush _ (v :: stack) t.calls memory shown t
    [.store scratchName, .storeThrough scratchName, .load scratchName, .deref] rfl rfl hrun
  obtain ⟨a, rfl⟩ := List.length_eq_one_iff.mp hlen
  have hrun := hrun.onward hfirst (p := [.store scratchName, .storeThrough scratchName,
    .load scratchName, .deref]) rfl rfl
  obtain ⟨u, hu, hrun⟩ := hrun.next
    [.storeThrough scratchName, .load scratchName, .deref] rfl rfl
  obtain ⟨-, rfl⟩ := step_store_eq_some.mp hu
  obtain ⟨u, hu, hrun⟩ := hrun.next [.load scratchName, .deref] rfl rfl
  obtain ⟨a', ha', -, rfl⟩ := step_storeThrough_eq_some.mp hu
  have ha' : a = a' := by simpa using ha'
  subst ha'
  obtain ⟨u, hu, hrun⟩ := hrun.next [.deref] rfl rfl
  obtain ⟨d, hd, rfl⟩ := step_load_eq_some.mp hu
  obtain ⟨u, hu, hrun⟩ := hrun.next [] rfl rfl
  obtain ⟨w, hw, rfl⟩ := step_deref_eq_some.mp hu
  have ht := hrun.eq_of_place rfl rfl
  refine ⟨a, w, .computed (t := ⟨_, [a] ++ (v :: stack), t.calls, m₁, shown⟩) hy
    ⟨⟨b, hb, rfl⟩, rfl, hfirst, rfl⟩, ?_, ?_, fun hne => ?_⟩
  · rw [← ht]
    simp
  · rw [← ht]
    rfl
  · -- The scratch cell still holds the address, as the store did not go there.
    have hd : a = d := by simpa [Function.update_of_ne hne.symm] using hd
    have hw : v = w := by simpa [← hd] using hw
    have hself : ¬M.PointsToItself c (.deref q y) a := by
      rintro ⟨q', pos, i, name, he, -⟩
      cases he
      exact hy pos i rfl
    simp [hself, hw]

/-- A run through a store of the value on the stack, and through the code that loads it again. -/
theorem exists_reloads (hpush : ∀ q y, l = .deref q y → ∀ b, value c y = .ok b →
      M.Exchanges code b [] 1)
    (hp : Lowering.place c l = .ok store) (hr : Lowering.reload c l = .ok again)
    (hrun : M.Runs code ⟨store ++ again ++ t.rest, v :: stack, t.calls, memory, shown⟩ t) :
    ∃ a w, M.Reloads code c l v ⟨store ++ again ++ t.rest, v :: stack, t.calls, memory, shown⟩
      t a w := by
  rcases Lowering.place_cases hp with ⟨pos, i, name, rfl, hcell, rfl⟩ |
    ⟨q, pos, i, name, rfl, hcell, rfl⟩ | ⟨q, y, b, rfl, hy, hb, rfl⟩
  · rw [Lowering.reload, hcell] at hr
    cases hr
    exact reloads_variable hcell hrun
  · rw [Lowering.reload, hcell] at hr
    cases hr
    exact reloads_pointer hcell hrun
  · have hagain : again = [.load scratchName, .deref] := by
      rw [Lowering.reload.eq_def] at hr
      split at hr
      · next he => cases he
      · next he =>
        cases he
        exact absurd rfl (hy _ _)
      · exact (Except.ok.inj hr).symm
      · next hd => exact absurd rfl (hd q y)
    subst hagain
    rw [List.append_assoc, List.append_assoc] at hrun ⊢
    exact reloads_computed hy hb (hpush q y rfl b hb) hrun

end Assignments

end Asm.Machine

namespace Lowering

open Asm

/-- When the code of an assignment without calls has run, in value context, the value of the right
side is where the left side says, and one value is left. If a local was stored into, the two values
are the same if and only if this local is not the pointer that the store went through, or what is at
the value as an address is the value again. -/
theorem assigned_value_iff {src : Bytes} {toks : List Token} {req : Requirements} {p : Program}
    {code : List Instr} (hsrc : Token.scan src = .ok toks) (hp : Grammar.parse toks req = .ok p)
    (hc : program p = .ok code) {f : Function} (hf : f ∈ p.funcs) {pos : Int} {l r : Expr}
    (hx : .assign pos l r ∈ f.nodes) (hfree : Expr.CallFree (Expr.assign pos l r).nodes)
    {M : Machine} (hs : Separate M f.locals) {part : List Instr}
    (hv : value (context p f) (.assign pos l r) = .ok part) {s t : State}
    (hplace : s.rest = part ++ t.rest) (hlevel : s.calls = t.calls) (hrun : M.Runs code s t) :
    ∃ u v a w, M.Yields code (context p f) r s u v ∧ M.Runs code u t ∧
      M.Aims code (context p f) u l a ∧ t.memory a = some v ∧ t.stack = w :: s.stack ∧
      ((∃ x ∈ f.locals, M.address x.name = a) →
        (w = v ↔ (M.PointsToItself (context p f) l a → t.memory v = some v))) := by
  have proper := Grammar.proper_of_parse hsrc hp
  have hl : Linked (context p f).req code := linked_of_program proper (emits_of_program proper hc)
  obtain ⟨a, b, d, ha, hb, hd, rfl⟩ := value_assign_eq_ok.mp hv
  have hright : r.nodes ⊆ (Expr.assign pos l r).nodes := by simp [Expr.nodes]
  have hleft : l.nodes ⊆ (Expr.assign pos l r).nodes := by simp [Expr.nodes]
  have hproper : (Expr.assign pos l r).Proper (context p f).locals.length (context p f).req :=
    (proper.functions f hf).of_mem_nodes hx
  obtain ⟨rest, stack, calls, memory, shown⟩ := s
  obtain rfl : rest = a ++ b ++ d ++ t.rest := hplace
  obtain rfl : calls = t.calls := hlevel
  cases hproper with
  | assign left right =>
    rw [List.append_assoc, List.append_assoc, ← List.append_assoc b] at hrun
    obtain ⟨ys, m₁, hlen, hfirst⟩ :=
      (Machine.Exchanges.ofExpr hl right (hfree.mono hright)).1 a ha _ stack t.calls memory shown t
        (b ++ d) rfl rfl hrun
    obtain ⟨v, rfl⟩ := List.length_eq_one_iff.mp hlen
    have hthen := hrun.onward hfirst (p := b ++ d) rfl rfl
    have hpush : ∀ q y, l = .deref q y → ∀ b, value (context p f) y = .ok b →
        M.Exchanges code b [] 1 := by
      rintro q y rfl b hy
      cases left with
      | deref operand =>
        refine (Machine.Exchanges.ofExpr hl operand (hfree.mono fun z hz => ?_)).1 b hy
        exact hleft (List.mem_cons_of_mem _ hz)
    obtain ⟨e, w, reloads⟩ := Machine.exists_reloads hpush hb hd hthen
    refine ⟨⟨b ++ d ++ t.rest, [v] ++ stack, t.calls, m₁, shown⟩, v, e, w,
      ⟨⟨a, ha, ?_⟩, rfl, ?_, rfl⟩, hthen, reloads.aims, reloads.stored, reloads.left, ?_⟩
    · simp
    · rw [List.append_assoc, List.append_assoc, ← List.append_assoc b]
      exact hfirst
    · rintro ⟨x, hx, rfl⟩
      obtain ⟨i, hi⟩ := List.mem_iff_getElem?.mp hx
      exact reloads.same (hs.scratch hi)

/-- The tokens of a source that lets a variable point to itself, stores an address through it, and
returns what it has stored. -/
def selfPointerTokens : List Token :=
  [⟨.punct, 0, ascii "\x7b", 0⟩, ⟨.ident, 1, ascii "p", 0⟩, ⟨.punct, 2, ascii "=", 0⟩,
    ⟨.punct, 3, ascii "&", 0⟩, ⟨.ident, 4, ascii "p", 0⟩, ⟨.punct, 5, ascii ";", 0⟩,
    ⟨.keyword, 6, ascii "return", 0⟩, ⟨.punct, 13, ascii "*", 0⟩, ⟨.ident, 14, ascii "p", 0⟩,
    ⟨.punct, 15, ascii "=", 0⟩, ⟨.punct, 16, ascii "&", 0⟩, ⟨.ident, 17, ascii "a", 0⟩,
    ⟨.punct, 18, ascii ";", 0⟩, ⟨.punct, 19, ascii "\x7d", 0⟩, .eof 20]

def selfPointerTarget : Expr := .deref 13 (.var 14 0)

def selfPointerSource : Expr := .addr 16 (.var 17 1)

def selfPointerBlock : Function where
  name := []
  pos := 0
  locals := [⟨ascii "p", .ptr .int, 1⟩, ⟨ascii "a", .int, 17⟩]
  body := some {
    pos := 0
    stmts := [
      .expr 1 (.assign 2 (.var 1 0) (.addr 3 (.var 4 0))),
      .ret 6 (.assign 15 selfPointerTarget selfPointerSource)] }

def selfPointerTree : Program where
  topLevel := true
  funcs := [selfPointerBlock]
  req := {}

def selfPointerEnd : List Instr := [.jump topExit, .label topExit, .display, .halt]

def selfPointerStore : List Instr := [.storeThrough (ascii "p"), .load (ascii "p"), .deref]

def selfPointerCode : List Instr :=
  [.jump startLabel, .label startLabel, .address (ascii "p"), .store (ascii "p"),
    .address (ascii "a")] ++ selfPointerStore ++ selfPointerEnd

theorem scan_selfPointer :
    Token.scan (ascii "\x7bp=&p;return *p=&a;\x7d") = .ok selfPointerTokens := by
  decide +kernel

theorem parse_selfPointer : Grammar.parse selfPointerTokens {} = .ok selfPointerTree :=
  Grammar.parse_of_walk rfl

theorem program_selfPointer : program selfPointerTree = .ok selfPointerCode := by
  rfl

/-- A machine with the scratch cell at 3, the cell of `a` at 2 and any other at 1. -/
def threeCells : Machine where
  address x := if x = scratchName then 3 else if x = ascii "a" then 2 else 1
  quotient := Int.tdiv

theorem separate_selfPointer : Separate threeCells selfPointerBlock.locals := by
  unfold Separate
  decide

theorem callFree_selfPointer : Expr.CallFree selfPointerTree.nodes := by
  intro pos name args
  simp [selfPointerTree, selfPointerBlock, selfPointerTarget, selfPointerSource, Program.nodes,
    Function.nodes, Stmt.allNodes, Stmt.nodes, Expr.nodes]

theorem nodes_selfPointer :
    (Expr.assign 15 selfPointerTarget selfPointerSource).nodes ⊆ selfPointerBlock.nodes := by
  simp [selfPointerBlock, selfPointerTarget, selfPointerSource, Function.nodes, Stmt.allNodes,
    Stmt.nodes, Expr.nodes]

def selfPointerStart (memory : Memory) : State :=
  ⟨.address (ascii "a") :: selfPointerStore ++ selfPointerEnd, [], [], memory, []⟩

def selfPointerMiddle (memory : Memory) : State :=
  ⟨selfPointerStore ++ selfPointerEnd, [2], [], memory, []⟩

/-- After the code of the second assignment, which has left `w`. -/
def selfPointerDone (w : Int) (memory : Memory) : State :=
  ⟨selfPointerEnd, [w], [], memory, []⟩

theorem yields_selfPointer (memory : Memory) :
    threeCells.Yields selfPointerCode (context selfPointerTree selfPointerBlock)
      selfPointerSource (selfPointerStart memory) (selfPointerMiddle memory) 2 where
  place := ⟨[.address (ascii "a")], rfl, rfl⟩
  level := rfl
  runs := .step (.ahead [.address (ascii "a")] (List.cons_ne_nil _ _) rfl rfl) rfl .refl
  stack := rfl

/-- The store goes to the address `a` in the pointer, which is `b` when it is loaded again. -/
theorem runs_selfPointer {memory : Memory} {a z b w : Int} (ha : memory 1 = some a)
    (hz : memory a = some z) (hb : Function.update memory a (some 2) 1 = some b)
    (hw : Function.update memory a (some 2) b = some w) :
    threeCells.Runs selfPointerCode (selfPointerMiddle memory)
      (selfPointerDone w (Function.update memory a (some 2))) := by
  have hstore : threeCells.step selfPointerCode (selfPointerMiddle memory) =
      some ⟨.load (ascii "p") :: .deref :: selfPointerEnd, [], [],
        Function.update memory a (some 2), []⟩ :=
    Machine.step_storeThrough_eq_some.mpr ⟨a, ha, ⟨z, hz⟩, rfl⟩
  have hload : threeCells.step selfPointerCode
      ⟨.load (ascii "p") :: .deref :: selfPointerEnd, [], [],
        Function.update memory a (some 2), []⟩ =
      some ⟨.deref :: selfPointerEnd, [b], [], Function.update memory a (some 2), []⟩ :=
    Machine.step_load_eq_some.mpr ⟨b, hb, rfl⟩
  have hderef : threeCells.step selfPointerCode
      ⟨.deref :: selfPointerEnd, [b], [], Function.update memory a (some 2), []⟩ =
      some (selfPointerDone w (Function.update memory a (some 2))) :=
    Machine.step_deref_eq_some.mpr ⟨w, hw, rfl⟩
  refine .step (.ahead selfPointerStore (List.cons_ne_nil _ _) rfl rfl) hstore ?_
  refine .step (.ahead [.load (ascii "p"), .deref] (List.cons_ne_nil _ _) rfl rfl) hload ?_
  exact .step (.ahead [.deref] (List.cons_ne_nil _ _) rfl rfl) hderef .refl

def threeCellsMemory (pointer : Int) : Memory := fun a =>
  if a = 1 then some pointer else if a = 2 ∨ a = 3 then some 0 else none

/-- If the variable points to another one, the value that is left is the one that was stored. -/
theorem assigned_value_of_otherPointer :
    let c := context selfPointerTree selfPointerBlock
    ∃ t u v a w, threeCells.Runs selfPointerCode (selfPointerStart (threeCellsMemory 2)) t ∧
      t.stack = [2] ∧
      threeCells.Yields selfPointerCode c selfPointerSource (selfPointerStart (threeCellsMemory 2))
        u v ∧
      threeCells.Aims selfPointerCode c u selfPointerTarget a ∧ t.memory a = some v ∧
      t.stack = [w] ∧
      ((∃ x ∈ selfPointerBlock.locals, threeCells.address x.name = a) →
        (w = v ↔ (threeCells.PointsToItself c selfPointerTarget a → t.memory v = some v))) := by
  let done := selfPointerDone 2 (Function.update (threeCellsMemory 2) 2 (some 2))
  have hstore : threeCells.Runs selfPointerCode (selfPointerMiddle (threeCellsMemory 2)) done :=
    runs_selfPointer (z := 0) rfl rfl rfl rfl
  have hrun := (yields_selfPointer (threeCellsMemory 2)).runs.trans hstore
    (p := selfPointerStore) rfl rfl
  have hfree : Expr.CallFree (Expr.assign 15 selfPointerTarget selfPointerSource).nodes := by
    refine callFree_selfPointer.mono fun x hx => List.mem_flatMap.mpr ?_
    exact ⟨selfPointerBlock, List.mem_cons_self, nodes_selfPointer hx⟩
  have hvalue : value (context selfPointerTree selfPointerBlock)
      (.assign 15 selfPointerTarget selfPointerSource) =
      .ok (.address (ascii "a") :: selfPointerStore) := rfl
  obtain ⟨u, v, a, w, hyields, -, haims, hstored, hleft, hsame⟩ :=
    assigned_value_iff scan_selfPointer parse_selfPointer program_selfPointer List.mem_cons_self
      (nodes_selfPointer List.mem_cons_self) hfree separate_selfPointer hvalue
      (s := selfPointerStart (threeCellsMemory 2)) (t := done) rfl rfl hrun
  exact ⟨_, u, v, a, w, hrun, rfl, hyields, haims, hstored, hleft, hsame⟩

/-- Wherever control gets to the code of an assignment in a function and runs through it, on a
machine that has no cells but those of the locals and for scratch, the value that is left is the
one that was stored into a local. -/
def KeepsAssigned (M : Machine) (p : Program) (f : Function) (code : List Instr) : Prop :=
  ∀ memory, (∀ b, memory b ≠ none →
      b = M.address scratchName ∨ ∃ x ∈ f.locals, M.address x.name = b) →
    ∀ pos l r, .assign pos l r ∈ f.nodes →
    ∀ part, value (context p f) (.assign pos l r) = .ok part →
    ∀ s t u v a, M.Reaches code (.initial code memory) s → s.rest = part ++ t.rest →
      s.calls = t.calls → M.Runs code s t → M.Yields code (context p f) r s u v →
      M.Aims code (context p f) u l a → (∃ x ∈ f.locals, M.address x.name = a) →
      t.stack = v :: s.stack

/-- A variable that points to itself is stored into, and what is loaded again is what the new value
points to. -/
theorem not_forall_keepsAssigned : ¬∀ src toks p code, Token.scan src = .ok toks →
    Grammar.parse toks {} = .ok p → program p = .ok code → Expr.CallFree p.nodes →
    ∀ f ∈ p.funcs, ∀ M, Separate M f.locals → KeepsAssigned M p f code := by
  intro h
  have hkeeps := h _ _ _ _ scan_selfPointer parse_selfPointer program_selfPointer
    callFree_selfPointer selfPointerBlock List.mem_cons_self threeCells separate_selfPointer
  let memory : Memory := Function.update (threeCellsMemory 0) 1 (some 1)
  have hcells : ∀ b, threeCellsMemory 0 b ≠ none →
      b = threeCells.address scratchName ∨
        ∃ x ∈ selfPointerBlock.locals, threeCells.address x.name = b := by
    intro b hb
    by_cases h₁ : b = 1
    · exact .inr ⟨_, List.mem_cons_self, h₁.symm⟩
    · by_cases h₂ : b = 2
      · exact .inr ⟨_, List.mem_cons_of_mem _ List.mem_cons_self, h₂.symm⟩
      · by_cases h₃ : b = 3
        · exact .inl h₃
        · simp [threeCellsMemory, h₁, h₂, h₃] at hb
  have hreach : threeCells.Reaches selfPointerCode (.initial selfPointerCode (threeCellsMemory 0))
      (selfPointerStart memory) :=
    .step (Machine.step_jump rfl) (.step rfl (.step rfl .refl))
  let done := selfPointerDone 0 (Function.update memory 1 (some 2))
  have hstore : threeCells.Runs selfPointerCode (selfPointerMiddle memory) done :=
    runs_selfPointer (z := 1) rfl rfl rfl rfl
  have hyields := yields_selfPointer memory
  have hrun := hyields.runs.trans hstore (p := selfPointerStore) rfl rfl
  have hcell : (context selfPointerTree selfPointerBlock).cell 0 = .ok (ascii "p") := rfl
  have hleft := hkeeps (threeCellsMemory 0) hcells 15 selfPointerTarget selfPointerSource
    (nodes_selfPointer List.mem_cons_self) (.address (ascii "a") :: selfPointerStore) rfl
    (selfPointerStart memory) done _ _ 1 hreach rfl rfl hrun hyields
    (.pointer hcell rfl) ⟨_, List.mem_cons_self, rfl⟩
  cases hleft

end Lowering

end StackC
