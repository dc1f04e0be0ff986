import StackC.Proofs.Execution.Comparison
import StackC.Proofs.Lowering.Emits

/-! The code of an expression computes its value. -/
namespace StackC.Lowering

open Asm

section Cells

/-- The cells of the locals hold their values, and there is a scratch cell. -/
structure Agrees (M : Machine) (locals : List Local) (σ : Store) (memory : Memory) : Prop where
  cells : ∀ i v, locals[i]? = some v → memory (M.address v.name) = some (σ i)
  scratch : (memory (M.address scratchName)).isSome

/-- Every local and the scratch cell have an address of their own. -/
def Separate (M : Machine) (locals : List Local) : Prop :=
  ((scratchName :: locals.map Local.name).map M.address).Nodup

variable {M : Machine} {locals : List Local} {σ : Store} {memory : Memory} {i j : Nat}
  {v w : Local}

theorem Separate.inj (h : Separate M locals) (hv : locals[i]? = some v) (hw : locals[j]? = some w)
    (ha : M.address v.name = M.address w.name) : i = j := by
  rw [Separate, List.map_cons, List.nodup_cons, List.map_map] at h
  refine (List.getElem?_inj ?_ h.2).mp ?_
  · rw [List.length_map]
    exact (List.getElem?_eq_some_iff.mp hv).1
  · simp [hv, hw, ha]

theorem Separate.scratch (h : Separate M locals) (hv : locals[i]? = some v) :
    M.address v.name ≠ M.address scratchName := by
  rw [Separate, List.map_cons, List.nodup_cons] at h
  intro he
  refine h.1 (he ▸ List.mem_map_of_mem (List.mem_map_of_mem (List.mem_of_getElem? hv)))

/-- A store into the cell of a local. -/
theorem Agrees.update (h : Agrees M locals σ memory) (hs : Separate M locals)
    (hv : locals[i]? = some v) (n : Int) :
    Agrees M locals (Function.update σ i n)
      (Function.update memory (M.address v.name) (some n)) := by
  constructor
  · intro j w hw
    by_cases hj : j = i
    · cases hj
      cases hv.symm.trans hw
      simp
    · have ha : M.address w.name ≠ M.address v.name := fun he => hj (hs.inj hw hv he)
      rw [Function.update_of_ne ha, Function.update_of_ne hj]
      exact h.cells j w hw
  · rw [Function.update_of_ne (hs.scratch hv).symm]
    exact h.scratch

/-- A store into the scratch cell. -/
theorem Agrees.update_scratch (h : Agrees M locals σ memory) (hs : Separate M locals) (n : Int) :
    Agrees M locals σ (Function.update memory (M.address scratchName) (some n)) := by
  constructor
  · intro j w hw
    rw [Function.update_of_ne (hs.scratch hw)]
    exact h.cells j w hw
  · rw [Function.update_self]
    rfl

theorem getElem?_of_localAt {a : Int} (h : localAt? M locals a = some i) :
    ∃ v, locals[i]? = some v ∧ M.address v.name = a := by
  obtain ⟨hi, ha, -⟩ := List.findIdx?_eq_some_iff_getElem.mp h
  exact ⟨locals[i], List.getElem?_eq_getElem hi, by simpa using ha⟩

end Cells

/-- Wherever the part of the code stands, it replaces the values on top of the stack by others and
changes the store. -/
def Transforms (M : Machine) (code : List Instr) (locals : List Local) (part : List Instr)
    (σ : Store) (xs : List Int) (σ' : Store) (ys : List Int) : Prop :=
  ∀ rest stack calls memory shown, Agrees M locals σ memory →
    ∃ memory', Agrees M locals σ' memory' ∧
      M.Reaches code ⟨part ++ rest, xs ++ stack, calls, memory, shown⟩
        ⟨rest, ys ++ stack, calls, memory', shown⟩

namespace Transforms

variable {M : Machine} {code a b : List Instr} {locals : List Local} {σ σ₁ σ' : Store}
  {xs ys zs : List Int}

theorem nil : Transforms M code locals [] σ xs σ xs :=
  fun _ _ _ memory _ hm => ⟨memory, hm, .refl⟩

theorem append (ha : Transforms M code locals a σ xs σ₁ ys)
    (hb : Transforms M code locals b σ₁ ys σ' zs) :
    Transforms M code locals (a ++ b) σ xs σ' zs := by
  intro rest stack calls memory shown hm
  obtain ⟨m₁, hm₁, hr₁⟩ := ha (b ++ rest) stack calls memory shown hm
  obtain ⟨m₂, hm₂, hr₂⟩ := hb rest stack calls m₁ shown hm₁
  rw [List.append_assoc]
  exact ⟨m₂, hm₂, hr₁.trans hr₂⟩

/-- What lies deeper on the stack stays. -/
theorem frame (h : Transforms M code locals a σ xs σ' ys) (zs : List Int) :
    Transforms M code locals a σ (xs ++ zs) σ' (ys ++ zs) := by
  intro rest stack calls memory shown hm
  rw [List.append_assoc, List.append_assoc]
  exact h rest (zs ++ stack) calls memory shown hm

/-- An instruction that leaves the cells alone. -/
theorem ofStep {i : Instr}
    (h : ∀ rest stack calls memory shown, Agrees M locals σ memory →
      M.step code ⟨i :: rest, xs ++ stack, calls, memory, shown⟩ =
        some ⟨rest, ys ++ stack, calls, memory, shown⟩) :
    Transforms M code locals [i] σ xs σ ys := by
  intro rest stack calls memory shown hm
  exact ⟨memory, hm, .step (h rest stack calls memory shown hm) .refl⟩

end Transforms

variable {M : Machine} {c : Context} {code : List Instr} {σ σ' : Store}

/-- The cell of a variable is that of its local. -/
theorem cell_of_placeOf {k : Int} {i : Nat} {name : Bytes} (hc : c.cell k = .ok name)
    (hp : placeOf? c.locals k = some i) : ∃ v, c.locals[i]? = some v ∧ v.name = name := by
  cases k with
  | negSucc k => cases hp
  | ofNat k =>
    rw [placeOf?] at hp
    split at hp
    · cases hp
      rw [Context.cell, getLocal?] at hc
      split at hc
      · next v hv =>
        cases hc
        exact ⟨v, hv, rfl⟩
      · cases hc
    · cases hp

/-- An operator without an instruction is a call of its routine. -/
theorem routine_of_operation {pos : Int} {op : BinaryOp} {r : Routine} {i : Instr}
    (hn : native? op = none) (hf : Routine.find? op = some r) (ho : operation c pos op = .ok i) :
    c.req.needs op ∧ i = .call r.name := by
  rw [operation, hn, hf] at ho
  simp only at ho
  split at ho
  · next hr =>
    cases ho
    exact ⟨hr, rfl⟩
  · cases ho

theorem transforms_operation (hl : Linked c.req code) {pos p q v : Int} {op : BinaryOp} {i : Instr}
    (ho : operation c pos op = .ok i) (hv : op.apply M p q = some v) :
    Transforms M code c.locals [i] σ [q, p] σ [v] := by
  cases op with
  | add | sub | mul | eq =>
    cases ho
    cases hv
    exact .ofStep fun _ _ _ _ _ _ => rfl
  | div =>
    cases ho
    rw [BinaryOp.apply] at hv
    split at hv
    · cases hv
    · next hq =>
      cases hv
      exact .ofStep fun _ _ _ _ _ _ => if_neg hq
  | lt =>
    obtain ⟨hn, rfl⟩ := routine_of_operation (r := Routine.less) rfl rfl ho
    cases hv
    exact fun _ _ _ memory _ hm => ⟨memory, hm, (hl.less hn).reaches⟩
  | le =>
    obtain ⟨hn, rfl⟩ := routine_of_operation (r := Routine.lessOrEqual) rfl rfl ho
    cases hv
    exact fun _ _ _ memory _ hm => ⟨memory, hm, (hl.lessOrEqual hn).reaches⟩
  | ne =>
    obtain ⟨hn, rfl⟩ := routine_of_operation (r := Routine.notEqual) rfl rfl ho
    cases hv
    exact fun _ _ _ memory _ hm => ⟨memory, hm, (hl.notEqual hn).reaches⟩
  | invalid n => cases hv

section Cells

variable {i : Nat} {v : Local}

theorem transforms_load (hv : c.locals[i]? = some v) :
    Transforms M code c.locals [.load v.name] σ [] σ [σ i] := by
  refine .ofStep fun rest stack calls memory shown hm => ?_
  simp [Machine.step, Machine.execute, hm.cells i v hv]

private theorem transforms_address (name : Bytes) :
    Transforms M code c.locals [.address name] σ [] σ [M.address name] :=
  .ofStep fun _ _ _ _ _ _ => rfl

private theorem transforms_deref {a : Int} (ha : localAt? M c.locals a = some i) :
    Transforms M code c.locals [.deref] σ [a] σ [σ i] := by
  obtain ⟨v, hv, rfl⟩ := getElem?_of_localAt ha
  refine .ofStep fun rest stack calls memory shown hm => ?_
  simp [Machine.step, Machine.execute, hm.cells i v hv]

private theorem transforms_store (hs : Separate M c.locals) (hv : c.locals[i]? = some v) (n : Int) :
    Transforms M code c.locals [.store v.name] σ [n] (Function.update σ i n) [] := by
  intro rest stack calls memory shown hm
  refine ⟨_, hm.update hs hv n, .step ?_ .refl⟩
  simp [Machine.step, Machine.execute, State.write, hm.cells i v hv]

/-- A store through a variable goes to the local that it points to. -/
theorem transforms_storeThrough (hs : Separate M c.locals) (hv : c.locals[i]? = some v) {j : Nat}
    (hj : localAt? M c.locals (σ i) = some j) (n : Int) :
    Transforms M code c.locals [.storeThrough v.name] σ [n] (Function.update σ j n) [] := by
  obtain ⟨w, hw, ha⟩ := getElem?_of_localAt hj
  intro rest stack calls memory shown hm
  refine ⟨_, hm.update hs hw n, .step ?_ .refl⟩
  have hc := hm.cells j w hw
  rw [ha] at hc ⊢
  simp [Machine.step, Machine.execute, State.write, hm.cells i v hv, hc]

/-- A store to a computed address goes through the scratch cell. -/
theorem transforms_scratch (hs : Separate M c.locals) {a : Int}
    (ha : localAt? M c.locals a = some i) (n : Int) :
    Transforms M code c.locals [.store scratchName, .storeThrough scratchName] σ [a, n]
      (Function.update σ i n) [] := by
  obtain ⟨w, hw, rfl⟩ := getElem?_of_localAt ha
  intro rest stack calls memory shown hm
  have hm₁ := hm.update_scratch hs (M.address w.name)
  obtain ⟨old, ho⟩ := Option.isSome_iff_exists.mp hm.scratch
  have hc := hm₁.cells i w hw
  refine ⟨_, hm₁.update hs hw n, .step (t := ⟨.storeThrough scratchName :: rest, n :: stack, calls,
    Function.update memory (M.address scratchName) (some (M.address w.name)), shown⟩) ?_
    (.step ?_ .refl)⟩
  · simp [Machine.step, Machine.execute, State.write, ho]
  · simp [Machine.step, Machine.execute, State.write, hc]

end Cells

/-- The code of a place stores what is on the stack. -/
theorem transforms_place (hs : Separate M c.locals) {x : Expr} {part : List Instr} {i : Nat}
    (h : ∀ q y, x = .deref q y → ∀ b σ a σ', value c y = .ok b →
      y.eval M c.locals σ = some (a, σ') → Transforms M code c.locals b σ [] σ' [a])
    (hp : place c x = .ok part) (ht : x.target M c.locals σ = some (i, σ')) (n : Int) :
    Transforms M code c.locals part σ [n] (Function.update σ' i n) [] := by
  rcases place_cases hp with ⟨p, k, name, rfl, hc, rfl⟩ | ⟨q, p, k, name, rfl, hc, rfl⟩ |
    ⟨q, y, b, rfl, -, hb, rfl⟩
  · obtain ⟨hk, rfl⟩ := Expr.target_var_eq_some.mp ht
    obtain ⟨v, hv, rfl⟩ := cell_of_placeOf hc hk
    exact transforms_store hs hv n
  · obtain ⟨a, ha, hi⟩ := Expr.target_deref_eq_some.mp ht
    obtain ⟨j, hk, rfl, rfl⟩ := Expr.eval_var_eq_some.mp ha
    obtain ⟨v, hv, rfl⟩ := cell_of_placeOf hc hk
    exact transforms_storeThrough hs hv hi n
  · obtain ⟨a, ha, hi⟩ := Expr.target_deref_eq_some.mp ht
    exact ((h q y rfl b σ a σ' hb ha).frame [n]).append (transforms_scratch hs hi n)

/-- The code of an expression pushes its value. -/
theorem transforms_value (hl : Linked c.req code) (hs : Separate M c.locals) {x : Expr}
    (hx : x.Proper c.locals.length c.req) (hd : x.direct) {part : List Instr} {v : Int}
    (hp : value c x = .ok part) (he : x.eval M c.locals σ = some (v, σ')) :
    Transforms M code c.locals part σ [] σ' [v] := by
  induction hx generalizing part σ v σ' with
  | num =>
    cases hp
    cases he
    exact .ofStep fun _ _ _ _ _ _ => rfl
  | var bound =>
    obtain ⟨name, hc, rfl⟩ := value_var_eq_ok.mp hp
    obtain ⟨i, hk, rfl, rfl⟩ := Expr.eval_var_eq_some.mp he
    obtain ⟨v, hv, rfl⟩ := cell_of_placeOf hc hk
    exact transforms_load hv
  | neg operand ih =>
    obtain ⟨a, ha, rfl⟩ := value_neg_eq_ok.mp hp
    obtain ⟨w, hw, rfl⟩ := Expr.eval_neg_eq_some.mp he
    exact (ih hd ha hw).append (.ofStep fun _ _ _ _ _ _ => rfl)
  | addr operand ih =>
    obtain ⟨p, k, name, rfl, hc, rfl⟩ := value_addr_eq_ok.mp hp
    obtain ⟨w, hw, rfl, rfl⟩ := Expr.eval_addr_eq_some.mp he
    rw [Context.cell, hw] at hc
    cases hc
    exact transforms_address w.name
  | deref operand ih =>
    obtain ⟨a, ha, rfl⟩ := value_deref_eq_ok.mp hp
    obtain ⟨w, i, hw, hi, rfl⟩ := Expr.eval_deref_eq_some.mp he
    exact (ih hd ha hw).append (transforms_deref hi)
  | binary supported left right ih₁ ih₂ =>
    obtain ⟨a, b, i, ha, hb, hi, rfl⟩ := value_binary_eq_ok.mp hp
    obtain ⟨p, σ₁, q, hl₁, hr₁, hv⟩ := Expr.eval_binary_eq_some.mp he
    rw [Expr.direct, Bool.and_eq_true] at hd
    have h₁ := ih₁ hd.1 ha hl₁
    have h₂ := (ih₂ hd.2 hb hr₁).frame [p]
    exact (h₁.append h₂).append (transforms_operation hl hi hv)
  | @assign pos l r left right ih₁ ih₂ =>
    rw [Expr.direct, Bool.and_eq_true] at hd
    -- The target is a variable, so the value can be loaded again from its cell.
    cases left with
    | @var p k bound =>
      obtain ⟨a, b, d, ha, hb, hr, rfl⟩ := value_assign_eq_ok.mp hp
      obtain ⟨σ₁, i, σ₂, hv, ht, rfl⟩ := Expr.eval_assign_eq_some.mp he
      obtain ⟨hk, rfl⟩ := Expr.target_var_eq_some.mp ht
      obtain ⟨name, hc, hd₂⟩ := Outcome.bind_eq_ok.mp hr
      obtain ⟨w, hw, rfl⟩ := cell_of_placeOf hc hk
      have h₁ := ih₂ hd.2 ha hv
      have h₂ : Transforms M code c.locals b σ₂ [v] (Function.update σ₂ i v) [] :=
        transforms_place hs (by simp) hb ht v
      have h₃ : Transforms M code c.locals [.load w.name] (Function.update σ₂ i v) []
          (Function.update σ₂ i v) [Function.update σ₂ i v i] := transforms_load hw
      rw [Function.update_self] at h₃
      cases hd₂
      exact (h₁.append h₂).append h₃
    | _ => cases hd.1
  | call isName arguments ih => cases he

/-- An expression that is run for its effects leaves nothing on the stack. -/
theorem transforms_effect (hl : Linked c.req code) (hs : Separate M c.locals) {x : Expr}
    (hx : x.Proper c.locals.length c.req) (hd : x.directInside) {part : List Instr}
    (hp : effect c x = .ok part) (he : x.effect M c.locals σ = some σ') :
    Transforms M code c.locals part σ [] σ' [] := by
  rw [Expr.effect, hx.isAbsent, if_neg (by decide)] at he
  obtain ⟨⟨v, σ₁⟩, hv, rfl⟩ := Option.map_eq_some_iff.mp he
  rcases effect_cases hp with ⟨p, l, r, a, b, rfl, ha, hb, rfl⟩ | ⟨hn, a, ha, rfl⟩
  · rw [Expr.directInside, Bool.and_eq_true] at hd
    obtain ⟨σ₁, i, σ₂, hr, ht, rfl⟩ := Expr.eval_assign_eq_some.mp hv
    cases hx with
    | assign left right =>
      refine (transforms_value hl hs right hd.2 ha hr).append ?_
      refine transforms_place hs (fun q y hy d σ₃ w σ₄ hval hev => ?_) hb ht v
      cases hy
      cases left with
      | deref operand => exact transforms_value hl hs operand hd.1 hval hev
  · have hdir : x.direct := by
      cases x with
      | assign p l r => exact absurd rfl (hn p l r)
      | _ => exact hd
    exact (transforms_value hl hs hx hdir ha hv).append (.ofStep fun _ _ _ _ _ _ => rfl)

theorem transforms_loopStep (hl : Linked c.req code) (hs : Separate M c.locals) {x : Expr}
    (hx : x.isAbsent = false → x.Proper c.locals.length c.req) (hd : x.directInside)
    {part : List Instr} (hp : loopStep c x = .ok part)
    (he : x.effect M c.locals σ = some σ') : Transforms M code c.locals part σ [] σ' [] := by
  rcases loopStep_cases hp with ⟨ha, rfl⟩ | ⟨ha, hp⟩
  · rw [Expr.effect, ha, if_pos rfl] at he
    cases he
    exact .nil
  · exact transforms_effect hl hs (hx ha) hd hp he

end StackC.Lowering
