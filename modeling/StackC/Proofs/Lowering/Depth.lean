import StackC.Proofs.Asm.Paths
import StackC.Proofs.Lowering.CallOrder

/-! What the code of an expression adds to the depth of the stack: its value and nothing else. -/
namespace StackC.Lowering

open Asm

/-- The calls in the code get the numbers of arguments of these, one after the other. -/
def mark : List Invocation → List Instr → List Marked
  | _, [] => []
  | call :: calls, .call l :: code => ⟨.call l, call.args⟩ :: mark calls code
  | calls, i :: code => ⟨i, 0⟩ :: mark calls code

section Marks

variable {xs ys : List Invocation} {a b code : List Instr} {i : Instr}

@[simp] theorem mark_nil : mark xs [] = [] := by
  unfold mark
  rfl

@[simp] theorem instrs_mark (xs : List Invocation) (code : List Instr) :
    instrs (mark xs code) = code := by
  fun_induction mark xs code with
  | case1 xs => rfl
  | case2 call calls l code ih => rw [instrs_cons, ih]
  | case3 xs i code hi ih => rw [instrs_cons, ih]

theorem mark_cons (hi : i.calls? = none) : mark xs (i :: code) = ⟨i, 0⟩ :: mark xs code := by
  cases i with
  | call l => cases hi
  | _ => simp only [mark]

/-- Calls are counted part by part. -/
theorem mark_append (ha : Makes xs a) : mark (xs ++ ys) (a ++ b) = mark xs a ++ mark ys b := by
  unfold Makes at ha
  induction a generalizing xs with
  | nil =>
    have hx : xs = [] := List.map_eq_nil_iff.mp ha.symm
    rw [hx, mark_nil]
    rfl
  | cons i a ih =>
    cases hi : i.calls? with
    | none =>
      rw [called_cons hi] at ha
      rw [List.cons_append, mark_cons hi, mark_cons hi, ih ha, List.cons_append]
    | some l =>
      cases i with
      | call l =>
        cases xs with
        | nil => cases ha
        | cons x xs =>
          have hrest : called a = xs.map Invocation.label := (List.cons.inj ha).2
          simp only [List.cons_append, mark, ih hrest]
      | _ => cases hi

/-- Instructions behind others that are no calls. -/
theorem mark_snoc (ha : Makes xs a) (hi : i.calls? = none) :
    mark xs (a ++ [i]) = mark xs a ++ [⟨i, 0⟩] := by
  have h : mark (xs ++ []) (a ++ [i]) = mark xs a ++ mark [] [i] := mark_append ha
  rw [List.append_nil, mark_cons hi, mark_nil] at h
  exact h

end Marks

section Expressions

variable {c : Context} {code : List Instr} {x : Expr} (m : JumpMeaning)

theorem rise_mark_append {xs ys : List Invocation} {a b : List Instr} (ha : Makes xs a) :
    rise m (mark (xs ++ ys) (a ++ b)) = rise m (mark xs a) + rise m (mark ys b) := by
  rw [mark_append ha, rise_append]

theorem rise_mark_snoc {xs : List Invocation} {a : List Instr} {i : Instr} (ha : Makes xs a)
    (hi : i.calls? = none) :
    rise m (mark xs (a ++ [i])) = rise m (mark xs a) + Marked.net m ⟨i, 0⟩ := by
  rw [mark_snoc ha hi, rise_append, rise_cons, rise_nil, Int.add_zero]

theorem rise_operation {pos : Int} {op : BinaryOp} {i : Instr} (h : operation c pos op = .ok i) :
    rise m (mark op.invocation?.toList [i]) = -1 := by
  unfold operation at h
  split at h
  · next j hj =>
    cases h
    cases op <;> cases hj <;> rfl
  · cases h
  · next r hn hr =>
    split at h
    · cases h
      rw [BinaryOp.invocation?, hr]
      rfl
    · cases h

private theorem rise_reload {b : List Instr} (hp : place c x = .ok b) (h : reload c x = .ok code) :
    rise m (mark [] code) = 1 := by
  unfold reload at h
  split at h
  · obtain ⟨name, -, h⟩ := Outcome.bind_eq_ok.mp h
    cases h
    rfl
  · obtain ⟨name, -, h⟩ := Outcome.bind_eq_ok.mp h
    cases h
    rfl
  · cases h
    rfl
  · next hv _ hd =>
    rcases place_cases hp with ⟨p, i, name, rfl, -⟩ | ⟨q, p, i, name, rfl, -⟩ | ⟨q, y, a, rfl, -⟩
    · exact absurd rfl (hv p i)
    · exact absurd rfl (hd q _)
    · exact absurd rfl (hd q y)

theorem rise_values {args : List Expr} (hargs : ∀ x ∈ args, x.Proper c.locals.length c.req)
    (h : ∀ x ∈ args, ∀ code, value c x = .ok code → rise m (mark x.calls code) = 1)
    (hv : values c args = .ok code) : rise m (mark (Expr.allCalls args) code) = args.length := by
  induction args generalizing code with
  | nil =>
    cases hv
    rfl
  | cons x args ih =>
    rw [List.forall_mem_cons] at hargs h
    obtain ⟨a, b, ha, hb, rfl⟩ := values_cons_eq_ok.mp hv
    rw [Expr.allCalls, rise_mark_append m (makes_of_value hargs.1 ha), h.1 a ha,
      ih hargs.2 h.2 hb, List.length_cons]
    omega

/-- A store takes the value that is stored. -/
theorem rise_place (h : ∀ q y, x = .deref q y → ∀ a, value c y = .ok a →
      Makes y.calls a ∧ rise m (mark y.calls a) = 1)
    (hp : place c x = .ok code) : rise m (mark x.calls code) = -1 := by
  rcases place_cases hp with ⟨p, i, name, rfl, -, rfl⟩ | ⟨q, p, i, name, rfl, -, rfl⟩ |
    ⟨q, y, a, rfl, -, ha, rfl⟩
  · rfl
  · rfl
  · obtain ⟨hmakes, hrise⟩ := h q y rfl a ha
    have hstore : rise m (mark [] [Instr.store scratchName, .storeThrough scratchName]) = -2 := rfl
    rw [Expr.calls, ← List.append_nil y.calls, rise_mark_append m hmakes, hrise, hstore]
    rfl

/-- The value of an expression comes on the stack, and a store into it takes one off. -/
theorem rise_of_expr (hx : x.Proper c.locals.length c.req) :
    (∀ code, value c x = .ok code → rise m (mark x.calls code) = 1) ∧
      ∀ code, place c x = .ok code → rise m (mark x.calls code) = -1 := by
  induction hx with
  | num =>
    refine ⟨fun code h => ?_, fun code => rise_place m (by simp)⟩
    cases h
    rfl
  | var bound =>
    refine ⟨fun code h => ?_, fun code => rise_place m (by simp)⟩
    obtain ⟨name, -, rfl⟩ := value_var_eq_ok.mp h
    rfl
  | neg operand ih =>
    refine ⟨fun code h => ?_, fun code => rise_place m (by simp)⟩
    obtain ⟨a, ha, rfl⟩ := value_neg_eq_ok.mp h
    rw [Expr.calls, rise_mark_snoc m (makes_of_value operand ha) rfl, ih.1 a ha]
    rfl
  | addr operand ih =>
    refine ⟨fun code h => ?_, fun code => rise_place m (by simp)⟩
    obtain ⟨p, i, name, rfl, -, rfl⟩ := value_addr_eq_ok.mp h
    rfl
  | deref operand ih =>
    refine ⟨fun code h => ?_, fun code => rise_place m ?_⟩
    · obtain ⟨a, ha, rfl⟩ := value_deref_eq_ok.mp h
      rw [Expr.calls, rise_mark_snoc m (makes_of_value operand ha) rfl, ih.1 a ha]
      rfl
    · intro q y he a ha
      cases he
      exact ⟨makes_of_value operand ha, ih.1 a ha⟩
  | binary supported left right ih₁ ih₂ =>
    refine ⟨fun code h => ?_, fun code => rise_place m (by simp)⟩
    obtain ⟨a, b, i, ha, hb, hi, rfl⟩ := value_binary_eq_ok.mp h
    rw [List.append_assoc, Expr.calls, rise_mark_append m (makes_of_value left ha),
      rise_mark_append m (makes_of_value right hb), ih₁.1 a ha, ih₂.1 b hb, rise_operation m hi]
    rfl
  | assign left right ih₁ ih₂ =>
    refine ⟨fun code h => ?_, fun code => rise_place m (by simp)⟩
    obtain ⟨a, b, d, ha, hb, hd, rfl⟩ := value_assign_eq_ok.mp h
    have hstore := (makes_of_expr left).2 b hb
    rw [Expr.calls, ← List.append_nil (Expr.calls _ ++ _),
      rise_mark_append m ((makes_of_value right ha).append hstore),
      rise_mark_append m (makes_of_value right ha), ih₂.1 a ha, ih₁.2 b hb, rise_reload m hb hd]
    rfl
  | @call pos name args isName arguments ih =>
    refine ⟨fun code h => ?_, fun code => rise_place m (by simp)⟩
    obtain ⟨-, a, ha, rfl⟩ := value_call_eq_ok.mp h
    have hmakes := makes_of_values (fun x hx => (makes_of_expr (arguments x hx)).1) ha
    have hcall : rise m (mark [{ label := name, args := args.length }] [.call name]) =
        1 - args.length := by
      simp [mark, Marked.net_call]
    rw [Expr.calls, rise_mark_append m hmakes,
      rise_values m arguments (fun x hx => (ih x hx).1) ha, hcall]
    omega

theorem rise_of_value (hx : x.Proper c.locals.length c.req) (h : value c x = .ok code) :
    rise m (mark x.calls code) = 1 :=
  (rise_of_expr m hx).1 code h

/-- An expression that is run for its effects leaves the depth as it was. -/
theorem rise_of_effect (hx : x.Proper c.locals.length c.req) (h : effect c x = .ok code) :
    rise m (mark x.calls code) = 0 := by
  rcases effect_cases h with ⟨p, l, r, a, b, rfl, ha, hb, rfl⟩ | ⟨-, a, ha, rfl⟩
  · cases hx with
    | assign left right =>
      rw [Expr.calls, rise_mark_append m (makes_of_value right ha), rise_of_value m right ha,
        (rise_of_expr m left).2 b hb]
      rfl
  · rw [rise_mark_snoc m (makes_of_value hx ha) rfl, rise_of_value m hx ha]
    rfl

theorem straight_of_value (hx : x.Proper c.locals.length c.req) (h : value c x = .ok code) :
    Straight m (mark x.calls code) 1 := by
  refine ⟨?_, rise_of_value m hx h⟩
  rw [instrs_mark]
  exact plain_of_value hx h

theorem straight_of_effect (hx : x.Proper c.locals.length c.req) (h : effect c x = .ok code) :
    Straight m (mark x.calls code) 0 := by
  refine ⟨?_, rise_of_effect m hx h⟩
  rw [instrs_mark]
  exact plain_of_effect hx h

private theorem straight_of_loopStep (hx : x.isAbsent = false → x.Proper c.locals.length c.req)
    (h : loopStep c x = .ok code) : Straight m (mark x.calls code) 0 := by
  rcases loopStep_cases h with ⟨ha, rfl⟩ | ⟨ha, h⟩
  · rw [mark_nil]
    exact ⟨rfl, rise_nil m⟩
  · exact straight_of_effect m (hx ha) h

end Expressions

/-- The code that leaves a loop where its test fails. A loop without a test has none. -/
def Tests (m : JumpMeaning) (done : Bytes) (test : Expr) (t : List Marked) : Prop :=
  (test.isAbsent = true ∧ t = []) ∨
    test.isAbsent = false ∧ ∃ a, Straight m a 1 ∧ t = a ++ [⟨.jumpZero done, 0⟩]

/-- The piece has code of this form: between straight stretches are the labels and jumps of its
conditionals and loops. -/
inductive Layout (m : JumpMeaning) (exit : Bytes) : Piece → List Marked → Prop
  | nil : Layout m exit (.many []) []
  | cons {x : Stmt} {xs : List Stmt} {a b : List Marked} (first : Layout m exit (.one x) a)
      (rest : Layout m exit (.many xs) b) : Layout m exit (.many (x :: xs)) (a ++ b)
  | block {pos : Int} {body : List Stmt} {a : List Marked} (inner : Layout m exit (.many body) a) :
      Layout m exit (.one (.block pos body)) a
  | cond {pos : Int} {test : Expr} {yes no : Stmt} {k : Nat} {t a b : List Marked}
      (tested : Straight m t 1) (first : Layout m exit (.one yes) a)
      (second : Layout m exit (.ofOptional no) b) :
      Layout m exit (.one (.cond pos test yes no)) (t ++ ⟨.jumpZero (elseLabel k), 0⟩ ::
        (a ++ ⟨.jump (endLabel k), 0⟩ :: ⟨.label (elseLabel k), 0⟩ ::
          (b ++ [⟨.label (endLabel k), 0⟩])))
  | loop {pos : Int} {first body : Stmt} {test step : Expr} {k : Nat} {i t b s : List Marked}
      (started : Layout m exit (.ofOptional first) i) (tested : Tests m (endLabel k) test t)
      (inner : Layout m exit (.one body) b) (stepped : Straight m s 0) :
      Layout m exit (.one (.loop pos first test step body)) (i ++ ⟨.label (beginLabel k), 0⟩ ::
        (t ++ (b ++ (s ++ [⟨.jump (beginLabel k), 0⟩, ⟨.label (endLabel k), 0⟩]))))
  | ret {pos : Int} {x : Expr} {a : List Marked} (valued : Straight m a 1) :
      Layout m exit (.one (.ret pos x)) (a ++ [⟨.jump exit, 0⟩])
  | expr {pos : Int} {x : Expr} {a : List Marked} (run : Straight m a 0) :
      Layout m exit (.one (.expr pos x)) a

section Codes

variable {k : Nat} {us xs ys zs : List Invocation} {i t a b s : List Instr}

private theorem mark_condCode (ht : Makes xs t) (ha : Makes ys a) (hb : Makes zs b) :
    mark (xs ++ (ys ++ zs)) (condCode k t a b) =
      mark xs t ++ ⟨.jumpZero (elseLabel k), 0⟩ :: (mark ys a ++ ⟨.jump (endLabel k), 0⟩ ::
        ⟨.label (elseLabel k), 0⟩ :: (mark zs b ++ [⟨.label (endLabel k), 0⟩])) := by
  have hcode : condCode k t a b = t ++ (.jumpZero (elseLabel k) :: (a ++
      (.jump (endLabel k) :: .label (elseLabel k) :: (b ++ [.label (endLabel k)])))) := by
    simp [condCode]
  rw [hcode, mark_append ht, mark_cons rfl, mark_append ha, mark_cons rfl, mark_cons rfl,
    mark_snoc hb rfl]

theorem mark_loopCode (hi : Makes us i) (ht : Makes xs t) (hb : Makes ys b) (hs : Makes zs s) :
    mark (us ++ (xs ++ (ys ++ zs))) (loopCode k i t b s) =
      mark us i ++ ⟨.label (beginLabel k), 0⟩ :: (mark xs t ++ (mark ys b ++ (mark zs s ++
        [⟨.jump (beginLabel k), 0⟩, ⟨.label (endLabel k), 0⟩]))) := by
  have hcode : loopCode k i t b s = i ++ (.label (beginLabel k) :: (t ++ (b ++ (s ++
      [.jump (beginLabel k), .label (endLabel k)])))) := by
    simp [loopCode]
  have hend : mark (zs ++ []) (s ++ [.jump (beginLabel k), .label (endLabel k)]) =
      mark zs s ++ [⟨.jump (beginLabel k), 0⟩, ⟨.label (endLabel k), 0⟩] := mark_append hs
  rw [List.append_nil] at hend
  rw [hcode, mark_append hi, mark_cons rfl, mark_append ht, mark_append hb, hend]

end Codes

private theorem tests_of_loopTest {c : Context} {done : Bytes} {test : Expr} {code : List Instr}
    (m : JumpMeaning) (hp : test.isAbsent = false → test.Proper c.locals.length c.req)
    (h : loopTest c done test = .ok code) : Tests m done test (mark test.calls code) := by
  rcases loopTest_cases h with ⟨ha, rfl⟩ | ⟨ha, a, hv, rfl⟩
  · exact .inl ⟨ha, mark_nil⟩
  · refine .inr ⟨ha, mark test.calls a, straight_of_value m (hp ha) hv, ?_⟩
    exact mark_snoc (makes_of_value (hp ha) hv) rfl

/-- The code of statements, with its calls counted, has the form that belongs to them. -/
theorem layout_of_emits {c : Context} {piece : Piece} {n n' : Nat} {part : List Instr}
    (m : JumpMeaning) (h : Emits c piece n part n') :
    Layout m c.exit piece (mark piece.calls part) := by
  induction h with
  | nil => exact .nil
  | @cons n n₁ n' x xs a b first rest ih₁ ih₂ =>
    have hmark : mark (Piece.many (x :: xs)).calls (a ++ b) =
        mark (Piece.one x).calls a ++ mark (Piece.many xs).calls b :=
      mark_append (makes_of_emits first)
    rw [hmark]
    exact .cons ih₁ ih₂
  | block inner ih => exact .block ih
  | cond proper tested first second ih₁ ih₂ =>
    have hsecond := makes_of_emits second
    rw [calls_ofOptional] at ih₂ hsecond
    refine (mark_condCode (makes_of_value proper tested) (makes_of_emits first) hsecond) ▸ ?_
    exact .cond (straight_of_value m proper tested) ih₁ ih₂
  | loop properTest properStep started tested inner stepped ih₁ ih₂ =>
    have hstarted := makes_of_emits started
    rw [calls_ofOptional] at ih₁ hstarted
    refine (mark_loopCode hstarted (makes_of_loopTest properTest tested) (makes_of_emits inner)
      (makes_of_loopStep properStep stepped)) ▸ ?_
    exact .loop ih₁ (tests_of_loopTest m properTest tested) ih₂
      (straight_of_loopStep m properStep stepped)
  | ret proper valued =>
    rw [Piece.calls, Stmt.calls, mark_snoc (makes_of_value proper valued) rfl]
    exact .ret (straight_of_value m proper valued)
  | expr proper run => exact .expr (straight_of_effect m proper run)

end StackC.Lowering
