import StackC.Proofs.Lowering.Functions

/-! The calls in the code of a tree: those of its call expressions and of its comparisons, in the
order in which it is evaluated. -/
namespace StackC

/-- A call as the code makes it. -/
structure Invocation where
  label : Bytes
  /-- How many values the call takes from the stack. -/
  args : Nat
  deriving DecidableEq, Repr

/-- The call that an operator is, if the machine has no instruction for it. -/
def BinaryOp.invocation? (op : BinaryOp) : Option Invocation :=
  (Asm.Routine.find? op).map fun r => { label := r.name, args := 2 }

namespace Expr

mutual

/-- The calls of an expression. The right side of an assignment comes before the left one. -/
def calls : Expr → List Invocation
  | absent | num .. | var .. => []
  | neg _ x | addr _ x | deref _ x => x.calls
  | binary _ op l r => l.calls ++ (r.calls ++ op.invocation?.toList)
  | assign _ l r => r.calls ++ l.calls
  | call _ name args => allCalls args ++ [{ label := name, args := args.length }]

def allCalls : List Expr → List Invocation
  | [] => []
  | x :: xs => x.calls ++ allCalls xs

end

end Expr

namespace Stmt

mutual

/-- The calls of a statement. The step of a loop comes behind its body. -/
def calls : Stmt → List Invocation
  | absent => []
  | block _ body => allCalls body
  | cond _ test yes no => test.calls ++ (yes.calls ++ no.calls)
  | loop _ first test step body => first.calls ++ (test.calls ++ (body.calls ++ step.calls))
  | ret _ x | expr _ x => x.calls

def allCalls : List Stmt → List Invocation
  | [] => []
  | x :: xs => x.calls ++ allCalls xs

end

end Stmt

def Function.calls (f : Function) : List Invocation :=
  f.body.elim [] fun b => Stmt.allCalls b.stmts

/-- The calls of a program, with the one that begins it if it has functions. -/
def Program.calls (p : Program) : List Invocation :=
  p.funcs.flatMap Function.calls ++
    if p.topLevel then [] else [{ label := Lowering.mainName, args := 0 }]

namespace Asm

def Instr.calls? : Instr → Option Bytes
  | call l => some l
  | _ => none

def called (code : List Instr) : List Bytes := code.filterMap Instr.calls?

section

variable {l : Bytes} {i : Instr} {a b code : List Instr}

@[simp] theorem called_append : called (a ++ b) = called a ++ called b := List.filterMap_append

theorem called_cons (h : i.calls? = none) : called (i :: code) = called code :=
  List.filterMap_cons_none h

theorem mem_called : l ∈ called code ↔ Instr.call l ∈ code := by
  simp only [called, List.mem_filterMap]
  constructor
  · rintro ⟨i, hi, hl⟩
    cases i with
    | call l' =>
      cases hl
      exact hi
    | _ => cases hl
  · intro h
    exact ⟨_, h, rfl⟩

end

end Asm

namespace Lowering

open Asm

variable {c : Context} {code : List Instr} {x : Expr}

/-- The code makes these calls and no others. -/
def Makes (calls : List Invocation) (code : List Instr) : Prop :=
  called code = calls.map Invocation.label

namespace Makes

variable {xs ys : List Invocation} {a b : List Instr} {i : Instr}

theorem nil : Makes [] [] := rfl

theorem append (ha : Makes xs a) (hb : Makes ys b) : Makes (xs ++ ys) (a ++ b) := by
  unfold Makes at ha hb ⊢
  rw [called_append, ha, hb, List.map_append]

/-- An instruction that is no call. -/
theorem cons (hi : i.calls? = none) (ha : Makes xs a) : Makes xs (i :: a) := by
  unfold Makes at ha ⊢
  rw [called_cons hi, ha]

theorem single (hi : i.calls? = none) : Makes [] [i] := cons hi nil

/-- An instruction behind others that is no call. -/
theorem snoc (ha : Makes xs a) (hi : i.calls? = none) : Makes xs (a ++ [i]) := by
  have h := ha.append (single hi)
  rwa [List.append_nil] at h

end Makes

private theorem makes_of_operation {pos : Int} {op : BinaryOp} {i : Instr}
    (h : operation c pos op = .ok i) : Makes op.invocation?.toList [i] := by
  unfold operation at h
  split at h
  · next j hj =>
    cases h
    cases op <;> cases hj <;> rfl
  · cases h
  · next r hn hr =>
    split at h
    · cases h
      rw [BinaryOp.invocation?, hr]
      rfl
    · cases h

theorem makes_of_values {args : List Expr}
    (h : ∀ x ∈ args, ∀ code, value c x = .ok code → Makes x.calls code)
    (hv : values c args = .ok code) : Makes (Expr.allCalls args) code := by
  induction args generalizing code with
  | nil =>
    cases hv
    exact .nil
  | cons x args ih =>
    rw [List.forall_mem_cons] at h
    obtain ⟨a, b, ha, hb, rfl⟩ := values_cons_eq_ok.mp hv
    rw [Expr.allCalls]
    exact (h.1 a ha).append (ih h.2 hb)

private theorem makes_of_reload (h : reload c x = .ok code) : Makes [] code := by
  unfold reload at h
  split at h
  · obtain ⟨name, -, h⟩ := Outcome.bind_eq_ok.mp h
    cases h
    exact .single rfl
  · obtain ⟨name, -, h⟩ := Outcome.bind_eq_ok.mp h
    cases h
    exact .cons rfl (.single rfl)
  · cases h
    exact .cons rfl (.single rfl)
  · cases h
    exact .nil

/-- A place calls what its address does. -/
theorem makes_of_place (h : ∀ q y, x = .deref q y → ∀ a, value c y = .ok a → Makes y.calls a)
    (hp : place c x = .ok code) : Makes x.calls code := by
  rcases place_cases hp with ⟨p, i, name, rfl, -, rfl⟩ | ⟨q, p, i, name, rfl, -, rfl⟩ |
    ⟨q, y, a, rfl, -, ha, rfl⟩
  · exact .single rfl
  · exact .single rfl
  · have hy := ((h q y rfl a ha).snoc (i := .store scratchName) rfl).snoc
      (i := .storeThrough scratchName) rfl
    rw [List.append_assoc] at hy
    exact hy

/-- The calls in the code of an expression, and in that of a store into it. -/
theorem makes_of_expr (hx : x.Proper c.locals.length c.req) :
    (∀ code, value c x = .ok code → Makes x.calls code) ∧
      ∀ code, place c x = .ok code → Makes x.calls code := by
  induction hx with
  | num =>
    refine ⟨fun code h => ?_, fun code => makes_of_place (by simp)⟩
    cases h
    exact .single rfl
  | var bound =>
    refine ⟨fun code h => ?_, fun code => makes_of_place (by simp)⟩
    obtain ⟨name, -, rfl⟩ := value_var_eq_ok.mp h
    exact .single rfl
  | neg operand ih =>
    refine ⟨fun code h => ?_, fun code => makes_of_place (by simp)⟩
    obtain ⟨a, ha, rfl⟩ := value_neg_eq_ok.mp h
    exact (ih.1 a ha).snoc rfl
  | addr operand ih =>
    refine ⟨fun code h => ?_, fun code => makes_of_place (by simp)⟩
    obtain ⟨p, i, name, rfl, -, rfl⟩ := value_addr_eq_ok.mp h
    exact .single rfl
  | deref operand ih =>
    refine ⟨fun code h => ?_, fun code => makes_of_place ?_⟩
    · obtain ⟨a, ha, rfl⟩ := value_deref_eq_ok.mp h
      exact (ih.1 a ha).snoc rfl
    · intro q y he
      cases he
      exact ih.1
  | binary supported left right ih₁ ih₂ =>
    refine ⟨fun code h => ?_, fun code => makes_of_place (by simp)⟩
    obtain ⟨a, b, i, ha, hb, hi, rfl⟩ := value_binary_eq_ok.mp h
    rw [List.append_assoc, Expr.calls]
    exact (ih₁.1 a ha).append ((ih₂.1 b hb).append (makes_of_operation hi))
  | assign left right ih₁ ih₂ =>
    refine ⟨fun code h => ?_, fun code => makes_of_place (by simp)⟩
    obtain ⟨a, b, d, ha, hb, hd, rfl⟩ := value_assign_eq_ok.mp h
    have hs := ((ih₂.1 a ha).append (ih₁.2 b hb)).append (makes_of_reload hd)
    rwa [List.append_nil] at hs
  | call isName arguments ih =>
    refine ⟨fun code h => ?_, fun code => makes_of_place (by simp)⟩
    obtain ⟨-, a, ha, rfl⟩ := value_call_eq_ok.mp h
    rw [Expr.calls]
    exact (makes_of_values (fun x hx => (ih x hx).1) ha).append rfl

theorem makes_of_value (hx : x.Proper c.locals.length c.req) (h : value c x = .ok code) :
    Makes x.calls code :=
  (makes_of_expr hx).1 code h

theorem makes_of_effect (hx : x.Proper c.locals.length c.req) (h : effect c x = .ok code) :
    Makes x.calls code := by
  rcases effect_cases h with ⟨p, l, r, a, b, rfl, ha, hb, rfl⟩ | ⟨-, a, ha, rfl⟩
  · cases hx with
    | assign left right => exact (makes_of_value right ha).append ((makes_of_expr left).2 b hb)
  · exact (makes_of_value hx ha).snoc rfl

theorem makes_of_loopTest {done : Bytes} (hx : x.isAbsent = false → x.Proper c.locals.length c.req)
    (h : loopTest c done x = .ok code) : Makes x.calls code := by
  rcases loopTest_cases h with ⟨ha, rfl⟩ | ⟨ha, a, hv, rfl⟩
  · cases Expr.eq_absent ha
    exact .nil
  · exact (makes_of_value (hx ha) hv).snoc rfl

theorem makes_of_loopStep (hx : x.isAbsent = false → x.Proper c.locals.length c.req)
    (h : loopStep c x = .ok code) : Makes x.calls code := by
  rcases loopStep_cases h with ⟨ha, rfl⟩ | ⟨ha, h⟩
  · cases Expr.eq_absent ha
    exact .nil
  · exact makes_of_effect (hx ha) h

def Piece.calls : Piece → List Invocation
  | one x => x.calls
  | many xs => Stmt.allCalls xs

theorem calls_ofOptional (x : Stmt) : (Piece.ofOptional x).calls = x.calls :=
  Piece.apply_ofOptional Piece.calls rfl x

private theorem makes_condCode {k : Nat} {t a b : List Instr} {xs ys zs : List Invocation}
    (ht : Makes xs t) (ha : Makes ys a) (hb : Makes zs b) :
    Makes (xs ++ (ys ++ zs)) (condCode k t a b) := by
  have h₁ := ht.snoc (i := .jumpZero (elseLabel k)) rfl
  have h₂ : Makes zs ([Instr.jump (endLabel k), .label (elseLabel k)] ++ b ++
      [Instr.label (endLabel k)]) := (Makes.cons rfl (.cons rfl hb)).snoc rfl
  have h := h₁.append (ha.append h₂)
  simpa [condCode] using h

private theorem makes_loopCode {k : Nat} {i t b s : List Instr} {ws xs ys zs : List Invocation}
    (hi : Makes ws i) (ht : Makes xs t) (hb : Makes ys b) (hs : Makes zs s) :
    Makes (ws ++ (xs ++ (ys ++ zs))) (loopCode k i t b s) := by
  have h₁ := hi.snoc (i := .label (beginLabel k)) rfl
  have h₂ := (hs.snoc (i := .jump (beginLabel k)) rfl).snoc (i := .label (endLabel k)) rfl
  have h := h₁.append (ht.append (hb.append h₂))
  simpa [loopCode] using h

/-- The calls in the code of statements. -/
theorem makes_of_emits {piece : Piece} {n m : Nat} (h : Emits c piece n code m) :
    Makes piece.calls code := by
  induction h with
  | nil => exact .nil
  | cons first rest ih₁ ih₂ => exact ih₁.append ih₂
  | block inner ih => exact ih
  | cond proper tested first second ih₁ ih₂ =>
    rw [calls_ofOptional] at ih₂
    exact makes_condCode (makes_of_value proper tested) ih₁ ih₂
  | loop properTest properStep started tested inner stepped ih₁ ih₂ =>
    rw [calls_ofOptional] at ih₁
    exact makes_loopCode ih₁ (makes_of_loopTest properTest tested) ih₂
      (makes_of_loopStep properStep stepped)
  | ret proper valued => exact (makes_of_value proper valued).snoc rfl
  | expr proper run => exact makes_of_effect proper run

private theorem makes_of_functions {req : Requirements} {n m : Nat} {fs : List Function}
    {rs : List (List Instr)} (h : EmitsFunctions req n fs rs m) :
    Makes (fs.flatMap Function.calls) rs.flatten := by
  induction h with
  | nil => exact .nil
  | @cons n n₁ m f fs b inner rs hasBody first rest ih =>
    have hf : Makes f.calls
        (.label f.name :: (inner ++ [Instr.label (exitLabel f.name), .ret])) := by
      have hb := (makes_of_emits first).append (Makes.cons (i := .label (exitLabel f.name)) rfl
        (.single (i := .ret) rfl))
      rw [List.append_nil] at hb
      rw [Function.calls, hasBody]
      exact .cons rfl hb
    rw [List.flatMap_cons, List.flatten_cons]
    exact hf.append ih

/-- Behind the comparison routines a program makes its own calls, and there a label comes first. -/
theorem makes_of_program {p : Program} (h : EmitsProgram p code) :
    ∃ l rest, code = .jump startLabel :: (routines p.req ++ .label l :: rest) ∧
      Makes p.calls (.label l :: rest) := by
  cases h with
  | @topLevel f b inner m isTop single hasBody first =>
    refine ⟨_, _, rfl, ?_⟩
    have hb := ((makes_of_emits first).append (Makes.cons (i := .label topExit) rfl
      (.cons (i := .display) rfl (.single (i := .halt) rfl))))
    rw [Program.calls, single, isTop, List.flatMap_singleton, Function.calls, hasBody]
    exact .cons rfl hb
  | @functions rs m notTop unreserved hasMain emitted =>
    have hm : Makes [{ label := mainName, args := 0 }]
        [.label startLabel, .call mainName, .display, .halt] := rfl
    have hall := (makes_of_functions emitted).append hm
    have hp : p.calls = p.funcs.flatMap Function.calls ++ [{ label := mainName, args := 0 }] := by
      rw [Program.calls, notTop]
      rfl
    rw [← hp] at hall
    -- There is a function, so the first label is that of the first one.
    generalize p.funcs = fs at emitted hasMain
    cases emitted with
    | nil => cases hasMain
    | cons hasBody first rest => exact ⟨_, _, rfl, hall⟩

end Lowering

end StackC
