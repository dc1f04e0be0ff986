import StackC.Proofs.Lowering.CallOrder
import StackC.Proofs.Lowering.Ingredients
import StackC.Proofs.Lowering.WellFormed

/-! The cells that the code of a program uses: the scratch cell from one instruction to the next
only, and otherwise the locals of the function that the code belongs to. -/
namespace StackC

namespace Asm

/-- The name in an operand that begins with one of these sigils. -/
def Line.named? (sigils : Bytes) (l : Line) : Option Bytes :=
  match l.arg with
  | b :: x => if sigils.contains b then some x else none
  | [] => none

/-- The cell that an operand of the form `&x`, `$x` or `*x` names. -/
def Line.cell? (l : Line) : Option Bytes := l.named? (ascii "&$*")

def Line.name? (l : Line) : Option Bytes := l.named? (ascii "&$*%")

namespace Instr

variable {i : Instr} {x : Bytes}

/-- A number has no name in it. -/
theorem named?_push (n : Int) {sigils : Bytes} (h : sigils ⊆ ascii "&$*%") :
    (push n).line.named? sigils = none := by
  unfold Line.named?
  split
  · next b x ha =>
    have hb : b ∈ Text.decimal n := (show Text.decimal n = b :: x from ha) ▸ List.mem_cons_self
    have hs : (ascii "&$*%").all fun b => !decide (Text.isDigit b ∨ b = byte '-') := by decide
    refine if_neg fun hm => ?_
    have hno := List.all_eq_true.mp hs b (h (List.contains_iff_mem.mp hm))
    simp [Text.mem_decimal hb] at hno
  · rfl

theorem cell?_push (n : Int) : (push n).line.cell? = none := named?_push n (by decide)

theorem cell?_eq_some :
    i.line.cell? = some x ↔ i ∈ [load x, address x, store x, storeThrough x] := by
  cases i with
  | push n => simp [cell?_push]
  | load y | address y | store y | storeThrough y =>
    change some y = some x ↔ _
    simp
  | _ =>
    change none = some x ↔ _
    simp

theorem name?_eq_some : i.line.name? = some x ↔
    i.line.cell? = some x ∨ i ∈ [call x, jump x, jumpZero x, jumpNegative x] := by
  rw [cell?_eq_some]
  cases i with
  | push n => simp [Line.name?, named?_push]
  | load y | address y | store y | storeThrough y | call y | jump y | jumpZero y | jumpNegative y =>
    change some y = some x ↔ _
    simp
  | _ =>
    change none = some x ↔ _
    simp

theorem operand?_of_name? (h : i.line.name? = some x) : i.operand? = some x := by
  rw [name?_eq_some, cell?_eq_some] at h
  simp only [List.mem_cons, List.not_mem_nil, or_false] at h
  rcases h with (rfl | rfl | rfl | rfl) | rfl | rfl | rfl | rfl <;> rfl

end Instr

end Asm

namespace Lowering

open Asm

/-- Code that uses the scratch cell only to store through it, and to load again what was stored. -/
inductive Tidy : List Instr → Prop
  | nil : Tidy []
  | other {i : Instr} {rest : List Instr} (elsewhere : i.line.cell? ≠ some scratchName)
      (more : Tidy rest) : Tidy (i :: rest)
  | store {rest : List Instr} (more : Tidy rest) :
      Tidy (.store scratchName :: .storeThrough scratchName :: rest)
  | reload {rest : List Instr} (more : Tidy rest) :
      Tidy (.store scratchName :: .storeThrough scratchName :: .load scratchName :: .deref :: rest)

/-- How an instruction with the scratch cell stands between others. -/
inductive Stands : List Instr → Instr → List Instr → Prop
  | store {before after : List Instr} :
      Stands before (.store scratchName) (.storeThrough scratchName :: after)
  | storeThrough {before after : List Instr} :
      Stands (before ++ [.store scratchName]) (.storeThrough scratchName) after
  | load {before after : List Instr} :
      Stands (before ++ [.storeThrough scratchName]) (.load scratchName) (.deref :: after)

section Lists

variable {a b before after code : List Instr} {i : Instr}

theorem Tidy.cons (h : i.line.cell? = none) (more : Tidy code) : Tidy (i :: code) :=
  .other (by simp [h]) more

theorem Tidy.append (ha : Tidy a) (hb : Tidy b) : Tidy (a ++ b) := by
  induction ha with
  | nil => exact hb
  | other elsewhere _ ih => exact .other elsewhere ih
  | store _ ih => exact .store ih
  | reload _ ih => exact .reload ih

private theorem tidy_of_none (h : ∀ i ∈ code, i.line.cell? = none) : Tidy code := by
  induction code with
  | nil => exact .nil
  | cons i code ih =>
    rw [List.forall_mem_cons] at h
    exact .cons h.1 (ih h.2)

theorem Stands.cons (h : Stands before i after) (j : Instr) : Stands (j :: before) i after := by
  cases h with
  | store => exact .store
  | storeThrough => exact @Stands.storeThrough (j :: _) _
  | load => exact @Stands.load (j :: _) _

/-- In tidy code the scratch cell is passed from one instruction to the next. -/
theorem Tidy.stands (h : Tidy code) (hs : code = before ++ i :: after)
    (hi : i.line.cell? = some scratchName) : Stands before i after := by
  induction h generalizing before with
  | nil => simp at hs
  | other elsewhere more ih =>
    rcases before with _ | ⟨j, before⟩
    · cases hs
      exact absurd hi elsewhere
    · cases hs
      exact (ih rfl).cons _
  | store more ih =>
    rcases before with _ | ⟨j, _ | ⟨k, before⟩⟩
    · cases hs
      exact .store
    · cases hs
      exact @Stands.storeThrough [] _
    · cases hs
      exact ((ih rfl).cons _).cons _
  | reload more ih =>
    rcases before with _ | ⟨j, _ | ⟨k, _ | ⟨l, _ | ⟨m, before⟩⟩⟩⟩
    · cases hs
      exact .store
    · cases hs
      exact @Stands.storeThrough [] _
    · cases hs
      exact @Stands.load [_] _
    · cases hs
      cases hi
    · cases hs
      exact ((((ih rfl).cons _).cons _).cons _).cons _

end Lists

section Expressions

variable {c : Context} (hc : scratchName ∉ c.locals.map Local.name) {code : List Instr} {x : Expr}

include hc

/-- No variable is the scratch cell. -/
theorem tidy_access {index : Int} {name : Bytes} {i : Instr} (h : c.cell index = .ok name)
    (hi : i.line.cell? = some name) {rest : List Instr} (more : Tidy rest) : Tidy (i :: rest) := by
  refine .other (fun he => ?_) more
  obtain ⟨v, hv, rfl⟩ := exists_local_of_cell h
  rw [hi, Option.some.injEq] at he
  exact hc (he ▸ List.mem_map_of_mem hv)

omit hc in
private theorem cell?_of_operation {pos : Int} {op : BinaryOp} {i : Instr}
    (h : operation c pos op = .ok i) : i.line.cell? = none := by
  unfold operation at h
  split at h
  · next j hj =>
    cases h
    cases op <;> cases hj <;> rfl
  · cases h
  · split at h
    · cases h
      rfl
    · cases h

omit hc in
private theorem tidy_of_values {args : List Expr}
    (h : ∀ x ∈ args, ∀ code, value c x = .ok code → Tidy code) (hv : values c args = .ok code) :
    Tidy code := by
  induction args generalizing code with
  | nil =>
    cases hv
    exact .nil
  | cons x args ih =>
    rw [List.forall_mem_cons] at h
    obtain ⟨a, b, ha, hb, rfl⟩ := values_cons_eq_ok.mp hv
    exact (h.1 a ha).append (ih h.2 hb)

/-- A store is tidy, also if what was stored is loaded again. -/
theorem tidy_of_place (h : ∀ q y, x = .deref q y → ∀ a, value c y = .ok a → Tidy a)
    (hp : place c x = .ok code) : Tidy code ∧ ∀ d, reload c x = .ok d → Tidy (code ++ d) := by
  rcases place_cases hp with ⟨p, i, name, rfl, hn, rfl⟩ | ⟨q, p, i, name, rfl, hn, rfl⟩ |
    ⟨q, y, a, rfl, hy, ha, rfl⟩
  · refine ⟨tidy_access hc hn rfl .nil, fun d hd => ?_⟩
    obtain ⟨name', hn', hd⟩ := Outcome.bind_eq_ok.mp hd
    cases hd
    exact tidy_access hc hn rfl (tidy_access hc hn' rfl .nil)
  · refine ⟨tidy_access hc hn rfl .nil, fun d hd => ?_⟩
    obtain ⟨name', hn', hd⟩ := Outcome.bind_eq_ok.mp hd
    cases hd
    exact tidy_access hc hn rfl (tidy_access hc hn' rfl (.cons rfl .nil))
  · have hvalue := h q y rfl a ha
    refine ⟨hvalue.append (.store .nil), fun d hd => ?_⟩
    obtain rfl : [Instr.load scratchName, .deref] = d := by
      unfold reload at hd
      split at hd
      · next he => cases he
      · next he =>
        cases he
        exact absurd rfl (hy _ _)
      · exact Except.ok.inj hd
      · next hne => exact absurd rfl (hne _ _)
    rw [List.append_assoc]
    exact hvalue.append (.reload .nil)

theorem tidy_of_expr (hx : x.Proper c.locals.length c.req) :
    (∀ code, value c x = .ok code → Tidy code) ∧ ∀ code, place c x = .ok code →
      Tidy code ∧ ∀ d, reload c x = .ok d → Tidy (code ++ d) := by
  induction hx with
  | num =>
    refine ⟨fun code h => ?_, fun code => tidy_of_place hc (by simp)⟩
    cases h
    exact .cons (Instr.cell?_push _) .nil
  | var bound =>
    refine ⟨fun code h => ?_, fun code => tidy_of_place hc (by simp)⟩
    obtain ⟨name, hn, rfl⟩ := value_var_eq_ok.mp h
    exact tidy_access hc hn rfl .nil
  | neg operand ih =>
    refine ⟨fun code h => ?_, fun code => tidy_of_place hc (by simp)⟩
    obtain ⟨a, ha, rfl⟩ := value_neg_eq_ok.mp h
    exact (ih.1 a ha).append (.cons rfl .nil)
  | addr operand ih =>
    refine ⟨fun code h => ?_, fun code => tidy_of_place hc (by simp)⟩
    obtain ⟨p, i, name, -, hn, rfl⟩ := value_addr_eq_ok.mp h
    exact tidy_access hc hn rfl .nil
  | deref operand ih =>
    refine ⟨fun code h => ?_, fun code => tidy_of_place hc ?_⟩
    · obtain ⟨a, ha, rfl⟩ := value_deref_eq_ok.mp h
      exact (ih.1 a ha).append (.cons rfl .nil)
    · rintro q y he a ha
      cases he
      exact ih.1 a ha
  | binary supported left right ih₁ ih₂ =>
    refine ⟨fun code h => ?_, fun code => tidy_of_place hc (by simp)⟩
    obtain ⟨a, b, i, ha, hb, hi, rfl⟩ := value_binary_eq_ok.mp h
    exact ((ih₁.1 a ha).append (ih₂.1 b hb)).append (.cons (cell?_of_operation hi) .nil)
  | assign left right ih₁ ih₂ =>
    refine ⟨fun code h => ?_, fun code => tidy_of_place hc (by simp)⟩
    obtain ⟨a, b, d, ha, hb, hd, rfl⟩ := value_assign_eq_ok.mp h
    rw [List.append_assoc]
    exact (ih₂.1 a ha).append ((ih₁.2 b hb).2 d hd)
  | call isName arguments ih =>
    refine ⟨fun code h => ?_, fun code => tidy_of_place hc (by simp)⟩
    obtain ⟨-, a, ha, rfl⟩ := value_call_eq_ok.mp h
    exact (tidy_of_values (fun x hx => (ih x hx).1) ha).append (.cons rfl .nil)

theorem tidy_of_effect (hx : x.Proper c.locals.length c.req) (h : effect c x = .ok code) :
    Tidy code := by
  rcases effect_cases h with ⟨p, l, r, a, b, rfl, ha, hb, rfl⟩ | ⟨-, a, ha, rfl⟩
  · cases hx with
    | assign left right =>
      exact ((tidy_of_expr hc right).1 a ha).append ((tidy_of_expr hc left).2 b hb).1
  · exact ((tidy_of_expr hc hx).1 a ha).append (.cons rfl .nil)

end Expressions

/-- The code of statements is tidy if no local has the name of the scratch cell. -/
theorem tidy_of_emits {c : Context} {piece : Piece} {n m : Nat} {code : List Instr}
    (hc : scratchName ∉ c.locals.map Local.name) (h : Emits c piece n code m) : Tidy code := by
  induction h with
  | nil => exact .nil
  | cons first rest ih₁ ih₂ => exact ih₁.append ih₂
  | block inner ih => exact ih
  | @cond n n₁ m pos test yes no t a b proper tested first second ih₁ ih₂ =>
    have ht := (tidy_of_expr hc proper).1 t tested
    exact ((((ht.append (.cons rfl .nil)).append ih₁).append (.cons rfl (.cons rfl .nil))).append
      ih₂).append (.cons rfl .nil)
  | @loop n n₁ m pos first body test step i t b s properTest properStep started tested inner
      stepped ih₁ ih₂ =>
    have ht : Tidy t := by
      rcases loopTest_cases tested with ⟨-, rfl⟩ | ⟨ha, a, hv, rfl⟩
      · exact .nil
      · exact ((tidy_of_expr hc (properTest ha)).1 a hv).append (.cons rfl .nil)
    have hs : Tidy s := by
      rcases loopStep_cases stepped with ⟨-, rfl⟩ | ⟨ha, hrun⟩
      · exact .nil
      · exact tidy_of_effect hc (properStep ha) hrun
    exact ((((ih₁.append (.cons rfl .nil)).append ht).append ih₂).append hs).append
      (.cons rfl (.cons rfl .nil))
  | ret proper valued =>
    exact ((tidy_of_expr hc proper).1 _ valued).append (.cons rfl .nil)
  | expr proper run => exact tidy_of_effect hc proper run

section Programs

variable {p : Program} {code : List Instr}

theorem cell?_routines (req : Requirements) : ∀ i ∈ routines req, i.line.cell? = none := by
  have hd : ∀ i ∈ helperCode, i.line.cell? = none := by decide
  exact fun i hi => hd i ((routines_sublist req).subset hi)

private theorem tidy_of_functions {req : Requirements} {n m : Nat} {fs : List Function}
    {rs : List (List Instr)} (hf : ∀ f ∈ fs, scratchName ∉ f.locals.map Local.name)
    (h : EmitsFunctions req n fs rs m) : Tidy rs.flatten := by
  induction h with
  | nil => exact .nil
  | @cons n n₁ m f fs b inner rs hasBody first rest ih =>
    rw [List.forall_mem_cons] at hf
    have hinner := tidy_of_emits hf.1 first
    have hlast : Tidy [Instr.label (exitLabel f.name), .ret] := .cons rfl (.cons rfl .nil)
    exact ((hinner.append hlast).cons rfl).append (ih hf.2)

private theorem tidy_of_program (hf : ∀ f ∈ p.funcs, scratchName ∉ f.locals.map Local.name)
    (h : EmitsProgram p code) : Tidy code := by
  have hr := tidy_of_none (cell?_routines p.req)
  cases h with
  | topLevel isTop single hasBody first =>
    have hinner := tidy_of_emits (hf _ (by simp [single])) first
    exact .cons rfl (hr.append (.cons rfl (hinner.append (.cons rfl (.cons rfl (.cons rfl .nil))))))
  | functions notTop unreserved hasMain emitted =>
    have hfuncs := tidy_of_functions hf emitted
    exact .cons rfl (hr.append
      (hfuncs.append (.cons rfl (.cons rfl (.cons rfl (.cons rfl .nil))))))

/-- The cells of an instruction in the code of a function. -/
theorem Ingredient.own {c : Context} {i : Instr} {x : Bytes} (h : Ingredient c i)
    (hx : i.line.cell? = some x) (hne : x ≠ scratchName) : x ∈ c.locals.map Local.name := by
  have ho := Instr.operand?_of_name? (Instr.name?_eq_some.mpr (.inl hx))
  cases h with
  | bare nameless => simp [nameless] at ho
  | @cell _ v member access =>
    simp only [List.mem_cons, List.not_mem_nil, or_false] at access
    have hv : i.operand? = some v.name := by rcases access with rfl | rfl | rfl | rfl <;> rfl
    obtain rfl : x = v.name := Option.some.inj (ho.symm.trans hv)
    exact List.mem_map_of_mem member
  | scratch access =>
    simp only [List.mem_cons, List.not_mem_nil, or_false] at access
    have hs : i.operand? = some scratchName := by rcases access with rfl | rfl | rfl <;> rfl
    exact absurd (Option.some.inj (ho.symm.trans hs)) hne
  | _ => cases hx

/-- An operand that names no cell and no function that is called has a name that no function has. -/
def Named (i : Instr) : Prop :=
  ∀ x ∈ i.line.name?, i.line.cell? = some x ∨ i = .call x ∨ ¬Callable x

theorem Named.bare {i : Instr} (h : i.line.name? = none) : Named i := by simp [Named, h]

theorem Named.call (x : Bytes) : Named (.call x) := by
  rintro _ ⟨⟩
  exact .inr (.inl rfl)

theorem Named.apart {i : Instr} {x : Bytes} (h : i.line.name? = some x) (hx : ¬Callable x) :
    Named i := by
  intro y hy
  cases h.symm.trans hy
  exact .inr (.inr hx)

theorem not_callable_of_dot {x : Bytes} (h : byte '.' ∈ x) : ¬Callable x :=
  fun hc => hc.1.dotless h

private theorem not_callable_startLabel : ¬Callable startLabel :=
  fun hc => hc.2 startLabel_mem_reservedNames

theorem Ingredient.named {c : Context} {i : Instr} (h : Ingredient c i) (he : byte '.' ∈ c.exit) :
    Named i := by
  cases h with
  | bare nameless =>
    intro x hx
    simp [Instr.operand?_of_name? hx] at nameless
  | cell member access =>
    simp only [List.mem_cons, List.not_mem_nil, or_false] at access
    rcases access with rfl | rfl | rfl | rfl <;> exact fun x hx => .inl hx
  | scratch access =>
    simp only [List.mem_cons, List.not_mem_nil, or_false] at access
    rcases access with rfl | rfl | rfl <;> exact fun x hx => .inl hx
  | call isName => exact .call _
  | label member => exact .bare rfl
  | jump member | jumpZero member =>
    exact .apart rfl (not_callable_of_dot (dot_mem_numbered member))
  | leave => exact .apart rfl (not_callable_of_dot he)

private theorem named_routines (req : Requirements) : ∀ i ∈ routines req, Named i := by
  have hd : ∀ i ∈ helperCode, ∀ x ∈ i.line.name?, i = .call x ∨ byte '.' ∈ x := by decide
  intro i hi x hx
  exact .inr ((hd i ((routines_sublist req).subset hi) x hx).imp_right not_callable_of_dot)

theorem named_of_functions {req : Requirements} {n m : Nat} {fs : List Function}
    {rs : List (List Instr)} (h : EmitsFunctions req n fs rs m) : ∀ i ∈ rs.flatten, Named i := by
  induction h with
  | nil => simp
  | @cons n n₁ m f fs b inner rs hasBody first rest ih =>
    have hinner : ∀ i ∈ inner, Named i :=
      fun i hi => (ingredient_of_emits first i hi).named (dot_mem_exitLabel f.name)
    simp only [List.flatten_cons, List.forall_mem_append, List.forall_mem_cons, List.not_mem_nil,
      false_implies, implies_true, and_true]
    exact ⟨⟨.bare rfl, hinner, .bare rfl, .bare rfl⟩, ih⟩

private theorem named_of_program (h : EmitsProgram p code) : ∀ i ∈ code, Named i := by
  have hr := named_routines p.req
  have hstart : Named (.jump startLabel) := .apart rfl not_callable_startLabel
  cases h with
  | topLevel isTop single hasBody first =>
    have hinner := fun i hi => (ingredient_of_emits first i hi).named dot_mem_topExit
    simp only [List.forall_mem_append, List.forall_mem_cons, List.not_mem_nil, false_implies,
      implies_true, and_true]
    exact ⟨hstart, hr, .bare rfl, hinner, .bare rfl, .bare rfl, .bare rfl⟩
  | functions notTop unreserved hasMain emitted =>
    simp only [List.forall_mem_append, List.forall_mem_cons, List.not_mem_nil, false_implies,
      implies_true, and_true]
    exact ⟨hstart, hr, named_of_functions emitted, .bare rfl, .call mainName, .bare rfl, .bare rfl⟩

private theorem callable_scratchName : Callable scratchName :=
  ⟨⟨by decide, List.all_eq_true.mp (by decide)⟩, by decide⟩

/-- The code calls a function with the name of the scratch cell only where the program does. -/
theorem call_scratchName_mem (h : EmitsProgram p code) :
    Instr.call scratchName ∈ code ↔ ∃ k ∈ p.calls, k.label = scratchName := by
  obtain ⟨l, rest, rfl, hm⟩ := makes_of_program h
  have hr : Instr.call scratchName ∉ routines p.req := fun hi =>
    absurd ((routines_sublist p.req).subset hi) (by decide)
  have hrest : Instr.call scratchName ∈ Instr.label l :: rest ↔
      scratchName ∈ p.calls.map Invocation.label := by rw [← hm, mem_called]
  rw [List.mem_map] at hrest
  simp only [List.mem_cons, List.mem_append, reduceCtorEq, hr, false_or] at hrest ⊢
  exact hrest

def entryOf (p : Program) (f : Function) : Bytes := if p.topLevel then startLabel else f.name

/-- The code of a function. But for the scratch cell it has no cells other than the locals. -/
structure IsSegment (entry : Bytes) (f : Function) (seg : List Instr) : Prop where
  routine : IsRoutine entry seg
  cells : ∀ i ∈ seg, ∀ x, i.line.cell? = some x → x ≠ scratchName → x ∈ f.locals.map Local.name

theorem isSegment_of_emits {f : Function} {req : Requirements} {exit : Bytes} {piece : Piece}
    {n m : Nat} {inner : List Instr} (entry : Bytes) (tail : List Instr)
    (h : Emits { locals := f.locals, req, exit } piece n inner m) (ht : tail.all Instr.isPlain)
    (hc : ∀ i ∈ tail, i.line.cell? = none) :
    IsSegment entry f
      (.label entry :: (inner ++ Instr.label exit :: (tail ++ [ending entry]))) where
  routine := isRoutine_of_emits entry tail h ht
  cells := by
    have hlast : (ending entry).line.cell? = none := by
      unfold ending
      split <;> rfl
    have none {i : Instr} (hi : i.line.cell? = none) (x : Bytes) (hx : i.line.cell? = some x)
        (_ : x ≠ scratchName) : x ∈ f.locals.map Local.name := by simp [hi] at hx
    simp only [List.forall_mem_cons, List.forall_mem_append, List.not_mem_nil, false_implies,
      implies_true, and_true]
    exact ⟨none rfl, fun i hi x => (ingredient_of_emits h i hi).own, none rfl,
      fun i hi => none (hc i hi), none hlast⟩

private theorem isSegment_functions {req : Requirements} {n m : Nat} {fs : List Function}
    {rs : List (List Instr)} (h : EmitsFunctions req n fs rs m)
    (hu : ∀ f ∈ fs, f.name ∉ reservedNames) :
    List.Forall₂ (fun f seg => IsSegment f.name f seg) fs rs := by
  induction h with
  | nil => exact .nil
  | @cons n n₁ m f fs b inner rs hasBody first rest ih =>
    rw [List.forall_mem_cons] at hu
    refine .cons ?_ (ih hu.2)
    have hf := isSegment_of_emits f.name [] first rfl (by simp)
    rwa [ending_of_unreserved hu.1] at hf

/-- The code of a program is that of the comparison routines and of its functions one after the
other. Only that of the functions has cells in it. -/
def Segmented (p : Program) (code : List Instr) : Prop :=
  ∃ segs rest, code = .jump startLabel :: (routines p.req ++ (segs.flatten ++ rest)) ∧
    (∀ i ∈ routines p.req ++ rest, i.line.cell? = none) ∧
    List.Forall₂ (fun f seg => IsSegment (entryOf p f) f seg) p.funcs segs

/-- What the code of a program does with cells. -/
structure CellsKept (p : Program) (code : List Instr) : Prop where
  /-- The scratch cell is stored into, stored through and loaded. Only a call has its name too. -/
  scratch : ∀ i ∈ code, i.line.name? = some scratchName →
    i ∈ [.store scratchName, .storeThrough scratchName, .load scratchName, .call scratchName]
  called : Instr.call scratchName ∈ code ↔ ∃ k ∈ p.calls, k.label = scratchName
  stored : ∀ before after, code = before ++ .store scratchName :: after →
    after.head? = some (.storeThrough scratchName)
  storedThrough : ∀ before after, code = before ++ .storeThrough scratchName :: after →
    before.getLast? = some (.store scratchName)
  loaded : ∀ before after, code = before ++ .load scratchName :: after →
    before.getLast? = some (.storeThrough scratchName) ∧ after.head? = some .deref
  /-- No local has the name of the scratch cell. -/
  unreserved : ∀ f ∈ p.funcs, scratchName ∉ f.locals.map Local.name
  /-- Every other cell is a local of the function that the code belongs to. -/
  segments : Segmented p code

private theorem segmented_of_program (h : EmitsProgram p code) : Segmented p code := by
  have hr := cell?_routines p.req
  cases h with
  | @topLevel f b inner m isTop single hasBody first =>
    have hentry : entryOf p f = startLabel := if_pos isTop
    have hs := isSegment_of_emits (entryOf p f) [.display] first rfl
      (List.forall_mem_singleton.mpr rfl)
    rw [Segmented, single]
    refine ⟨[_], [], ?_, by simpa using hr, .cons hs .nil⟩
    simp [hentry, ending]
  | @functions rs m notTop unreserved hasMain emitted =>
    refine ⟨rs, _, rfl, List.forall_mem_append.mpr ⟨hr, ?_⟩, ?_⟩
    · simp only [List.forall_mem_cons, List.not_mem_nil, false_implies, implies_true, and_true]
      exact ⟨rfl, rfl, rfl, rfl⟩
    · simpa [entryOf, notTop] using isSegment_functions emitted unreserved

/-- The scratch cell holds an address from one instruction to the next only, and every other cell is
a local of the function that the code belongs to. Only calls share the name of the scratch cell. -/
theorem cellsKept_of_parse {src : Bytes} {toks : List Token} {req : Requirements} {p : Program}
    {code : List Instr} (hsrc : Token.scan src = .ok toks) (hp : Grammar.parse toks req = .ok p)
    (hc : program p = .ok code) : CellsKept p code := by
  have proper := Grammar.proper_of_parse hsrc hp
  have emitted := emits_of_program proper hc
  have unreserved : ∀ f ∈ p.funcs, scratchName ∉ f.locals.map Local.name :=
    fun f hf => (proper.functions f hf).unreserved
  have tidy := tidy_of_program unreserved emitted
  constructor
  case scratch =>
    intro i hi hs
    rcases named_of_program emitted i hi scratchName hs with hcell | rfl | hno
    · obtain ⟨before, after, he⟩ := List.append_of_mem hi
      cases tidy.stands he hcell <;> simp
    · simp
    · exact absurd callable_scratchName hno
  case called => exact call_scratchName_mem emitted
  case stored =>
    intro before after he
    cases tidy.stands he rfl
    rfl
  case storedThrough =>
    intro before after he
    cases tidy.stands he rfl
    exact List.getLast?_concat
  case loaded =>
    intro before after he
    cases tidy.stands he rfl
    exact ⟨List.getLast?_concat, rfl⟩
  case unreserved => exact unreserved
  case segments => exact segmented_of_program emitted

end Programs

section Example

open Grammar

def nestedStores : List Token :=
  [⟨.punct, 0, ascii "\x7b", 0⟩, ⟨.punct, 1, ascii "*", 0⟩, ⟨.punct, 2, ascii "*", 0⟩,
    ⟨.ident, 3, ascii "p", 0⟩, ⟨.punct, 4, ascii "=", 0⟩, ⟨.ident, 5, ascii "lval", 0⟩,
    ⟨.punct, 9, ascii "(", 0⟩, ⟨.punct, 10, ascii "*", 0⟩, ⟨.punct, 11, ascii "*", 0⟩,
    ⟨.ident, 12, ascii "q", 0⟩, ⟨.punct, 13, ascii "=", 0⟩, ⟨.num, 14, ascii "1", 1⟩,
    ⟨.punct, 15, ascii ")", 0⟩, ⟨.punct, 16, ascii ";", 0⟩, ⟨.punct, 17, ascii "\x7d", 0⟩, .eof 18]

def nestedStoresTree : Program where
  topLevel := true
  funcs := [{
    name := [], pos := 0
    locals := [⟨ascii "p", .ptr .int, 3⟩, ⟨ascii "q", .ptr .int, 12⟩]
    body := some {
      pos := 0
      stmts := [.expr 1 (.assign 4 (.deref 1 (.deref 2 (.var 3 0))) (.call 5 (ascii "lval")
        [.assign 13 (.deref 10 (.deref 11 (.var 12 1))) (.num 14 1)]))] } }]
  req := {}

def nestedStoresCode : List Instr :=
  [.jump startLabel, .label startLabel, .push 1, .load (ascii "q"), .deref, .store scratchName,
    .storeThrough scratchName, .load scratchName, .deref, .call scratchName, .load (ascii "p"),
    .deref, .store scratchName, .storeThrough scratchName, .label topExit, .display, .halt]

theorem scan_nestedStores :
    Token.scan (ascii "\x7b**p=lval(**q=1);\x7d") = .ok nestedStores := by decide +kernel

theorem parse_nestedStores : parse nestedStores {} = .ok nestedStoresTree := by
  set_option maxRecDepth 2000 in exact parse_of_walk rfl

theorem program_nestedStores : program nestedStoresTree = .ok nestedStoresCode := rfl

/-- A store through a computed address in an argument, between the value and the address of another,
and a call of a function with the name of the scratch cell. -/
theorem cellsKept_nestedStores :
    Token.scan (ascii "\x7b**p=lval(**q=1);\x7d") = .ok nestedStores ∧
      parse nestedStores {} = .ok nestedStoresTree ∧
      program nestedStoresTree = .ok nestedStoresCode ∧
      CellsKept nestedStoresTree nestedStoresCode :=
  ⟨scan_nestedStores, parse_nestedStores, program_nestedStores,
    cellsKept_of_parse scan_nestedStores parse_nestedStores program_nestedStores⟩

/-- Functions may have the name of the scratch cell, so operands other than cells may have it. -/
theorem not_forall_named_scratch :
    ¬∀ src toks p code, Token.scan src = .ok toks → parse toks {} = .ok p → program p = .ok code →
      ∀ i ∈ code, i.line.name? = some scratchName →
        i ∈ [.store scratchName, .storeThrough scratchName, .load scratchName] := by
  intro h
  have hcall := h _ _ _ _ scan_nestedStores parse_nestedStores program_nestedStores
    (.call scratchName) (by decide) rfl
  simp at hcall

end Example

end Lowering

end StackC
