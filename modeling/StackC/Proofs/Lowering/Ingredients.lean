import StackC.Proofs.Asm.Lines
import StackC.Proofs.Lowering.Functions
import StackC.Proofs.Tree.Names

/-! What the code of a program is made of, and that all of it can be spelled. -/
namespace StackC

theorem Token.IsName.writable {name : Bytes} (h : Token.IsName name) : Asm.Writable name :=
  ⟨h.1, fun hm => absurd (h.2 _ hm) (by decide)⟩

namespace Lowering

open Asm

/-- An instruction that may stand in the statements of a function. -/
inductive Ingredient (c : Context) : Instr → Prop
  | bare {i : Instr} (nameless : i.operand? = none) : Ingredient c i
  | cell {i : Instr} {v : Local} (member : v ∈ c.locals)
      (access : i ∈ [.load v.name, .address v.name, .store v.name, .storeThrough v.name]) :
      Ingredient c i
  | scratch {i : Instr}
      (access : i ∈ [.load scratchName, .store scratchName, .storeThrough scratchName]) :
      Ingredient c i
  | call {name : Bytes} (isName : Token.IsName name) : Ingredient c (.call name)
  | label {l : Bytes} {k : Nat} (member : l ∈ numbered k) : Ingredient c (.label l)
  | jump {l : Bytes} {k : Nat} (member : l ∈ numbered k) : Ingredient c (.jump l)
  | jumpZero {l : Bytes} {k : Nat} (member : l ∈ numbered k) : Ingredient c (.jumpZero l)
  | leave : Ingredient c (.jump c.exit)

section Expressions

variable {c : Context} {code : List Instr} {x : Expr}

theorem exists_local_of_cell {index : Int} {name : Bytes} (h : c.cell index = .ok name) :
    ∃ v ∈ c.locals, v.name = name := by
  rw [Context.cell] at h
  cases index with
  | negSucc k => cases h
  | ofNat k =>
    rw [getLocal?] at h
    cases hv : c.locals[k]? with
    | none => simp [hv] at h
    | some v =>
      rw [hv] at h
      cases h
      exact ⟨v, List.mem_of_getElem? hv, rfl⟩

private theorem ingredient_of_operation {pos : Int} {op : BinaryOp} {i : Instr}
    (h : operation c pos op = .ok i) : Ingredient c i := by
  unfold operation at h
  split at h
  · next j hj =>
    cases h
    refine .bare ?_
    cases op <;> cases hj <;> rfl
  · cases h
  · next r hn hr =>
    split at h
    · cases h
      have hd : ∀ r ∈ Routine.all, r.name ≠ [] ∧ r.name.all Token.isIdentPart := by decide
      obtain ⟨hne, hall⟩ := hd r (List.mem_of_find?_eq_some hr)
      exact .call ⟨hne, List.all_eq_true.mp hall⟩
    · cases h

private theorem ingredient_of_values {args : List Expr}
    (h : ∀ x ∈ args, ∀ code, value c x = .ok code → ∀ i ∈ code, Ingredient c i)
    (hv : values c args = .ok code) : ∀ i ∈ code, Ingredient c i := by
  induction args generalizing code with
  | nil =>
    cases hv
    simp
  | cons x args ih =>
    rw [List.forall_mem_cons] at h
    obtain ⟨a, b, ha, hb, rfl⟩ := values_cons_eq_ok.mp hv
    exact List.forall_mem_append.mpr ⟨h.1 a ha, ih h.2 hb⟩

private theorem ingredient_of_reload (h : reload c x = .ok code) : ∀ i ∈ code, Ingredient c i := by
  unfold reload at h
  split at h
  · obtain ⟨name, hn, h⟩ := Outcome.bind_eq_ok.mp h
    obtain ⟨v, hv, rfl⟩ := exists_local_of_cell hn
    cases h
    simp only [List.forall_mem_cons]
    exact ⟨.cell hv (by simp), by simp⟩
  · obtain ⟨name, hn, h⟩ := Outcome.bind_eq_ok.mp h
    obtain ⟨v, hv, rfl⟩ := exists_local_of_cell hn
    cases h
    simp only [List.forall_mem_cons]
    exact ⟨.cell hv (by simp), .bare rfl, by simp⟩
  · cases h
    simp only [List.forall_mem_cons]
    exact ⟨.scratch (by simp), .bare rfl, by simp⟩
  · cases h
    simp

theorem ingredient_of_place
    (h : ∀ q y, x = .deref q y → ∀ a, value c y = .ok a → ∀ i ∈ a, Ingredient c i)
    (hp : place c x = .ok code) : ∀ i ∈ code, Ingredient c i := by
  rcases place_cases hp with ⟨p, i, name, rfl, hn, rfl⟩ | ⟨q, p, i, name, rfl, hn, rfl⟩ |
    ⟨q, y, a, rfl, -, ha, rfl⟩
  · obtain ⟨v, hv, rfl⟩ := exists_local_of_cell hn
    exact List.forall_mem_singleton.mpr (.cell hv (by simp))
  · obtain ⟨v, hv, rfl⟩ := exists_local_of_cell hn
    exact List.forall_mem_singleton.mpr (.cell hv (by simp))
  · simp only [List.forall_mem_append, List.forall_mem_cons]
    exact ⟨h q y rfl a ha, .scratch (by simp), .scratch (by simp), by simp⟩

theorem ingredient_of_expr (hx : x.Proper c.locals.length c.req) :
    (∀ code, value c x = .ok code → ∀ i ∈ code, Ingredient c i) ∧
      ∀ code, place c x = .ok code → ∀ i ∈ code, Ingredient c i := by
  induction hx with
  | num =>
    refine ⟨fun code h => ?_, fun code => ingredient_of_place (by simp)⟩
    cases h
    exact List.forall_mem_singleton.mpr (.bare rfl)
  | var bound =>
    refine ⟨fun code h => ?_, fun code => ingredient_of_place (by simp)⟩
    obtain ⟨name, hn, rfl⟩ := value_var_eq_ok.mp h
    obtain ⟨v, hv, rfl⟩ := exists_local_of_cell hn
    exact List.forall_mem_singleton.mpr (.cell hv (by simp))
  | neg operand ih =>
    refine ⟨fun code h => ?_, fun code => ingredient_of_place (by simp)⟩
    obtain ⟨a, ha, rfl⟩ := value_neg_eq_ok.mp h
    exact List.forall_mem_append.mpr ⟨ih.1 a ha, List.forall_mem_singleton.mpr (.bare rfl)⟩
  | addr operand ih =>
    refine ⟨fun code h => ?_, fun code => ingredient_of_place (by simp)⟩
    obtain ⟨p, i, name, -, hn, rfl⟩ := value_addr_eq_ok.mp h
    obtain ⟨v, hv, rfl⟩ := exists_local_of_cell hn
    exact List.forall_mem_singleton.mpr (.cell hv (by simp))
  | deref operand ih =>
    refine ⟨fun code h => ?_, fun code => ingredient_of_place ?_⟩
    · obtain ⟨a, ha, rfl⟩ := value_deref_eq_ok.mp h
      exact List.forall_mem_append.mpr ⟨ih.1 a ha, List.forall_mem_singleton.mpr (.bare rfl)⟩
    · rintro q y he a ha
      cases he
      exact ih.1 a ha
  | binary supported left right ih₁ ih₂ =>
    refine ⟨fun code h => ?_, fun code => ingredient_of_place (by simp)⟩
    obtain ⟨a, b, i, ha, hb, hi, rfl⟩ := value_binary_eq_ok.mp h
    simp only [List.forall_mem_append, List.forall_mem_singleton]
    exact ⟨⟨ih₁.1 a ha, ih₂.1 b hb⟩, ingredient_of_operation hi⟩
  | assign left right ih₁ ih₂ =>
    refine ⟨fun code h => ?_, fun code => ingredient_of_place (by simp)⟩
    obtain ⟨a, b, d, ha, hb, hd, rfl⟩ := value_assign_eq_ok.mp h
    simp only [List.forall_mem_append]
    exact ⟨⟨ih₂.1 a ha, ih₁.2 b hb⟩, ingredient_of_reload hd⟩
  | call isName arguments ih =>
    refine ⟨fun code h => ?_, fun code => ingredient_of_place (by simp)⟩
    obtain ⟨-, a, ha, rfl⟩ := value_call_eq_ok.mp h
    simp only [List.forall_mem_append, List.forall_mem_singleton]
    exact ⟨ingredient_of_values (fun x hx => (ih x hx).1) ha, .call isName⟩

theorem ingredient_of_effect (hx : x.Proper c.locals.length c.req) (h : effect c x = .ok code) :
    ∀ i ∈ code, Ingredient c i := by
  rcases effect_cases h with ⟨p, l, r, a, b, rfl, ha, hb, rfl⟩ | ⟨-, a, ha, rfl⟩
  · cases hx with
    | assign left right =>
      exact List.forall_mem_append.mpr
        ⟨(ingredient_of_expr right).1 a ha, (ingredient_of_expr left).2 b hb⟩
  · exact List.forall_mem_append.mpr
      ⟨(ingredient_of_expr hx).1 a ha, List.forall_mem_singleton.mpr (.bare rfl)⟩

end Expressions

/-- The code of statements has nothing in it but ingredients. -/
theorem ingredient_of_emits {c : Context} {piece : Piece} {n m : Nat} {code : List Instr}
    (h : Emits c piece n code m) : ∀ i ∈ code, Ingredient c i := by
  induction h with
  | nil => simp
  | cons first rest ih₁ ih₂ => exact List.forall_mem_append.mpr ⟨ih₁, ih₂⟩
  | block inner ih => exact ih
  | @cond n n₁ m pos test yes no t a b proper tested first second ih₁ ih₂ =>
    have ht := (ingredient_of_expr proper).1 t tested
    have hno := elseLabel_mem_numbered (j := n + 1).mpr rfl
    have hend := endLabel_mem_numbered (j := n + 1).mpr rfl
    simp only [condCode, List.forall_mem_append, List.forall_mem_cons, List.not_mem_nil,
      false_implies, implies_true, and_true]
    exact ⟨⟨⟨⟨⟨ht, .jumpZero hno⟩, ih₁⟩, .jump hend, .label hno⟩, ih₂⟩, .label hend⟩
  | @loop n n₁ m pos first body test step i t b s properTest properStep started tested inner
      stepped ih₁ ih₂ =>
    have hbegin := beginLabel_mem_numbered (j := n + 1).mpr rfl
    have hend := endLabel_mem_numbered (j := n + 1).mpr rfl
    have ht : ∀ i ∈ t, Ingredient c i := by
      rcases loopTest_cases tested with ⟨-, rfl⟩ | ⟨ha, a, hv, rfl⟩
      · simp
      · exact List.forall_mem_append.mpr ⟨(ingredient_of_expr (properTest ha)).1 a hv,
          List.forall_mem_singleton.mpr (.jumpZero hend)⟩
    have hs : ∀ i ∈ s, Ingredient c i := by
      rcases loopStep_cases stepped with ⟨-, rfl⟩ | ⟨ha, hrun⟩
      · simp
      · exact ingredient_of_effect (properStep ha) hrun
    simp only [loopCode, List.forall_mem_append, List.forall_mem_cons, List.not_mem_nil,
      false_implies, implies_true, and_true]
    exact ⟨⟨⟨⟨⟨ih₁, .label hbegin⟩, ht⟩, ih₂⟩, hs⟩, .jump hbegin, .label hend⟩
  | ret proper valued =>
    exact List.forall_mem_append.mpr
      ⟨(ingredient_of_expr proper).1 _ valued, List.forall_mem_singleton.mpr .leave⟩
  | expr proper run => exact ingredient_of_effect proper run

theorem writable_numbered {l : Bytes} {k : Nat} (h : l ∈ numbered k) : Writable l := by
  have digits : Text.newline ∉ Text.decimalNat k := fun hm =>
    absurd (Text.isDigit_decimalNat k _ hm) (by decide)
  have stemmed {t : Bytes} (ht : Writable t) : Writable (t ++ Text.decimalNat k) :=
    ⟨List.append_ne_nil_of_left_ne_nil ht.1 _, List.not_mem_append ht.2 digits⟩
  simp only [numbered, List.mem_cons, List.not_mem_nil, or_false] at h
  rcases h with rfl | rfl | rfl
  · exact stemmed ⟨by decide, by decide⟩
  · exact stemmed ⟨by decide, by decide⟩
  · exact stemmed ⟨by decide, by decide⟩

theorem writable_exitLabel {name : Bytes} (h : Token.IsName name) : Writable (exitLabel name) :=
  ⟨List.append_ne_nil_of_left_ne_nil (by decide) _, List.not_mem_append (by decide) h.writable.2⟩

/-- The ingredients can be spelled if the names of the variables can. -/
theorem Ingredient.spellable {c : Context} {i : Instr}
    (hl : ∀ v ∈ c.locals, Token.IsName v.name) (he : Writable c.exit) (h : Ingredient c i) :
    i.Spellable := by
  cases h with
  | bare nameless => exact .bare nameless
  | cell member access =>
    refine .named ?_ (hl _ member).writable
    simp only [List.mem_cons, List.not_mem_nil, or_false] at access
    rcases access with rfl | rfl | rfl | rfl <;> rfl
  | scratch access =>
    have hs : Writable scratchName := ⟨by decide, by decide⟩
    refine .named ?_ hs
    simp only [List.mem_cons, List.not_mem_nil, or_false] at access
    rcases access with rfl | rfl | rfl <;> rfl
  | call isName => exact .named rfl isName.writable
  | label member => exact .named rfl (writable_numbered member)
  | jump member => exact .named rfl (writable_numbered member)
  | jumpZero member => exact .named rfl (writable_numbered member)
  | leave => exact .named rfl he

theorem spellable_of_emits {c : Context} {piece : Piece} {n m : Nat} {code : List Instr}
    (h : Emits c piece n code m) (hl : ∀ v ∈ c.locals, Token.IsName v.name)
    (he : Writable c.exit) : ∀ i ∈ code, i.Spellable :=
  fun i hi => (ingredient_of_emits h i hi).spellable hl he

private theorem spellable_of_functions {req : Requirements} {n m : Nat} {fs : List Function}
    {rs : List (List Instr)} (h : EmitsFunctions req n fs rs m)
    (hn : ∀ f ∈ fs, Token.IsName f.name) (hl : ∀ f ∈ fs, ∀ v ∈ f.locals, Token.IsName v.name) :
    ∀ i ∈ rs.flatten, i.Spellable := by
  induction h with
  | nil => simp
  | cons hasBody first rest ih =>
    rw [List.forall_mem_cons] at hn hl
    have hexit := writable_exitLabel hn.1
    have hinner := spellable_of_emits first hl.1 hexit
    simp only [List.flatten_cons, List.forall_mem_append, List.forall_mem_cons, List.not_mem_nil,
      false_implies, implies_true, and_true]
    exact ⟨⟨.named rfl hn.1.writable, hinner, .named rfl hexit, .bare rfl⟩, ih hn.2 hl.2⟩

/-- All the code of a program can be spelled. -/
theorem spellable_of_program {p : Program} {code : List Instr} (hp : p.Proper)
    (hl : ∀ f ∈ p.funcs, ∀ v ∈ f.locals, Token.IsName v.name) (h : EmitsProgram p code) :
    ∀ i ∈ code, i.Spellable := by
  have hstart : Writable startLabel := ⟨by decide, by decide⟩
  have hroutines : ∀ i ∈ routines p.req, i.Spellable := by
    have hd : ∀ i ∈ helperCode, ∀ name ∈ i.operand?, name ≠ [] ∧ Text.newline ∉ name := by decide
    exact fun i hi => hd i ((routines_sublist p.req).subset hi)
  cases h with
  | topLevel isTop single hasBody first =>
    have hexit : Writable topExit := ⟨by decide, by decide⟩
    rw [single, List.forall_mem_singleton] at hl
    have hinner := spellable_of_emits first hl hexit
    simp only [List.forall_mem_append, List.forall_mem_cons, List.not_mem_nil, false_implies,
      implies_true, and_true]
    exact ⟨.named rfl hstart, hroutines, .named rfl hstart, hinner, .named rfl hexit, .bare rfl,
      .bare rfl⟩
  | functions notTop unreserved hasMain emitted =>
    have hmain : Writable mainName := ⟨by decide, by decide⟩
    have hfuncs := spellable_of_functions emitted (hp.named notTop) hl
    simp only [List.forall_mem_append, List.forall_mem_cons, List.not_mem_nil, false_implies,
      implies_true, and_true]
    exact ⟨.named rfl hstart, hroutines, hfuncs, .named rfl hstart, .named rfl hmain, .bare rfl,
      .bare rfl⟩

end Lowering

end StackC
