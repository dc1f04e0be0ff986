import StackC.Tree.Basic
import Mathlib.Data.List.Forall2

/-! Trees that differ in offsets and in the numbers of their variables. Which numbers correspond is
a parameter; in two functions they are those of locals with the same name. -/
namespace StackC

/-- Two numbers of variables stand for locals with the same name. -/
def Named (locals locals' : List Local) (i i' : Int) : Prop :=
  ∃ name, (getLocal? locals i).map Local.name = some name ∧
    (getLocal? locals' i').map Local.name = some name

theorem map_name_getLocal? (locals : List Local) (i : Nat) :
    (getLocal? locals i).map Local.name = (locals.map Local.name)[i]? := by
  rw [List.getElem?_map]
  rfl

/-- More locals leave the names of the old ones as they are. -/
theorem map_name_of_prefix {locals more : List Local} {i : Int} {name : Bytes}
    (hp : locals.map Local.name <+: more.map Local.name)
    (h : (getLocal? locals i).map Local.name = some name) :
    (getLocal? more i).map Local.name = some name := by
  cases i with
  | negSucc n => cases h
  | ofNat n =>
    change (getLocal? locals (n : Int)).map Local.name = some name at h
    change (getLocal? more (n : Int)).map Local.name = some name
    rw [map_name_getLocal?] at h ⊢
    obtain ⟨rest, hr⟩ := hp
    rw [← hr, List.getElem?_append_left (List.getElem?_eq_some_iff.mp h).1, h]

theorem Named.mono {locals locals' more more' : List Local} {i i' : Int}
    (h : Named locals locals' i i') (hp : locals.map Local.name <+: more.map Local.name)
    (hp' : locals'.map Local.name <+: more'.map Local.name) : Named more more' i i' := by
  obtain ⟨name, hi, hi'⟩ := h
  exact ⟨name, map_name_of_prefix hp hi, map_name_of_prefix hp' hi'⟩

/-- The expressions differ in offsets, and in variables as far as `V` allows. -/
inductive Expr.Matches (V : Int → Int → Prop) : Expr → Expr → Prop
  | absent : Matches V .absent .absent
  | num {p p' n : Int} : Matches V (.num p n) (.num p' n)
  | neg {p p' : Int} {x x' : Expr} (operand : Matches V x x') : Matches V (.neg p x) (.neg p' x')
  | addr {p p' : Int} {x x' : Expr} (operand : Matches V x x') :
      Matches V (.addr p x) (.addr p' x')
  | deref {p p' : Int} {x x' : Expr} (operand : Matches V x x') :
      Matches V (.deref p x) (.deref p' x')
  | binary {p p' : Int} {op : BinaryOp} {l l' r r' : Expr} (left : Matches V l l')
      (right : Matches V r r') : Matches V (.binary p op l r) (.binary p' op l' r')
  | assign {p p' : Int} {l l' r r' : Expr} (left : Matches V l l') (right : Matches V r r') :
      Matches V (.assign p l r) (.assign p' l' r')
  | var {p p' i i' : Int} (same : V i i') : Matches V (.var p i) (.var p' i')
  | call {p p' : Int} {name : Bytes} {args args' : List Expr}
      (arguments : List.Forall₂ (Expr.Matches V) args args') :
      Matches V (.call p name args) (.call p' name args')

/-- The statements differ in the same way. -/
inductive Stmt.Matches (V : Int → Int → Prop) : Stmt → Stmt → Prop
  | absent : Matches V .absent .absent
  | block {p p' : Int} {body body' : List Stmt}
      (inner : List.Forall₂ (Stmt.Matches V) body body') :
      Matches V (.block p body) (.block p' body')
  | cond {p p' : Int} {test test' : Expr} {yes yes' no no' : Stmt} (cond : test.Matches V test')
      (first : Matches V yes yes') (second : Matches V no no') :
      Matches V (.cond p test yes no) (.cond p' test' yes' no')
  | loop {p p' : Int} {first first' body body' : Stmt} {test test' step step' : Expr}
      (init : Matches V first first') (cond : test.Matches V test') (inc : step.Matches V step')
      (inner : Matches V body body') :
      Matches V (.loop p first test step body) (.loop p' first' test' step' body')
  | ret {p p' : Int} {x x' : Expr} (value : x.Matches V x') : Matches V (.ret p x) (.ret p' x')
  | expr {p p' : Int} {x x' : Expr} (value : x.Matches V x') :
      Matches V (.expr p x) (.expr p' x')

mutual

theorem Expr.Matches.mono {V W : Int → Int → Prop} {x x' : Expr} (h : x.Matches V x')
    (hv : ∀ i i', V i i' → W i i') : x.Matches W x' := by
  match x, h with
  | _, .absent => exact .absent
  | _, .num => exact .num
  | .neg _ x, .neg hx => exact .neg (hx.mono hv)
  | .addr _ x, .addr hx => exact .addr (hx.mono hv)
  | .deref _ x, .deref hx => exact .deref (hx.mono hv)
  | .binary _ _ l r, .binary hl hr => exact .binary (hl.mono hv) (hr.mono hv)
  | .assign _ l r, .assign hl hr => exact .assign (hl.mono hv) (hr.mono hv)
  | _, .var same => exact .var (hv _ _ same)
  | .call _ _ args, .call hs => exact .call (monoAll hs hv)

theorem Expr.Matches.monoAll {V W : Int → Int → Prop} {xs xs' : List Expr}
    (h : List.Forall₂ (Expr.Matches V) xs xs') (hv : ∀ i i', V i i' → W i i') :
    List.Forall₂ (Expr.Matches W) xs xs' := by
  match xs, h with
  | _, .nil => exact .nil
  | x :: xs, .cons hx hs => exact .cons (hx.mono hv) (monoAll hs hv)

end

mutual

theorem Stmt.Matches.mono {V W : Int → Int → Prop} {s s' : Stmt} (h : s.Matches V s')
    (hv : ∀ i i', V i i' → W i i') : s.Matches W s' := by
  match s, h with
  | _, .absent => exact .absent
  | .block _ body, .block hs => exact .block (monoAll hs hv)
  | .cond _ _ yes no, .cond hx h₁ h₂ => exact .cond (hx.mono hv) (h₁.mono hv) (h₂.mono hv)
  | .loop _ first _ _ body, .loop hf hc hi hb =>
    exact .loop (hf.mono hv) (hc.mono hv) (hi.mono hv) (hb.mono hv)
  | _, .ret hx => exact .ret (hx.mono hv)
  | _, .expr hx => exact .expr (hx.mono hv)

theorem Stmt.Matches.monoAll {V W : Int → Int → Prop} {ss ss' : List Stmt}
    (h : List.Forall₂ (Stmt.Matches V) ss ss') (hv : ∀ i i', V i i' → W i i') :
    List.Forall₂ (Stmt.Matches W) ss ss' := by
  match ss, h with
  | _, .nil => exact .nil
  | s :: ss, .cons h hs => exact .cons (h.mono hv) (monoAll hs hv)

end

theorem Expr.Matches.isAbsent {V : Int → Int → Prop} {x x' : Expr} (h : x.Matches V x') :
    x.isAbsent = x'.isAbsent := by
  cases h <;> rfl

theorem Stmt.Matches.isAbsent {V : Int → Int → Prop} {s s' : Stmt} (h : s.Matches V s') :
    s.isAbsent = s'.isAbsent := by
  cases h <;> rfl

/-- The functions have the same name and the same statements, with variables taken by name. -/
structure Function.Matches (f f' : Function) : Prop where
  name : f.name = f'.name
  body : ∃ b b', f.body = some b ∧ f'.body = some b' ∧
    List.Forall₂ (Stmt.Matches (Named f.locals f'.locals)) b.stmts b'.stmts

/-- The programs are of the same kind, with the same functions and the same flags. -/
structure Program.Matches (p p' : Program) : Prop where
  topLevel : p.topLevel = p'.topLevel
  funcs : List.Forall₂ Function.Matches p.funcs p'.funcs
  req : p.req = p'.req

end StackC
