import StackC.Proofs.Tree.Operators
import StackC.Tree.Dump
import StackC.Tree.Typing

/-! Programs with other offsets and other flags. No name, type or text depends on either. -/
namespace StackC

/-- A change of offsets and flags. No offset stays none. -/
structure Recast where
  pos : Int → Int
  req : Requirements → Requirements
  pos_noOffset : pos SourceError.noOffset = SourceError.noOffset

namespace Recast

def token (m : Recast) (t : Token) : Token := { t with pos := m.pos t.pos }

def vars (m : Recast) (locals : List Local) : List Local :=
  locals.map fun v => { v with pos := m.pos v.pos }

mutual

def expr (m : Recast) : Expr → Expr
  | .absent => .absent
  | .num pos n => .num (m.pos pos) n
  | .neg pos x => .neg (m.pos pos) (expr m x)
  | .addr pos x => .addr (m.pos pos) (expr m x)
  | .deref pos x => .deref (m.pos pos) (expr m x)
  | .binary pos op l r => .binary (m.pos pos) op (expr m l) (expr m r)
  | .assign pos l r => .assign (m.pos pos) (expr m l) (expr m r)
  | .var pos i => .var (m.pos pos) i
  | .call pos name args => .call (m.pos pos) name (exprs m args)

def exprs (m : Recast) : List Expr → List Expr
  | [] => []
  | x :: xs => expr m x :: exprs m xs

end

mutual

def stmt (m : Recast) : Stmt → Stmt
  | .absent => .absent
  | .block pos body => .block (m.pos pos) (stmts m body)
  | .cond pos test yes no => .cond (m.pos pos) (m.expr test) (stmt m yes) (stmt m no)
  | .loop pos first test step body =>
    .loop (m.pos pos) (stmt m first) (m.expr test) (m.expr step) (stmt m body)
  | .ret pos x => .ret (m.pos pos) (m.expr x)
  | .expr pos x => .expr (m.pos pos) (m.expr x)

def stmts (m : Recast) : List Stmt → List Stmt
  | [] => []
  | x :: xs => stmt m x :: stmts m xs

end

def body (m : Recast) (b : Body) : Body := { pos := m.pos b.pos, stmts := m.stmts b.stmts }

def function (m : Recast) (f : Function) : Function :=
  { f with pos := m.pos f.pos, locals := m.vars f.locals, body := f.body.map m.body }

def program (m : Recast) (p : Program) : Program :=
  { p with funcs := p.funcs.map m.function, req := m.req p.req }

def error (m : Recast) (e : SourceError) : SourceError := { e with offset := m.pos e.offset }

def failure (m : Recast) : Failure → Failure
  | .source e => .source (m.error e)
  | .malformedTree => .malformedTree

variable (m : Recast)

@[simp] theorem token_is (t : Token) (lit : Bytes) : (m.token t).is lit = t.is lit := rfl

@[simp] theorem length_vars (locals : List Local) :
    (m.vars locals).length = locals.length := List.length_map _

theorem vars_declare (locals : List Local) (name : Bytes) (type : Ty) (pos : Int) :
    m.vars (declare locals name type pos) =
      declare (m.vars locals) name type (m.pos pos) := by
  simp [vars, declare]

theorem findLocal?_vars (locals : List Local) (name : Bytes) :
    findLocal? (m.vars locals) name = findLocal? locals name := by
  unfold findLocal? vars
  rw [List.findIdx?_map]
  rfl

theorem getLocal?_vars (locals : List Local) (i : Int) :
    getLocal? (m.vars locals) i =
      (getLocal? locals i).map fun v => { v with pos := m.pos v.pos } := by
  cases i with
  | ofNat i => exact List.getElem?_map
  | negSucc i => rfl

theorem findFunction?_map (fs : List Function) (name : Bytes) :
    (findFunction? (fs.map m.function) name).isSome = (findFunction? fs name).isSome := by
  unfold findFunction?
  rw [List.find?_map, Option.isSome_map]
  rfl

@[simp] theorem isAbsent_expr (x : Expr) : (m.expr x).isAbsent = x.isAbsent := by
  cases x <;> rfl

@[simp] theorem isAbsent_stmt (x : Stmt) : (m.stmt x).isAbsent = x.isAbsent := by
  cases x <;> rfl

theorem stmts_append (xs ys : List Stmt) : m.stmts (xs ++ ys) = m.stmts xs ++ m.stmts ys := by
  induction xs with
  | nil => rfl
  | cons x xs ih => rw [List.cons_append, stmts, stmts, ih, List.cons_append]

theorem type?_expr (locals : List Local) (x : Expr) :
    (m.expr x).type? (m.vars locals) = x.type? locals := by
  induction x using Expr.type?.induct with
  | case1 pos i =>
    rw [expr, Expr.type?, Expr.type?, getLocal?_vars, Option.map_map]
    rfl
  | case2 pos x ih => rw [expr, Expr.type?, Expr.type?, ih]
  | case3 pos x ih => rw [expr, Expr.type?, Expr.type?, ih]
  | case4 pos l r ih => rw [expr, Expr.type?, Expr.type?, ih]
  | case5 pos l r ih₁ ih₂ => rw [expr, Expr.type?, Expr.type?, ih₁, ih₂]
  | case6 pos l r ih₁ ih₂ => rw [expr, Expr.type?, Expr.type?, ih₁, ih₂]
  | case7 x h₁ h₂ h₃ h₄ h₅ h₆ =>
    cases x with
    | var pos i => exact absurd rfl (h₁ pos i)
    | addr pos x => exact absurd rfl (h₂ pos x)
    | deref pos x => exact absurd rfl (h₃ pos x)
    | assign pos l r => exact absurd rfl (h₄ pos l r)
    | binary pos op l r =>
      cases op with
      | add => exact absurd rfl (h₅ pos l r)
      | sub => exact absurd rfl (h₆ pos l r)
      | _ => rfl
    | _ => rfl

/-! The nodes and the text of a tree -/

theorem exprs_append (xs ys : List Expr) : m.exprs (xs ++ ys) = m.exprs xs ++ m.exprs ys := by
  induction xs with
  | nil => rfl
  | cons x xs ih => rw [List.cons_append, exprs, exprs, ih, List.cons_append]

mutual

theorem nodes_expr (x : Expr) : (m.expr x).nodes = m.exprs x.nodes := by
  cases x with
  | absent | num | var => rfl
  | neg pos x | addr pos x | deref pos x =>
    rw [expr, Expr.nodes, Expr.nodes, nodes_expr x, exprs, expr]
  | binary pos op l r | assign pos l r =>
    rw [expr, Expr.nodes, Expr.nodes, nodes_expr l, nodes_expr r, exprs, exprs_append, expr]
  | call pos name args => rw [expr, Expr.nodes, Expr.nodes, allNodes_exprs args, exprs, expr]

theorem allNodes_exprs (xs : List Expr) :
    Expr.allNodes (m.exprs xs) = m.exprs (Expr.allNodes xs) := by
  cases xs with
  | nil => rfl
  | cons x xs =>
    rw [exprs, Expr.allNodes, Expr.allNodes, nodes_expr x, allNodes_exprs xs, exprs_append]

end

mutual

theorem nodes_stmt (x : Stmt) : (m.stmt x).nodes = m.exprs x.nodes := by
  cases x with
  | absent => rfl
  | block pos body => exact allNodes_stmts body
  | cond pos test yes no =>
    simp only [stmt, Stmt.nodes, nodes_expr, nodes_stmt yes, nodes_stmt no, exprs_append]
  | loop pos first test step body =>
    simp only [stmt, Stmt.nodes, nodes_expr, nodes_stmt first, nodes_stmt body, exprs_append]
  | ret pos x | expr pos x => exact m.nodes_expr x

theorem allNodes_stmts (xs : List Stmt) :
    Stmt.allNodes (m.stmts xs) = m.exprs (Stmt.allNodes xs) := by
  cases xs with
  | nil => rfl
  | cons x xs =>
    rw [stmts, Stmt.allNodes, Stmt.allNodes, nodes_stmt x, allNodes_stmts xs, exprs_append]

end

private theorem nodes_program (p : Program) : (m.program p).nodes = m.exprs p.nodes := by
  unfold Program.nodes program
  induction p.funcs with
  | nil => rfl
  | cons f fs ih =>
    have hf : (m.function f).nodes = m.exprs f.nodes := by
      unfold Function.nodes function
      cases f.body with
      | none => rfl
      | some b => exact m.allNodes_stmts b.stmts
    rw [List.flatMap_cons, exprs_append, ← hf, ← ih]
    rfl

private theorem exprs_eq_map (xs : List Expr) : m.exprs xs = xs.map m.expr := by
  induction xs with
  | nil => rfl
  | cons x xs ih => rw [exprs, ih, List.map_cons]

private theorem uses_exprs {op : BinaryOp} {xs : List Expr} :
    Expr.Uses op (m.exprs xs) ↔ Expr.Uses op xs := by
  rw [exprs_eq_map]
  constructor
  · rintro ⟨pos, l, r, h⟩
    obtain ⟨y, hy, he⟩ := List.mem_map.mp h
    cases y with
    | binary pos' op' l' r' =>
      cases he
      exact ⟨pos', l', r', hy⟩
    | _ => cases he
  · rintro ⟨pos, l, r, h⟩
    exact ⟨m.pos pos, m.expr l, m.expr r, List.mem_map_of_mem h⟩

/-- The same operators are used with other offsets. -/
theorem uses_program {op : BinaryOp} (p : Program) : (m.program p).Uses op ↔ p.Uses op := by
  unfold Program.Uses
  rw [nodes_program, uses_exprs]

mutual

theorem dump?_expr (locals : List Local) (x : Expr) :
    (m.expr x).dump? (m.vars locals) = x.dump? locals := by
  cases x with
  | absent | num => rfl
  | neg pos x | addr pos x | deref pos x =>
    rw [expr, Expr.dump?, Expr.dump?, dump?_expr locals x]
  | binary pos op l r | assign pos l r =>
    rw [expr, Expr.dump?, Expr.dump?, dump?_expr locals l, dump?_expr locals r]
  | var pos i =>
    rw [expr, Expr.dump?, Expr.dump?, getLocal?_vars]
    cases getLocal? locals i <;> rfl
  | call pos name args => rw [expr, Expr.dump?, Expr.dump?, dumpAll?_exprs locals args]

theorem dumpAll?_exprs (locals : List Local) (xs : List Expr) :
    Expr.dumpAll? (m.vars locals) (m.exprs xs) = Expr.dumpAll? locals xs := by
  cases xs with
  | nil => rfl
  | cons x xs =>
    rw [exprs, Expr.dumpAll?, Expr.dumpAll?, dump?_expr locals x, dumpAll?_exprs locals xs]

end

mutual

theorem dump?_stmt (locals : List Local) (x : Stmt) :
    (m.stmt x).dump? (m.vars locals) = x.dump? locals := by
  cases x with
  | absent => rfl
  | block pos body => rw [stmt, Stmt.dump?, Stmt.dump?, dumpAll?_stmts locals body]
  | cond pos test yes no =>
    rw [stmt, Stmt.dump?, Stmt.dump?, dump?_expr, dump?_stmt locals yes, dump?_stmt locals no,
      isAbsent_stmt]
  | loop pos first test step body =>
    rw [stmt, Stmt.dump?, Stmt.dump?, dump?_stmt locals first, dump?_expr, dump?_expr,
      dump?_stmt locals body]
  | ret pos x | expr pos x => rw [stmt, Stmt.dump?, Stmt.dump?, dump?_expr]

theorem dumpAll?_stmts (locals : List Local) (xs : List Stmt) :
    Stmt.dumpAll? (m.vars locals) (m.stmts xs) = Stmt.dumpAll? locals xs := by
  cases xs with
  | nil => rfl
  | cons x xs =>
    rw [stmts, Stmt.dumpAll?, Stmt.dumpAll?, dump?_stmt locals x, dumpAll?_stmts locals xs]

end

theorem dumpParts?_function (f : Function) : (m.function f).dumpParts? = f.dumpParts? := by
  unfold Function.dumpParts? function
  cases f.body with
  | none => rfl
  | some b =>
    have hl : (m.vars f.locals).map Local.dump = f.locals.map Local.dump := by
      unfold vars
      rw [List.map_map]
      rfl
    simp only [Option.map_some, Option.bind_eq_bind, Option.bind_some, body, dumpAll?_stmts, hl]

/-- A tree has the same text with other offsets and flags. -/
theorem dump?_program (p : Program) : (m.program p).dump? = p.dump? := by
  have hf : ∀ f, (m.function f).dump? = f.dump? := by
    intro f
    unfold Function.dump?
    rw [dumpParts?_function]
    rfl
  have hfs : (p.funcs.map m.function).mapM Function.dump? = p.funcs.mapM Function.dump? := by
    induction p.funcs with
    | nil => rfl
    | cons f fs ih => rw [List.map_cons, List.mapM_cons, List.mapM_cons, hf, ih]
  unfold Program.dump? program
  rcases p.topLevel with _ | _
  · exact congrArg (Option.map (form "program")) hfs
  · rcases hp : p.funcs with _ | ⟨f, _ | ⟨g, fs⟩⟩
    · rfl
    · simp only [List.map_cons, List.map_nil, dumpParts?_function]
    · rw [hp] at hfs
      exact congrArg (Option.map (form "program")) hfs

end Recast

end StackC
