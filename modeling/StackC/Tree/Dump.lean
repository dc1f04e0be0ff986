import StackC.Tree.Basic

/-! Trees as s-expressions. There is no text for a tree that reaches a local or a body that does
not exist. -/
namespace StackC

/-- The end of a list: each item behind a space, and the closing parenthesis. -/
def formTail : List Bytes → Bytes
  | [] => ascii ")"
  | t :: ts => byte ' ' :: (t ++ formTail ts)

/-- The text of a list with a symbol at its head. -/
def form (head : String) (items : List Bytes) : Bytes :=
  byte '(' :: (ascii head ++ formTail items)

/-- A name between double quotes, as it is. -/
def named (name : Bytes) : Bytes := Text.quoteMark :: (name ++ [Text.quoteMark])

def Ty.dump : Ty → Bytes
  | .int => ascii "int"
  | .ptr base => form "ptr" [base.dump]

mutual

def Expr.dump? (locals : List Local) : Expr → Option Bytes
  | .absent => some (ascii "nil")
  | .num _ n => some (form "integer" [Text.decimal n])
  | .var _ i => do
    let v ← getLocal? locals i
    return form "var" [named v.name]
  | .neg _ x => do return form "neg" [← x.dump? locals]
  | .addr _ x => do return form "addr" [← x.dump? locals]
  | .deref _ x => do return form "deref" [← x.dump? locals]
  | .binary _ op l r => do return form "binary" [named op.text, ← l.dump? locals, ← r.dump? locals]
  | .assign _ l r => do return form "assign" [← l.dump? locals, ← r.dump? locals]
  | .call _ name args => do return form "call" (named name :: (← Expr.dumpAll? locals args))

def Expr.dumpAll? (locals : List Local) : List Expr → Option (List Bytes)
  | [] => some []
  | x :: xs => do return (← x.dump? locals) :: (← Expr.dumpAll? locals xs)

end

mutual

def Stmt.dump? (locals : List Local) : Stmt → Option Bytes
  | .absent => some (ascii "nil")
  | .block _ body => do return form "block" (← Stmt.dumpAll? locals body)
  | .cond _ test yes no => do
    let test ← test.dump? locals
    let yes ← yes.dump? locals
    let no ← if no.isAbsent then some [] else (no.dump? locals).map ([·])
    return form "if" (test :: yes :: no)
  | .loop _ first test step body => do
    let first ← first.dump? locals
    let test ← test.dump? locals
    let step ← step.dump? locals
    let body ← body.dump? locals
    return form "for" [first, test, step, body]
  | .ret _ x => do return form "return" [← x.dump? locals]
  | .expr _ x => do return form "expr" [← x.dump? locals]

def Stmt.dumpAll? (locals : List Local) : List Stmt → Option (List Bytes)
  | [] => some []
  | s :: ss => do return (← s.dump? locals) :: (← Stmt.dumpAll? locals ss)

end

def Local.dump (v : Local) : Bytes := form "local" [named v.name, v.type.dump]

def Function.dumpParts? (f : Function) : Option (List Bytes) := do
  let b ← f.body
  let stmts ← Stmt.dumpAll? f.locals b.stmts
  return [form "locals" (f.locals.map Local.dump), form "block" stmts]

def Function.dump? (f : Function) : Option Bytes := do
  return form "func" (named f.name :: f.returnType.dump :: (← f.dumpParts?))

/-- A program of one block shows that block; any other shows its functions. -/
def Program.dump? (p : Program) : Option Bytes :=
  match p.topLevel, p.funcs with
  | true, [f] => f.dumpParts?.map (form "program")
  | _, funcs => (funcs.mapM Function.dump?).map (form "program")

end StackC
