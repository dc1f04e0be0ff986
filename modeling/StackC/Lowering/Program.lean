import StackC.Lowering.Stmt

/-! Code for whole programs. -/
namespace StackC.Lowering

open Asm (Instr)

def routines (req : Requirements) : List Instr :=
  (Asm.Routine.all.filter fun r => req.needs r.op).flatMap Asm.Routine.code

/-- The code of a function body, between its two labels. -/
def body (req : Requirements) (entry exit : Bytes) (n : Nat) (f : Function) :
    Except Failure Numbered :=
  match f.body with
  | none => .error .malformedTree
  | some b => do
    let (code, n) ← statements { locals := f.locals, req, exit } n b.stmts
    return (.label entry :: code ++ [.label exit], n)

def exitLabel (name : Bytes) : Bytes := ascii "l.return." ++ name

def functions (req : Requirements) (n : Nat) : List Function → Except Failure (List Instr)
  | [] => .ok []
  | f :: fs => do
    let (code, n) ← body req f.name (exitLabel f.name) n f
    return code ++ [.ret] ++ (← functions req n fs)

def mainName : Bytes := ascii "main"

def checkNames (funcs : List Function) : Except Failure Unit :=
  match funcs.find? fun f => Asm.isReserved f.name with
  | some f => fail (.reservedLabel f.name) f.pos
  | none =>
    if (findFunction? funcs mainName).isSome then .ok () else fail .noMain SourceError.noOffset

/-- The code of a program: a jump over the routines and functions, and the main part. The value
that is left at the end is shown. -/
def program (p : Program) : Except Failure (List Instr) := do
  let start := .jump Asm.startLabel :: routines p.req
  if p.topLevel then
    match p.funcs with
    | [] => .error .malformedTree
    | f :: _ =>
      let (code, _) ← body p.req Asm.startLabel (ascii "l.return") 0 f
      return start ++ code ++ [.display, .halt]
  else
    checkNames p.funcs
    let code ← functions p.req 0 p.funcs
    return start ++ code ++ [.label Asm.startLabel, .call mainName, .display, .halt]

end StackC.Lowering
