import StackC.Grammar.Program

/-! Parsing by index. The tokens stay where they are and a cursor moves over them, one function is
being read at a time, and nothing says that the cursor stays inside, that the function exists, or
that a call comes back. -/
namespace StackC

/-- Where a parse is, and what it knows. -/
structure Cursor where
  /-- The number of the next token. -/
  index : Nat
  /-- The locals of the function that is being read, once there is one. -/
  scope : Option (List Local)
  /-- The number of the local that the operand read last has introduced. -/
  created : Option Nat
  req : Requirements

/-- How a parse ends early: with an error, or by using what is not there. -/
inductive Cursor.Stop
  | halt (h : Grammar.Halt)
  | crash

/-- A parse by index. It gives `none` where its calls go deeper than they may. -/
abbrev Walk := StateT Cursor (ExceptT Cursor.Stop Option)

namespace Walk

def crash {α : Type} : Walk α := fun _ => some (.error .crash)

def tooDeep {α : Type} : Walk α := fun _ => none

def fail {α : Type} (offset : Int) (cause : Cause) : Walk α :=
  fun c => some (.error (.halt { error := ⟨cause, offset⟩, req := c.req }))

/-! Locals -/

def locals : Walk (List Local) :=
  fun c => c.scope.elim (some (.error .crash)) fun vars => some (.ok (vars, c))

def cell (i : Int) : Walk Local := do
  match getLocal? (← locals) i with
  | some v => return v
  | none => crash

def setLocals (vars : List Local) : Walk Unit := modify fun c => { c with scope := some vars }

def setCreated (created : Option Nat) : Walk Unit := modify fun c => { c with created }

def require (op : BinaryOp) : Walk Unit := modify fun c => { c with req := c.req.require op }

def typeOf (x : Expr) : Walk Ty := do
  match x.type? (← locals) with
  | some type => return type
  | none => crash

/-- The local that was introduced last becomes a pointer if this is its first dereference. -/
def inferDeref : Expr → Walk Unit
  | .deref _ (.var _ i) => do
    match (← get).created with
    | none => return
    | some k =>
      let _ ← cell i
      if i = k then setLocals (Grammar.retype (← locals) k (.stars 1))
  | _ => return

/-- The local `created` takes the type of what is assigned to it, if that is a pointer. -/
def inferAssign (created : Option Nat) (l r : Expr) : Walk Unit :=
  match l, created with
  | .var _ i, some k => do
    let _ ← cell i
    if i = k then
      let type ← typeOf r
      if type.isPointer then setLocals (Grammar.retype (← locals) k type)
  | _, _ => return

/-- The variable that a name stands for. A new name is declared. -/
def resolve (t : Token) : Walk Expr := do
  let vars ← locals
  match findLocal? vars t.lit with
  | some i => return .var t.pos i
  | none =>
    if t.lit == scratchName then fail t.pos (.reservedLocal t.lit)
    else
      setLocals (declare vars t.lit .int t.pos)
      let _ ← cell vars.length
      setCreated (some vars.length)
      return .var t.pos vars.length

/-! Tokens -/

section

variable (toks : List Token)

def peek : Walk Token := fun c =>
  toks[c.index]?.elim (some (.error .crash)) fun t => some (.ok (t, c))

/-- The next token. An end mark stays the next one. -/
def next : Walk Token := do
  let t ← peek toks
  if t.kind != .eof then modify fun c => { c with index := c.index + 1 }
  return t

/-- Skips the next token if it is this punctuator or keyword. -/
def consume (lit : Bytes) : Walk Bool := do
  if (← peek toks).is lit then
    let _ ← next toks
    return true
  else return false

def expect (lit : Bytes) : Walk Token := do
  let t ← peek toks
  if t.is lit then next toks else fail t.pos (.expected lit)

def identifier : Walk Token := do
  let t ← peek toks
  if t.kind == .ident then next toks else fail t.pos .expectedIdentifier

/-- Skips a run of stars. The type has one more pointer for each. -/
def pointers : Nat → Ty → Walk Ty
  | 0, _ => tooDeep
  | depth + 1, base => do
    if ← consume toks (ascii "*") then pointers depth base.ptr else return base

/-! Expressions. The first argument is how deep calls may go. -/

def parenExpr (inner : Walk Expr) : Walk Expr := do
  let _ ← expect toks (ascii "(")
  let x ← inner
  let _ ← expect toks (ascii ")")
  return x

mutual

def primary : Nat → Walk Expr
  | 0 => tooDeep
  | depth + 1 => do
    setCreated none
    let t ← peek toks
    if t.is (ascii "(") then parenExpr toks (assign depth)
    else match t.kind with
      | .ident =>
        let _ ← next toks
        if ← consume toks (ascii "(") then call depth t else resolve t
      | .num =>
        let _ ← next toks
        return .num t.pos t.val
      | _ => fail t.pos .expectedExpression

def call : Nat → Token → Walk Expr
  | 0, _ => tooDeep
  | depth + 1, name => do
    if ← consume toks (ascii ")") then return .call name.pos name.lit []
    else
      let args ← argumentList depth
      let _ ← expect toks (ascii ")")
      setCreated none
      return .call name.pos name.lit args

def argumentList : Nat → Walk (List Expr)
  | 0 => tooDeep
  | depth + 1 => do
    let x ← assign depth
    if ← consume toks (ascii ",") then
      let xs ← argumentList depth
      return x :: xs
    else return [x]

def unary : Nat → Walk Expr
  | 0 => tooDeep
  | depth + 1 => do
    let t ← peek toks
    if t.is (ascii "+") then
      let _ ← next toks
      unary depth
    else match Grammar.unary? t with
      | some node =>
        let _ ← next toks
        let x ← unary depth
        inferDeref (node t.pos x)
        return node t.pos x
      | none => primary depth

def binary : Nat → Nat → Walk Expr
  | 0, _ => tooDeep
  | depth + 1, 0 => unary depth
  | depth + 1, n + 1 => do
    let l ← binary depth n
    chain depth n l

def chain : Nat → Nat → Expr → Walk Expr
  | 0, _, _ => tooDeep
  | depth + 1, level, l => do
    let t ← peek toks
    match Grammar.operator? level t with
    | none => return l
    | some (op, swap) =>
      let _ ← next toks
      let r ← binary depth level
      require op
      chain depth level (if swap then .binary t.pos op r l else .binary t.pos op l r)

def assign : Nat → Walk Expr
  | 0 => tooDeep
  | depth + 1 => do
    let l ← binary depth Grammar.levels
    let created := (← get).created
    let t ← peek toks
    if ← consume toks (ascii "=") then
      let r ← binary depth Grammar.levels
      inferAssign created l r
      return .assign t.pos l r
    else return l

end

/-! Declarations and statements -/

def initialValue (depth : Nat) (name : Token) (i : Nat) : Walk (List Stmt) := do
  let t ← peek toks
  if ← consume toks (ascii "=") then
    let x ← assign toks depth
    return [.expr name.pos (.assign t.pos (.var name.pos i) x)]
  else return []

def declarator (depth : Nat) : Walk (List Stmt) := do
  let type ← pointers toks depth .int
  let name ← identifier toks
  let vars ← locals
  if (findLocal? vars name.lit).isSome then fail name.pos (.redefinedLocal name.lit)
  else if name.lit == scratchName then fail name.pos (.reservedLocal name.lit)
  else
    setLocals (declare vars name.lit type name.pos)
    initialValue toks depth name vars.length

def declarators : Nat → Walk (List Stmt)
  | 0 => tooDeep
  | depth + 1 => do
    let first ← declarator toks depth
    if ← consume toks (ascii ",") then
      let more ← declarators depth
      return first ++ more
    else
      let _ ← expect toks (ascii ";")
      return first

def exprStmt (depth : Nat) : Walk Stmt := do
  let t ← peek toks
  let x ← assign toks depth
  let _ ← expect toks (ascii ";")
  return .expr t.pos x

/-- An expression that may be left out before the token that ends it. -/
def optionalExpr (depth : Nat) (close : Bytes) : Walk Expr := do
  if (← peek toks).is close then
    let _ ← expect toks close
    return .absent
  else
    let x ← assign toks depth
    let _ ← expect toks close
    return x

def firstStep (depth : Nat) : Walk Stmt := do
  if ← consume toks (ascii ";") then return .absent else exprStmt toks depth

def forHead (depth : Nat) : Walk (Stmt × Expr × Expr) := do
  let _ ← expect toks (ascii "(")
  let first ← firstStep toks depth
  let test ← optionalExpr toks depth (ascii ";")
  let step ← optionalExpr toks depth (ascii ")")
  return (first, test, step)

mutual

def stmt : Nat → Walk Stmt
  | 0 => tooDeep
  | depth + 1 => do
    let t ← peek toks
    if t.is (ascii "return") then
      let _ ← next toks
      let x ← assign toks depth
      let _ ← expect toks (ascii ";")
      return .ret t.pos x
    else if t.is (ascii "if") then
      let _ ← next toks
      let test ← parenExpr toks (assign toks depth)
      let yes ← stmt depth
      let no ← otherwise depth
      return .cond t.pos test yes no
    else if t.is (ascii "for") then
      let _ ← next toks
      let (first, test, step) ← forHead toks depth
      let body ← stmt depth
      return .loop t.pos first test step body
    else if t.is (ascii "while") then
      let _ ← next toks
      let test ← parenExpr toks (assign toks depth)
      let body ← stmt depth
      return .loop t.pos .absent test .absent body
    else if t.is (ascii "\x7b") then
      let _ ← next toks
      let body ← block depth
      return .block t.pos body
    else if t.is (ascii ";") then
      let _ ← next toks
      return .block t.pos []
    else exprStmt toks depth

def otherwise : Nat → Walk Stmt
  | 0 => tooDeep
  | depth + 1 => do
    if ← consume toks (ascii "else") then stmt depth else return .absent

def block : Nat → Walk (List Stmt)
  | 0 => tooDeep
  | depth + 1 => do
    if ← consume toks (ascii "\x7d") then return []
    else
      let t ← peek toks
      if t.kind == .eof then fail t.pos (.expected (ascii "\x7d"))
      else if t.is (ascii "int") then
        let _ ← next toks
        let inits ← declarators toks depth
        let xs ← block depth
        return .block t.pos inits :: xs
      else
        let x ← stmt depth
        let xs ← block depth
        return x :: xs

end

/-! Programs -/

def function (depth : Nat) : Walk Function := do
  let t ← peek toks
  if t.is (ascii "int") then
    let _ ← next toks
    let returnType ← pointers toks depth .int
    let name ← identifier toks
    setLocals []
    let _ ← expect toks (ascii "(")
    let _ ← expect toks (ascii ")")
    let brace ← expect toks (ascii "\x7b")
    let stmts ← block toks depth
    let vars ← locals
    return {
      name := name.lit, returnType, pos := name.pos, locals := vars,
      body := some { pos := brace.pos, stmts } }
  else fail t.pos .expectedFunction

/-- The functions up to an end mark, behind those already `known`. -/
def functions : Nat → List Function → Walk (List Function)
  | 0, _ => tooDeep
  | depth + 1, known => do
    let t ← peek toks
    if t.kind == .eof then return known
    else
      let f ← function toks depth
      if (findFunction? known f.name).isSome then fail f.pos (.redefinedFunction f.name)
      else functions depth (known ++ [f])

/-- The block of a program without functions. -/
def topLevel (depth : Nat) : Walk Function := do
  let t ← peek toks
  setLocals []
  let brace ← next toks
  let stmts ← block toks depth
  let vars ← locals
  return { name := [], pos := t.pos, locals := vars, body := some { pos := brace.pos, stmts } }

/-- A program with these functions, behind which an end mark has to stand. -/
def finish (topLevel : Bool) (funcs : List Function) : Walk Program := do
  let t ← peek toks
  if t.kind != .eof then fail t.pos .extraToken
  else return { topLevel, funcs, req := (← get).req }

def program (depth : Nat) : Walk Program := do
  if (← peek toks).is (ascii "\x7b") then
    let f ← topLevel toks depth
    finish toks true [f]
  else
    let funcs ← functions toks depth []
    finish toks false funcs

end

end Walk

def Token.lastEnd (toks : List Token) : Int :=
  toks.getLast?.elim 0 fun t => (t.pos + t.lit.length).bmod Grammar.wordCount

/-- The tokens with an end mark behind them, if they have none there. -/
def Token.terminated (toks : List Token) : List Token :=
  if toks.getLast?.any (·.kind == .eof) then toks else toks ++ [.eof (lastEnd toks)]

/-- A parse by index of a whole token list. Without flags to begin with, none are set. -/
def Walk.parse (depth : Nat) (toks : List Token) (req : Option Requirements) :
    Option (Except Cursor.Stop Program) :=
  Option.map (Except.map Prod.fst) (program (Token.terminated toks) depth
    { index := 0, scope := none, created := none, req := req.getD {} })

end StackC
