import StackC.Grammar.State

/-! Expressions. Four levels of left-associative binary operators stand over the unary ones, and a
single assignment over all of them. -/
namespace StackC.Grammar

/-- The binary operator that a token is on a level, counted from the tightest. The flag asks for
the operands in reverse: `a > b` is read as `b < a`. -/
def operator? : Nat → Token → Option (BinaryOp × Bool)
  | 0, t =>
    if t.is (ascii "*") then some (.mul, false)
    else if t.is (ascii "/") then some (.div, false)
    else none
  | 1, t =>
    if t.is (ascii "+") then some (.add, false)
    else if t.is (ascii "-") then some (.sub, false)
    else none
  | 2, t =>
    if t.is (ascii "<") then some (.lt, false)
    else if t.is (ascii "<=") then some (.le, false)
    else if t.is (ascii ">") then some (.lt, true)
    else if t.is (ascii ">=") then some (.le, true)
    else none
  | 3, t =>
    if t.is (ascii "==") then some (.eq, false)
    else if t.is (ascii "!=") then some (.ne, false)
    else none
  | _, _ => none

def levels : Nat := 4

/-- The unary operator of a token, `+` aside. -/
def unary? (t : Token) : Option (Int → Expr → Expr) :=
  if t.is (ascii "-") then some .neg
  else if t.is (ascii "&") then some .addr
  else if t.is (ascii "*") then some .deref
  else none

def isVariable (i : Nat) : Expr → Bool
  | .var _ j => j == i
  | _ => false

def retype (locals : List Local) (i : Nat) (type : Ty) : List Local :=
  locals.modify i fun v => { v with type }

/-- A variable that was not known before becomes a pointer where it stands behind a `*`. -/
def inferDeref (locals : List Local) (fresh : Option Nat) (e : Expr) : List Local :=
  match fresh, e with
  | some i, .deref _ x => if isVariable i x then retype locals i (.stars 1) else locals
  | _, _ => locals

/-- A variable that was not known before takes the type of what is assigned to it, if that is a
pointer. -/
def inferAssign (locals : List Local) (fresh : Option Nat) (l r : Expr) : List Local :=
  match fresh, r.type? locals with
  | some i, some type => if isVariable i l && type.isPointer then retype locals i type else locals
  | _, _ => locals

/-- What a name read as a variable stands for: its number, the locals, and the number once more if
it is new. -/
def resolve (locals : List Local) (t : Token) : Except Cause (Nat × List Local × Option Nat) :=
  match findLocal? locals t.lit with
  | some i => .ok (i, locals, none)
  | none =>
    if t.lit == scratchName then .error (.reservedLocal t.lit)
    else
      let i := locals.length
      .ok (i, declare locals t.lit .int t.pos, some i)

mutual

/-- A number, a name, a call or an expression in parentheses. -/
def primary (s : State) : Except Halt (Progress s Expr) :=
  match next? s with
  | none => s.halt .expectedExpression
  | some ⟨t, rest, h₁⟩ => do
    let s₁ : State := { rest with fresh := none }
    if t.is (ascii "(") then return (← (← assign s₁).upTo (ascii ")")).after h₁
    else match t.kind with
      | .ident =>
        match accept? (ascii "(") s₁ with
        | some ⟨_, s₂, h₂⟩ =>
          let ⟨args, s₃, h₃⟩ ← arguments s₂
          let call : Progress s₂ Expr := ⟨.call t.pos t.lit args, { s₃ with fresh := none }, h₃⟩
          return (call.after h₂).after h₁
        | none =>
          match resolve s₁.locals t with
          | .error cause => s₁.haltAt t.pos cause
          | .ok (i, locals, fresh) => return ⟨.var t.pos i, { s₁ with locals, fresh }, h₁⟩
      | .num => return ⟨.num t.pos t.val, s₁, h₁⟩
      | _ => s.halt .expectedExpression
termination_by (s.ahead.length, 0)
decreasing_by all_goals grind

def arguments (s : State) : Except Halt (Progress s (List Expr)) :=
  match accept? (ascii ")") s with
  | some ⟨_, s₁, h₁⟩ => .ok ⟨[], s₁, h₁⟩
  | none => do (← argumentList s).upTo (ascii ")")
termination_by (s.ahead.length, 9)
decreasing_by all_goals grind

def argumentList (s : State) : Except Halt (Progress s (List Expr)) := do
  let ⟨x, s₁, h₁⟩ ← assign s
  match accept? (ascii ",") s₁ with
  | some ⟨_, s₂, h₂⟩ =>
    let ⟨xs, s₃, h₃⟩ ← argumentList s₂
    let all : Progress s₂ (List Expr) := ⟨x :: xs, s₃, h₃⟩
    return (all.after h₂).after h₁
  | none => return ⟨[x], s₁, h₁⟩
termination_by (s.ahead.length, 8)
decreasing_by all_goals grind

def unary (s : State) : Except Halt (Progress s Expr) :=
  match next? s with
  | none => primary s
  | some ⟨t, s₁, h₁⟩ => do
    if t.is (ascii "+") then return (← unary s₁).after h₁
    else match unary? t with
      | some node =>
        let ⟨x, s₂, h₂⟩ ← unary s₁
        let e := node t.pos x
        let locals := inferDeref s₂.locals s₂.fresh e
        let whole : Progress s₁ Expr := ⟨e, { s₂ with locals }, h₂⟩
        return whole.after h₁
      | none => primary s
termination_by (s.ahead.length, 1)
decreasing_by all_goals grind

/-- An expression whose binary operators belong to the first `n` levels. -/
def binary (n : Nat) (s : State) : Except Halt (Progress s Expr) :=
  match n with
  | 0 => unary s
  | n + 1 => do
    let ⟨l, s₁, h₁⟩ ← binary n s
    return (← chain n l s₁).after h₁
termination_by (s.ahead.length, n + 2)
decreasing_by all_goals grind

/-- What follows the left operand `l` on a level: operators of that level with operands of the
tighter ones. -/
def chain (level : Nat) (l : Expr) (s : State) : Except Halt (Pause s Expr) :=
  match next? s with
  | none => .ok (.stay l)
  | some ⟨t, s₁, h₁⟩ =>
    match operator? level t with
    | none => .ok (.stay l)
    | some (op, swap) => do
      let ⟨r, s₂, h₂⟩ ← binary level s₁
      let e := if swap then .binary t.pos op r l else .binary t.pos op l r
      let more ← chain level e { s₂ with req := s₂.req.require op }
      return ((more.after h₂).after h₁).pause
termination_by (s.ahead.length, 0)
decreasing_by all_goals grind

/-- A whole expression: an assignment, or one without. -/
def assign (s : State) : Except Halt (Progress s Expr) := do
  let ⟨l, s₁, h₁⟩ ← binary levels s
  match accept? (ascii "=") s₁ with
  | none => return ⟨l, s₁, h₁⟩
  | some ⟨t, s₂, h₂⟩ =>
    let ⟨r, s₃, h₃⟩ ← binary levels s₂
    let locals := inferAssign s₃.locals s₁.fresh l r
    let whole : Progress s₂ Expr := ⟨.assign t.pos l r, { s₃ with locals }, h₃⟩
    return (whole.after h₂).after h₁
termination_by (s.ahead.length, 7)
decreasing_by all_goals grind [levels]

end

end StackC.Grammar
