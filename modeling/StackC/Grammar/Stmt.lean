import StackC.Grammar.Expr

/-! Declarations and statements. -/
namespace StackC.Grammar

def initialValue (name : Token) (i : Nat) (s : State) : Except Halt (Pause s (List Stmt)) :=
  match accept? (ascii "=") s with
  | none => .ok (.stay [])
  | some ⟨t, s₁, h₁⟩ => do
    let ⟨x, s₂, h₂⟩ ← assign s₁
    let init := Stmt.expr name.pos (.assign t.pos (.var name.pos i) x)
    let whole : Progress s₁ (List Stmt) := ⟨[init], s₂, h₂⟩
    return (whole.after h₁).pause

/-- A new local with its type, and its initial value if it has one. -/
def declarator (s : State) : Except Halt (Progress s (List Stmt)) := do
  let stars := pointers s
  let ⟨name, s₁, h₁⟩ ← identifier stars.state
  if (findLocal? s₁.locals name.lit).isSome then
    s₁.haltAt name.pos (.redefinedLocal name.lit)
  else if name.lit == scratchName then
    s₁.haltAt name.pos (.reservedLocal name.lit)
  else
    let i := s₁.locals.length
    let locals := declare s₁.locals name.lit stars.value name.pos
    let inits ← initialValue name i { s₁ with locals }
    return stars.before (inits.after h₁)

def declarators (s : State) : Except Halt (Progress s (List Stmt)) := do
  let first ← declarator s
  match accept? (ascii ",") first.state with
  | some ⟨_, s₂, h₂⟩ =>
    let ⟨more, s₃, h₃⟩ ← declarators s₂
    let all : Progress s₂ (List Stmt) := ⟨first.value ++ more, s₃, h₃⟩
    return (all.after h₂).after first.shorter
  | none => first.upTo (ascii ";")
termination_by s.ahead.length
decreasing_by exact Nat.lt_trans h₂ first.shorter

def exprStmt (s : State) : Except Halt (Progress s Stmt) := do
  let ⟨x, s₁, h₁⟩ ← (← assign s).upTo (ascii ";")
  return ⟨.expr s.pos x, s₁, h₁⟩

def parenExpr (s : State) : Except Halt (Progress s Expr) := do
  let ⟨_, s₁, h₁⟩ ← expect (ascii "(") s
  return (← (← assign s₁).upTo (ascii ")")).after h₁

/-- An expression that may be left out, and the token that ends it. -/
def optionalExpr (close : Bytes) (s : State) : Except Halt (Progress s Expr) :=
  match accept? close s with
  | some ⟨_, s₁, h₁⟩ => .ok ⟨.absent, s₁, h₁⟩
  | none => do (← assign s).upTo close

def firstStep (s : State) : Except Halt (Progress s Stmt) :=
  match accept? (ascii ";") s with
  | some ⟨_, s₁, h₁⟩ => .ok ⟨.absent, s₁, h₁⟩
  | none => exprStmt s

/-- The head of a `for` loop: first step, test and step, each of which may be left out. -/
def forHead (s : State) : Except Halt (Progress s (Stmt × Expr × Expr)) := do
  let ⟨_, s₁, h₁⟩ ← expect (ascii "(") s
  let ⟨first, s₂, h₂⟩ ← firstStep s₁
  let ⟨test, s₃, h₃⟩ ← optionalExpr (ascii ";") s₂
  let ⟨step, s₄, h₄⟩ ← optionalExpr (ascii ")") s₃
  let head : Progress s₃ (Stmt × Expr × Expr) := ⟨(first, test, step), s₄, h₄⟩
  return ((head.after h₃).after h₂).after h₁

mutual

def stmt (s : State) : Except Halt (Progress s Stmt) :=
  match next? s with
  | none => exprStmt s
  | some ⟨t, s₁, h₁⟩ => do
    if t.is (ascii "return") then
      let ⟨x, s₂, h₂⟩ ← (← assign s₁).upTo (ascii ";")
      let whole : Progress s₁ Stmt := ⟨.ret t.pos x, s₂, h₂⟩
      return whole.after h₁
    else if t.is (ascii "if") then
      let ⟨test, s₂, h₂⟩ ← parenExpr s₁
      let ⟨yes, s₃, h₃⟩ ← stmt s₂
      let ⟨no, s₄, h₄⟩ ← otherwise s₃
      let whole : Pause s₃ Stmt := ⟨.cond t.pos test yes no, s₄, h₄⟩
      return ((whole.after h₃).after h₂).after h₁
    else if t.is (ascii "for") then
      let ⟨(first, test, step), s₂, h₂⟩ ← forHead s₁
      let ⟨body, s₃, h₃⟩ ← stmt s₂
      let whole : Progress s₂ Stmt := ⟨.loop t.pos first test step body, s₃, h₃⟩
      return (whole.after h₂).after h₁
    else if t.is (ascii "while") then
      let ⟨test, s₂, h₂⟩ ← parenExpr s₁
      let ⟨body, s₃, h₃⟩ ← stmt s₂
      let whole : Progress s₂ Stmt := ⟨.loop t.pos .absent test .absent body, s₃, h₃⟩
      return (whole.after h₂).after h₁
    else if t.is (ascii "\x7b") then
      let ⟨body, s₂, h₂⟩ ← block s₁
      let whole : Progress s₁ Stmt := ⟨.block t.pos body, s₂, h₂⟩
      return whole.after h₁
    else if t.is (ascii ";") then return ⟨.block t.pos [], s₁, h₁⟩
    else exprStmt s
termination_by (s.ahead.length, 0)
decreasing_by all_goals grind

/-- The second branch of a conditional, if it has one. -/
def otherwise (s : State) : Except Halt (Pause s Stmt) :=
  match accept? (ascii "else") s with
  | some ⟨_, s₁, h₁⟩ => do return ((← stmt s₁).after h₁).pause
  | none => .ok (.stay .absent)
termination_by (s.ahead.length, 1)
decreasing_by all_goals grind

/-- Declarations and statements up to a closing brace. -/
def block (s : State) : Except Halt (Progress s (List Stmt)) :=
  match next? s with
  | none => s.halt (.expected (ascii "\x7d"))
  | some ⟨t, s₁, h₁⟩ => do
    if t.is (ascii "\x7d") then return ⟨[], s₁, h₁⟩
    else if t.is (ascii "int") then
      let ⟨inits, s₂, h₂⟩ ← declarators s₁
      let ⟨body, s₃, h₃⟩ ← block s₂
      let whole : Progress s₂ (List Stmt) := ⟨.block t.pos inits :: body, s₃, h₃⟩
      return (whole.after h₂).after h₁
    else
      let ⟨x, s₂, h₂⟩ ← stmt s
      let ⟨body, s₃, h₃⟩ ← block s₂
      let whole : Progress s₂ (List Stmt) := ⟨x :: body, s₃, h₃⟩
      return whole.after h₂
termination_by (s.ahead.length, 1)
decreasing_by all_goals grind

end

end StackC.Grammar
