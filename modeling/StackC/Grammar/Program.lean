import StackC.Grammar.Stmt

/-! Whole programs: a single block, or a list of functions. -/
namespace StackC.Grammar

/-- A function without parameters. Its locals are its own. -/
def function (s : State) : Except Halt (Progress s Function) :=
  match accept? (ascii "int") s with
  | none => s.halt .expectedFunction
  | some ⟨_, s₁, h₁⟩ => do
    let stars := pointers s₁
    let ⟨name, s₂, h₂⟩ ← identifier stars.state
    let ⟨_, s₃, h₃⟩ ← expect (ascii "(") s₂
    let ⟨_, s₄, h₄⟩ ← expect (ascii ")") s₃
    let ⟨brace, s₅, h₅⟩ ← expect (ascii "\x7b") s₄
    let ⟨stmts, s₆, h₆⟩ ← block { s₅ with locals := [] }
    let f : Function := {
      name := name.lit, returnType := stars.value, pos := name.pos, locals := s₆.locals,
      body := some { pos := brace.pos, stmts } }
    let whole : Progress s₅ Function := ⟨f, s₆, h₆⟩
    return (stars.before ((((whole.after h₅).after h₄).after h₃).after h₂)).after h₁

/-- The functions up to the end, behind those already `known`. -/
def functions (known : List Function) (s : State) : Except Halt Program :=
  if s.ahead.isEmpty then .ok { topLevel := false, funcs := known, req := s.req }
  else do
    let ⟨f, s₁, _⟩ ← function s
    if (findFunction? known f.name).isSome then s₁.haltAt f.pos (.redefinedFunction f.name)
    else functions (known ++ [f]) s₁
termination_by s.ahead.length

/-- A program of one block. Nothing may follow it. -/
def topLevel (brace : Token) (s : State) : Except Halt Program := do
  let ⟨stmts, s₁, _⟩ ← block s
  if s₁.ahead.isEmpty then
    let f : Function := {
      name := [], pos := brace.pos, locals := s₁.locals,
      body := some { pos := brace.pos, stmts } }
    return { topLevel := true, funcs := [f], req := s₁.req }
  else s₁.halt .extraToken

def wordCount : Nat := 18446744073709551616

/-- The offset of the end of a token list: that of its first end mark, or else the end of its last
token. Offsets are 64-bit words. -/
def endOffset (toks : List Token) : Int :=
  match toks.find? (·.kind == .eof), toks.getLast? with
  | some t, _ => t.pos
  | none, some t => (t.pos + t.lit.length).bmod wordCount
  | none, none => 0

/-- The program that a token list spells. Nothing behind the first end mark is read. The flags in
`req` stay set, and those of the operators read are added. -/
def parse (toks : List Token) (req : Requirements) : Except Halt Program :=
  let s : State := { ahead := Token.beforeEnd toks, stop := endOffset toks, req }
  match s.ahead with
  | t :: rest => if t.is (ascii "\x7b") then topLevel t { s with ahead := rest } else functions [] s
  | [] => functions [] s

end StackC.Grammar
