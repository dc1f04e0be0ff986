import StackC.Grammar.Program
import StackC.Lowering.Program
import StackC.Token.Scan
import StackC.Tree.Dump

/-! The compiler from source text to the text of a stage. -/
namespace StackC

/-- The stage whose output is asked for. -/
inductive Mode
  | asm
  | tokens
  | ast
  deriving DecidableEq, Repr

namespace Mode

def text : Mode → Bytes
  | asm => ascii "asm"
  | tokens => ascii "tokens"
  | ast => ascii "ast"

def ofText? (t : Bytes) : Option Mode := [asm, tokens, ast].find? (·.text == t)

def unknown (t : Bytes) : Bytes :=
  ascii "unknown -emit mode " ++ Text.quote t ++ ascii " (want asm, tokens, or ast)"

end Mode

/-- The outcome of a compilation, and a line about each stage that was passed. -/
structure Report where
  trace : Bytes
  result : Except Failure Bytes

/-- Compiles a source text up to a stage. -/
def compile (mode : Mode) (src : Bytes) : Report :=
  match Token.scan src with
  | .error e => { trace := [], result := .error (.source e) }
  | .ok toks =>
    let trace := ascii "Lexed " ++ Text.decimalNat (toks.length - 1) ++ ascii " tokens\n"
    if mode = .tokens then { trace, result := .ok (Token.listing toks) }
    else match Grammar.parse toks {} with
      | .error halt => { trace, result := .error (.source halt.error) }
      | .ok p =>
        match p.dump? with
        | none => { trace, result := .error .malformedTree }
        | some dump =>
          let trace := trace ++ ascii "AST: " ++ dump ++ [Text.newline]
          if mode = .ast then { trace, result := .ok (dump ++ [Text.newline]) }
          else match Lowering.program p with
            | .error e => { trace, result := .error e }
            | .ok code => {
                trace := trace ++ ascii "Generated " ++ Text.decimalNat code.length ++
                  ascii " instructions\n"
                result := .ok (Asm.Instr.listing code) }

structure SessionStep where
  /-- The tree as an s-expression, if the source was parsed. -/
  dump : Option Bytes := none
  code : Except Failure (List Asm.Instr)
  /-- The flags after this source. -/
  req : Requirements

/-- Compiles one source on top of the flags that earlier ones have set. -/
def sessionStep (req : Requirements) (src : Bytes) : SessionStep :=
  match Token.scan src with
  | .error e => { code := .error (.source e), req }
  | .ok toks =>
    match Grammar.parse toks req with
    | .error halt => { code := .error (.source halt.error), req := halt.req }
    | .ok p => { dump := p.dump?, code := Lowering.program p, req := p.req }

/-- Compiles sources in order with one set of flags. -/
def session (req : Requirements) : List Bytes → List SessionStep
  | [] => []
  | src :: rest =>
    let step := sessionStep req src
    step :: session step.req rest

end StackC
