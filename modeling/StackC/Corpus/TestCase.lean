import StackC.Corpus.Document
import StackC.Markdown.Read
import StackC.SExpr.Read

/-! Test cases written as a document: a heading names a case, a fence holds its program, and the
fences behind it say what is expected. -/
namespace StackC.Corpus

inductive Expectation
  | ast
  | asm
  | tokens
  | compileError
  deriving DecidableEq, Repr

inductive Role
  | program
  | expectation (e : Expectation)
  deriving DecidableEq, Repr

def programLanguage : Bytes := ascii "c-program"

def Expectation.language : Expectation → Bytes
  | ast => ascii "ast"
  | asm => ascii "asm"
  | tokens => ascii "tokens"
  | compileError => ascii "compile-error"

def Expectation.all : List Expectation := [ast, asm, tokens, compileError]

def Role.ofLanguage? (language : Bytes) : Option Role :=
  if language == programLanguage then some .program
  else (Expectation.all.find? (·.language == language)).map .expectation

/-- One expectation. A tree is expected by a pattern. -/
structure Assertion where
  expectation : Expectation
  content : Bytes
  pattern : Option SExpr.Node
  line : Nat

structure TestCase where
  name : Bytes
  input : Bytes
  assertions : List Assertion

/-- A case whose section is still being read. -/
structure Draft where
  name : Bytes
  input : Option Bytes := none
  assertions : List Assertion := []

inductive Fault
  | unknownLanguage (line : Nat) (language : Bytes)
  | outsideCase (line : Nat) (language : Bytes)
  | secondProgram (line : Nat) (name : Bytes)
  | beforeProgram (line : Nat) (name : Bytes)
  | badPattern (line : Nat) (name : Bytes) (e : SExpr.ReadError)
  | noProgram (name : Bytes)
  | noAssertion (name : Bytes)
  deriving DecidableEq, Repr

private def lineMark (line : Nat) : Bytes := ascii "line " ++ Text.decimalNat line ++ ascii ": "

def Fault.message : Fault → Bytes
  | unknownLanguage line language =>
    lineMark line ++ ascii "unknown fence language " ++ Text.marked language
  | outsideCase line language =>
    lineMark line ++ language ++ ascii " fence found outside of test case"
  | secondProgram line name =>
    lineMark line ++ ascii "multiple input fences found in test " ++ Text.marked name
  | beforeProgram line name =>
    lineMark line ++ ascii "assertion before input in test " ++ Text.marked name
  | badPattern line name e =>
    lineMark line ++ ascii "failed to parse assertion in test " ++ Text.marked name ++ ascii ": " ++
      e.message
  | noProgram name => ascii "test " ++ Text.marked name ++ ascii " has no input fence"
  | noAssertion name => ascii "test " ++ Text.marked name ++ ascii " has no assertion fences"

/-- A fault, and whether it was met before the end of the document. -/
structure ExtractError where
  fault : Fault
  inside : Bool
  deriving DecidableEq, Repr

def ExtractError.message (e : ExtractError) : Bytes :=
  (if e.inside then ascii "error walking markdown AST: " else []) ++ e.fault.message

/-- A finished section is a case if it has a program and an assertion. -/
def Draft.finish (d : Draft) : Except Fault TestCase :=
  match d.input, d.assertions with
  | none, _ => .error (.noProgram d.name)
  | some _, [] => .error (.noAssertion d.name)
  | some input, assertions => .ok { name := d.name, input, assertions }

def finishAll : Option Draft → Except Fault (List TestCase)
  | none => .ok []
  | some d => return [← d.finish]

def readPattern (expectation : Expectation) (line : Nat) (name content : Bytes) :
    Except Fault (Option SExpr.Node) :=
  match expectation with
  | .ast =>
    match SExpr.read content with
    | .ok n => .ok (some n)
    | .error e => .error (.badPattern line name e)
  | _ => .ok none

/-- Adds a fence to the section that is being read. Fences without a language are prose. -/
def addFence (current : Option Draft) (f : Fence) : Except Fault (Option Draft) :=
  let line := f.lineNumber
  if f.language.isEmpty then .ok current
  else match Role.ofLanguage? f.language, current with
    | none, _ => .error (.unknownLanguage line f.language)
    | some _, none => .error (.outsideCase line f.language)
    | some .program, some d =>
      if d.input.isSome then .error (.secondProgram line d.name)
      else .ok (some { d with input := some f.content })
    | some (.expectation e), some d =>
      if d.input.isNone then .error (.beforeProgram line d.name)
      else do
        let pattern ← readPattern e line d.name f.content
        let a : Assertion := { expectation := e, content := f.content, pattern, line }
        return some { d with assertions := d.assertions ++ [a] }

def caseMark : Bytes := ascii "Test: "

/-- The cases of the blocks that follow, given the section that is being read. -/
def casesFrom (current : Option Draft) : List Block → Except ExtractError (List TestCase)
  | [] => (finishAll current).mapError fun fault => { fault, inside := false }
  | .heading text :: rest =>
    match Text.after? caseMark text with
    | none => casesFrom current rest
    | some name => do
      let done ← (finishAll current).mapError fun fault => { fault, inside := true }
      let more ← casesFrom (some { name := name }) rest
      return done ++ more
  | .fence f :: rest => do
    let next ← (addFence current f).mapError fun fault => { fault, inside := true }
    casesFrom next rest

/-- The test cases of a document, given a Markdown library. -/
def testCasesBy (reader : Markdown.Reader) (doc : Bytes) : Except ExtractError (List TestCase) :=
  casesFrom none (blocksBy reader doc)

def testCases (doc : Bytes) : Except ExtractError (List TestCase) :=
  testCasesBy Markdown.read doc

end StackC.Corpus
