import StackC.Compile
import StackC.Corpus.TestCase

/-! Bringing the assembly and token fences of a document up to date. -/
namespace StackC.Corpus

open Markdown (Reader)

inductive UpdateError
  | noProgram (language : Bytes)
  | compile (input : Bytes) (e : Failure)
  | noInfo
  | notClosed (language : Bytes)
  deriving DecidableEq, Repr

def UpdateError.complaint : UpdateError → Complaint
  | noProgram language => .plain (language ++ ascii " fence without a c-program fence before it")
  | compile input e => .context (ascii "compiling " ++ Text.quote input) e.complaint
  | noInfo => .plain (ascii "fence without an info string")
  | notClosed language => .plain (language ++ ascii " fence is not closed")

structure Edit where
  start : Nat
  stop : Nat
  text : Bytes
  deriving DecidableEq, Repr

/-- The mode whose output a fence with a language holds. -/
def goldenMode? (language : Bytes) : Option Mode :=
  [Mode.asm, Mode.tokens].find? (·.text == language)

def refresh (input : Option Bytes) (mode : Mode) (f : Fence) : Except UpdateError Edit :=
  match input with
  | none => .error (.noProgram f.language)
  | some input =>
    match (compile mode input).result, f.body with
    | .error e, _ => .error (.compile input e)
    | .ok _, .error .noInfo => .error .noInfo
    | .ok _, .error .notClosed => .error (.notClosed f.language)
    | .ok text, .ok (start, stop) => .ok ⟨start, stop, text⟩

/-- The edits of the blocks that follow. `input` is the last program since the last heading. -/
def edits (input : Option Bytes) : List Block → Except UpdateError (List Edit)
  | [] => .ok []
  | .heading _ :: rest => edits none rest
  | .fence f :: rest =>
    if f.language == programLanguage then edits (some f.content) rest
    else match goldenMode? f.language with
      | none => edits input rest
      | some mode => do
        let e ← refresh input mode f
        let es ← edits input rest
        return e :: es

/-- Puts an edit among others that stand in order, the one with the last start first. -/
def Edit.insert (e : Edit) : List Edit → List Edit
  | [] => [e]
  | x :: xs => if x.start < e.start then e :: x :: xs else x :: e.insert xs

def lastFirst (es : List Edit) : List Edit := es.foldl (fun done e => e.insert done) []

def Edit.replace (e : Edit) (t : Bytes) : Bytes := t.take e.start ++ e.text ++ t.drop e.stop

/-- Replaces one range after the other, the last one first. -/
def applyEdits (doc : Bytes) (es : List Edit) : Bytes :=
  (lastFirst es).foldl (fun t e => e.replace t) doc

/-- The document with every assembly and token fence brought up to date with the program before it,
given a Markdown library. -/
def updateBy (reader : Reader) (doc : Bytes) : Except UpdateError Bytes := do
  return applyEdits doc (← edits none (blocksBy reader doc))

def update (doc : Bytes) : Except UpdateError Bytes := updateBy Markdown.read doc

structure FileStep where
  text : Bytes
  changed : Bool
  failed : Option Bytes := none

end StackC.Corpus
