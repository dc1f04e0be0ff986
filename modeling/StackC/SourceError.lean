import StackC.Diagnostic
import StackC.Tree.Operator

/-! Why a compilation fails, and the wording of each cause. -/
namespace StackC

inductive Cause
  | invalidToken
  | numberOutOfRange
  | expected (lit : Bytes)
  | expectedIdentifier
  | expectedExpression
  | expectedFunction
  | extraToken
  | redefinedLocal (name : Bytes)
  | redefinedFunction (name : Bytes)
  | reservedLocal (name : Bytes)
  | reservedLabel (name : Bytes)
  | noMain
  | notLvalue
  | helperNotRequested (op : BinaryOp)
  | absentNode
  | unknownOperator
  deriving DecidableEq, Repr

namespace Cause

def stage : Cause → Stage
  | invalidToken | numberOutOfRange => .lex
  | reservedLabel _ | noMain | notLvalue | helperNotRequested _ | absentNode | unknownOperator =>
    .codegen
  | _ => .parse

def message : Cause → Bytes
  | invalidToken => ascii "invalid token"
  | numberOutOfRange => ascii "number literal out of range"
  | expected lit => ascii "expected " ++ Text.marked lit
  | expectedIdentifier => ascii "expected an identifier"
  | expectedExpression => ascii "expected an expression"
  | expectedFunction => ascii "expected a function definition"
  | extraToken => ascii "extra token"
  | redefinedLocal name => ascii "redefinition of " ++ Text.marked name
  | redefinedFunction name => ascii "redefinition of function " ++ Text.marked name
  | reservedLocal name | reservedLabel name => Text.marked name ++ ascii " is a reserved name"
  | noMain => ascii "no 'main' function"
  | notLvalue => ascii "not an lvalue"
  | helperNotRequested op =>
    ascii "operator " ++ Text.marked op.text ++
      ascii " used but its helper routine was not requested"
  | absentNode => ascii "unexpected node kind <nil>"
  | unknownOperator => ascii "unexpected node kind *ast.Binary"

end Cause

/-- A cause and the byte offset it is about, -1 if it is about no place. -/
structure SourceError where
  cause : Cause
  offset : Int
  deriving DecidableEq, Repr

namespace SourceError

def noOffset : Int := -1

def diagnostic (e : SourceError) : Diagnostic :=
  { stage := e.cause.stage, offset := e.offset, message := e.cause.message }

end SourceError

/-- How a compilation ends without a result: with an error of the program, or on a tree that no
program text has, because it names a local that does not exist or lacks a node. -/
inductive Failure
  | source (e : SourceError)
  | malformedTree
  deriving DecidableEq, Repr

namespace Failure

def complaint : Failure → Complaint
  | source e => .located e.diagnostic
  | malformedTree => .plain (ascii "malformed tree")

end Failure
end StackC
