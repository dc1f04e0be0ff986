import StackC.Compile

/-! The command line of the compiler. -/
namespace StackC.CommandLine

structure Options where
  verbose : Bool := false
  emit : Bytes := Mode.asm.text
  deriving DecidableEq, Repr

inductive FlagError
  | help
  | badFlag (arg : Bytes)
  | undefined (name : Bytes)
  | badBool (value : Bytes)
  | needsArgument (name : Bytes)
  deriving DecidableEq, Repr

/-- The line that tells of a refused flag. A call for help has none. -/
def FlagError.message? : FlagError → Option Bytes
  | help => none
  | badFlag arg => some (ascii "bad flag syntax: " ++ arg)
  | undefined name => some (ascii "flag provided but not defined: -" ++ name)
  | badBool value =>
    some (ascii "invalid boolean value " ++ Text.quote value ++ ascii " for -v: parse error")
  | needsArgument name => some (ascii "flag needs an argument: -" ++ name)

/-- A flag as it is written: its name, and its value if it stands behind an equals sign. -/
structure Flag where
  name : Bytes
  value : Option Bytes
  deriving DecidableEq, Repr

def dash : UInt8 := byte '-'

def equals : UInt8 := byte '='

inductive Arg
  /-- No flag: the flags are over. -/
  | operand
  /-- The mark that ends the flags. -/
  | stop
  | malformed
  | flag (f : Flag)
  deriving DecidableEq, Repr

def flagOf (t : Bytes) : Arg :=
  match t with
  | [] => .malformed
  | b :: _ =>
    if b == dash || b == equals then .malformed
    else
      let name := t.takeWhile (· != equals)
      let value := t.drop name.length
      .flag { name, value := if value.isEmpty then none else some (value.drop 1) }

/-- Classifies an argument. One or two dashes begin a flag. -/
def Arg.ofText (arg : Bytes) : Arg :=
  match arg with
  | first :: second :: rest =>
    if first != dash then .operand
    else if second != dash then flagOf (second :: rest)
    else if rest.isEmpty then .stop
    else flagOf rest
  | _ => .operand

def readBool? (t : Bytes) : Option Bool :=
  if (["1", "t", "T", "true", "TRUE", "True"].map ascii).contains t then some true
  else if (["0", "f", "F", "false", "FALSE", "False"].map ascii).contains t then some false
  else none

/-- Reads the flags. The last setting of each wins. Gives the arguments that are left. -/
def readFlags (o : Options) : List Bytes → Except FlagError (Options × List Bytes)
  | [] => .ok (o, [])
  | arg :: rest =>
    match Arg.ofText arg with
    | .operand => .ok (o, arg :: rest)
    | .stop => .ok (o, rest)
    | .malformed => .error (.badFlag arg)
    | .flag f =>
      if f.name == ascii "v" then
        match f.value with
        | none => readFlags { o with verbose := true } rest
        | some t =>
          match readBool? t with
          | some verbose => readFlags { o with verbose } rest
          | none => .error (.badBool t)
      else if f.name == ascii "emit" then
        match f.value with
        | some emit => readFlags { o with emit } rest
        | none =>
          match rest with
          | emit :: rest => readFlags { o with emit } rest
          | [] => .error (.needsArgument f.name)
      else if f.name == ascii "h" || f.name == ascii "help" then .error .help
      else .error (.undefined f.name)

def usage : Bytes := ascii (
  "yamcc - compile a small C subset to stack machine assembly\n" ++
  "\n" ++
  "Usage:\n" ++
  "    yamcc [-v] [-emit asm|tokens|ast] <program>\n" ++
  "\n" ++
  "The program is given as an argument, not read from a file.\n" ++
  "\n" ++
  "Examples:\n" ++
  "    yamcc '\x7b return 1+2*3; \x7d'\n" ++
  "    yamcc -emit ast 'int main() \x7b x=3; y=&x; return *y; \x7d'\n" ++
  "\n" ++
  "Flags:\n" ++
  "  -emit string\n" ++
  "    \tWhat to print: asm, tokens, or ast (default \"asm\")\n" ++
  "  -v\tShow verbose compilation details\n")

/-- What a run prints and how it ends. -/
structure Outcome where
  status : Nat
  stdout : Bytes := []
  stderr : Bytes := []
  deriving DecidableEq, Repr

def runProgram (o : Options) (color : Bool) (mode : Mode) (src : Bytes) : Outcome :=
  let report := compile mode src
  let trace :=
    if o.verbose then ascii "Compiling " ++ Text.quote src ++ ascii "...\n" ++ report.trace else []
  match report.result with
  | .ok out => { status := 0, stdout := out, stderr := trace }
  | .error e => { status := 1, stderr := trace ++ e.complaint.render src color }

def run (color : Bool) (args : List Bytes) : Outcome :=
  match readFlags {} args with
  | .error e =>
    match e.message? with
    | none => { status := 0, stderr := usage }
    | some line => { status := 1, stderr := line ++ [Text.newline] ++ usage }
  | .ok (o, [src]) =>
    match Mode.ofText? o.emit with
    | none => { status := 1, stderr := ascii "Error: " ++ Mode.unknown o.emit ++ [Text.newline] }
    | some mode => runProgram o color mode src
  | .ok _ =>
    { status := 1, stderr := ascii "Error: expected exactly one program argument\n" ++ usage }

end StackC.CommandLine
