import StackC.Asm.Routine
import StackC.Text.Quoted
import StackC.Yaml.Document

/-! Tables of comparison routines, written in YAML. -/
namespace StackC.Asm

structure Entry where
  name : Bytes := []
  op : Bytes := []
  body : List Bytes := []
  deriving DecidableEq, Repr

/-- A routine of a table: the operator it is for and the lines of its body. -/
structure Helper where
  name : Bytes
  op : BinaryOp
  body : List Bytes
  deriving DecidableEq, Repr

/-- The lines of a routine, with its entry label. -/
def Helper.code (h : Helper) : List Line := { label := h.name } :: h.body.map Line.ofText

/-- A routine of the compiler as it would stand in a table. -/
def Routine.helper (r : Routine) : Helper :=
  { name := r.name, op := r.op, body := r.body.map Instr.text }

inductive TableFault
  /-- The text is no YAML, or not that of a table. -/
  | notTable
  /-- There is nothing where an entry should be. -/
  | absentEntry
  | nameRequired (index : Nat)
  | notComparison (name op : Bytes)
  | handledBefore (name op other : Bytes)
  | emptyBody (name : Bytes)
  deriving DecidableEq, Repr

private def tableMark : Bytes := ascii "helper table: "

def TableFault.message? : TableFault → Option Bytes
  | notTable | absentEntry => none
  | nameRequired i =>
    some (tableMark ++ ascii "entry " ++ Text.decimalNat i ++ ascii ": name is required")
  | notComparison name op =>
    some (tableMark ++ name ++ ascii ": " ++ Text.quote op ++ ascii " is not a comparison operator")
  | handledBefore name op other =>
    some (tableMark ++ name ++ ascii ": operator " ++ Text.quote op ++
      ascii " already handled by " ++ other)
  | emptyBody name => some (tableMark ++ name ++ ascii ": empty body")

def comparison? (op : Bytes) : Option BinaryOp := (BinaryOp.ofText? op).filter (·.isComparison)

/-- Checks an entry, given its number and the routines before it. -/
def Entry.check (e : Entry) (index : Nat) (before : List Helper) : Except TableFault Helper :=
  if e.name.isEmpty then .error (.nameRequired index)
  else match comparison? e.op with
    | none => .error (.notComparison e.name e.op)
    | some op =>
      match before.find? (·.op == op) with
      | some other => .error (.handledBefore e.name e.op other.name)
      | none =>
        if e.body.isEmpty then .error (.emptyBody e.name)
        else .ok { name := e.name, op, body := e.body }

/-- Checks the entries in order, behind those already `done`. -/
def checkEntries (done : List Helper) : List (Option Entry) → Except TableFault (List Helper)
  | [] => .ok done
  | none :: _ => .error .absentEntry
  | some e :: rest => do
    let h ← e.check done.length done
    checkEntries (done ++ [h]) rest

def textField? (n : Yaml.Node) : Option Bytes :=
  n.value?.map fun
    | .null => []
    | .text t => t

/-- The lines of a body. Items without a value are left out. -/
def bodyLines? : List Yaml.Node → Option (List Bytes)
  | [] => some []
  | n :: rest => do
    match ← n.value? with
    | .null => bodyLines? rest
    | .text t => return t :: (← bodyLines? rest)

def linesField? (n : Yaml.Node) : Option (List Bytes) :=
  match n.target? with
  | some (.seq _ items) => bodyLines? items
  | _ => if n.value? = some .null then some [] else none

def fieldNames : List Bytes := [ascii "name", ascii "op", ascii "body"]

/-- Sets one field of an entry. Unknown fields are ignored. -/
def Entry.set? (e : Entry) (key : Bytes) (v : Yaml.Node) : Option Entry :=
  if key == ascii "name" then (textField? v).map fun name => { e with name }
  else if key == ascii "op" then (textField? v).map fun op => { e with op }
  else if key == ascii "body" then (linesField? v).map fun body => { e with body }
  else some e

/-- Sets a field by its key, unless the key is among the names before. In the entry's `own` mapping
no field may be set twice. -/
def Entry.setPair? (own : Bool) : Entry × List Bytes → Yaml.Node × Yaml.Node →
    Option (Entry × List Bytes)
  | (e, before), (k, v) =>
    if k.isMerge then some (e, before)
    else do
      match ← k.value? with
      | .null => return (e, before)
      | .text key =>
        if !before.contains key then return (← e.set? key v, key :: before)
        else if own && fieldNames.contains key then none
        else return (e, before)

/-- The entry that a mapping is, together with those merged into it. -/
def Entry.ofLayers? : List (List (Yaml.Node × Yaml.Node)) → Option Entry
  | [] => some {}
  | own :: merged => do
    let first ← own.foldlM (Entry.setPair? true) ({}, [])
    let last ← merged.flatten.foldlM (Entry.setPair? false) first
    return last.1

/-- The entry that a node is. Null is an entry that is not there. -/
def entryOf? (n : Yaml.Node) : Option (Option Entry) :=
  match n.target? with
  | some (.map tag _) => if tag = .null then none else (n.layers?.bind Entry.ofLayers?).map some
  | _ => if n.value? = some .null then some none else none

def entriesOf? (n : Yaml.Node) : Option (List (Option Entry)) :=
  match n with
  | .seq _ items => items.mapM entryOf?
  | _ => if n.value? = some .null then some [] else none

/-- The entries of a table that is written in YAML. An empty text has none. -/
def entries? (t : Bytes) : Option (List (Option Entry)) := do
  match ← Yaml.read? t with
  | none => return []
  | some n => entriesOf? n

/-- Reads and checks a table, given how a text is decoded. -/
def readTableBy (decode : Bytes → Option (List (Option Entry))) (t : Bytes) :
    Except TableFault (List Helper) :=
  match decode t with
  | none => .error .notTable
  | some entries => checkEntries [] entries

def readTable (t : Bytes) : Except TableFault (List Helper) := readTableBy entries? t

end StackC.Asm
