import StackC.Yaml.Layout
import StackC.Yaml.Node

/-! The first document of a YAML text. -/
namespace StackC.Yaml

structure Reading where
  tokens : List Token
  /-- The nodes with an anchor, the last ones first. One that is being read has no node yet. -/
  anchors : List (List Char × Option Node) := []
  /-- The handles of tags, with what they stand for. -/
  handles : List (List Char × List Char) := []

/-- Steps that read tokens, or fail. -/
abbrev Reader := StateT Reading Option

def peek : Reader Token := do
  match (← get).tokens with
  | [] => failure
  | t :: _ => return t

def skip : Reader Unit := modify fun s => { s with tokens := s.tokens.drop 1 }

def accept (t : Token) : Reader Bool := do
  if (← peek) = t then do
    skip
    return true
  else return false

def ahead (ts : List Token) : Reader Bool := do return ts.contains (← peek)

/-- Reads the comma before an entry between brackets. The `first` has none. -/
def separated (first : Bool) : Reader Bool := if first then return true else accept .flowEntry

def tagName (handle rest : List Char) : Reader (List Char) := do
  if handle.isEmpty then return rest
  else match (← get).handles.lookup handle with
    | some lead => return lead ++ rest
    | none => failure

/-- What is said about a node before it. -/
structure Properties where
  anchor : Option (List Char) := none
  tag : Option (List Char) := none

def anchorAhead : Reader (Option (List Char)) := do
  match ← peek with
  | .anchor name => do
    skip
    return some name
  | _ => return none

def tagAhead : Reader (Option (List Char)) := do
  match ← peek with
  | .tag handle rest => do
    skip
    return some (← tagName handle rest)
  | _ => return none

/-- An anchor and a tag, in either order. -/
def properties : Reader Properties := do
  match ← anchorAhead with
  | some anchor => return { anchor := some anchor, tag := ← tagAhead }
  | none =>
    match ← tagAhead with
    | some tag => return { anchor := ← anchorAhead, tag := some tag }
    | none => return {}

/-- The tag that is written. A lone exclamation mark is none. -/
def Properties.tag? (p : Properties) : Option Tag := (p.tag.filter (· != ['!'])).map Tag.ofName

def Properties.bind (p : Properties) (n : Option Node) : Reader Unit :=
  modify fun s => { s with anchors := (p.anchor.map fun a => (a, n)).toList ++ s.anchors }

def Properties.scalar (p : Properties) (text : List Char) (plain : Bool) : Reader Node := do
  let n := Node.scalar (p.tag?.getD (.implicit text plain)) text
  p.bind (some n)
  return n

/-- Reads a node made of others. Its anchor is known inside of it, where it has no node. -/
def Properties.collection (p : Properties) (read : Reader Node) : Reader Node := do
  let outer := (← get).anchors.length
  p.bind none
  let n ← read
  if let some a := p.anchor then
    modify fun s => { s with anchors := s.anchors.set (s.anchors.length - 1 - outer) (a, some n) }
  return n

mutual

/-- Reads a node. Blocks are refused unless `block`, and a sequence as far out as the mapping
around it unless `level`. -/
def node (fuel : Nat) (block level : Bool) : Reader Node := do
  match fuel with
  | 0 => failure
  | fuel + 1 =>
    let t ← peek
    if let .reference name := t then
      skip
      match (← get).anchors.lookup name with
      | some target => return .reference name target
      | none => failure
    else
      let p ← properties
      let seq (items : Reader (List Node)) : Reader Node :=
        p.collection (do return .seq (p.tag?.getD .other) (← items))
      let map (pairs : Reader (List (Node × Node))) : Reader Node :=
        p.collection (do return .map (p.tag?.getD .other) (← pairs))
      match ← peek with
      | .scalar text plain => do
        skip
        p.scalar text plain
      | .flowSequenceStart => do
        skip
        seq (flowItems fuel true)
      | .flowMappingStart => do
        skip
        map (flowPairs fuel true)
      | t =>
        if level && t = .blockEntry then seq (levelItems fuel)
        else if block && t = .blockSequenceStart then do
          skip
          seq (blockItems fuel)
        else if block && t = .blockMappingStart then do
          skip
          map (blockPairs fuel)
        else if p.anchor.isSome || p.tag.isSome then p.scalar [] true
        else failure
termination_by (fuel, 0)

/-- Reads a node that is absent if one of these tokens comes next. -/
def nodeUnless (fuel : Nat) (block level : Bool) (ends : List Token) : Reader Node := do
  if ← ahead ends then return .absent else node fuel block level
termination_by (fuel, 1)

def blockItems (fuel : Nat) : Reader (List Node) := do
  match fuel with
  | 0 => failure
  | fuel + 1 =>
    if ← accept .blockEntry then
      let n ← nodeUnless fuel true false [.blockEntry, .blockEnd]
      return n :: (← blockItems fuel)
    else if ← accept .blockEnd then return []
    else failure
termination_by (fuel, 0)

/-- Reads the items of a sequence in the block of the mapping around it. -/
def levelItems (fuel : Nat) : Reader (List Node) := do
  match fuel with
  | 0 => failure
  | fuel + 1 =>
    if ← accept .blockEntry then
      let n ← nodeUnless fuel true false [.blockEntry, .key, .value, .blockEnd]
      return n :: (← levelItems fuel)
    else return []
termination_by (fuel, 0)

def blockPairs (fuel : Nat) : Reader (List (Node × Node)) := do
  match fuel with
  | 0 => failure
  | fuel + 1 =>
    if ← accept .key then
      let k ← nodeUnless fuel true true [.key, .value, .blockEnd]
      let v ← valueUnless fuel true [.key, .value, .blockEnd]
      return (k, v) :: (← blockPairs fuel)
    else if ← accept .blockEnd then return []
    else failure
termination_by (fuel, 0)

/-- Reads a value and the token before it. Both may be missing. -/
def valueUnless (fuel : Nat) (block : Bool) (ends : List Token) : Reader Node := do
  if ← accept .value then nodeUnless fuel block block ends else return .absent
termination_by (fuel, 2)

def flowItems (fuel : Nat) (first : Bool) : Reader (List Node) := do
  match fuel with
  | 0 => failure
  | fuel + 1 =>
    if ← accept .flowSequenceEnd then return []
    else if ← separated first then
      if ← accept .flowSequenceEnd then return []
      else
        let n ← if ← accept .key then flowPair fuel else node fuel false false
        return n :: (← flowItems fuel false)
    else failure
termination_by (fuel, 0)

/-- Reads a pair that stands in a sequence and is a mapping by itself. If there is no key, the token
in its place is lost. -/
def flowPair (fuel : Nat) : Reader Node := do
  let missing ← ahead [.value, .flowEntry, .flowSequenceEnd]
  let k ← if missing then do
      skip
      pure Node.absent
    else node fuel false false
  let v ← valueUnless fuel false [.flowEntry, .flowSequenceEnd]
  return .map .other [(k, v)]
termination_by (fuel, 3)

/-- Reads the pairs of a mapping between braces. A node that is no key has no value
either. -/
def flowPairs (fuel : Nat) (first : Bool) : Reader (List (Node × Node)) := do
  match fuel with
  | 0 => failure
  | fuel + 1 =>
    if ← accept .flowMappingEnd then return []
    else if ← separated first then
      if ← accept .flowMappingEnd then return []
      else if ← accept .key then
        let k ← nodeUnless fuel false false [.value, .flowEntry, .flowMappingEnd]
        let v ← valueUnless fuel false [.flowEntry, .flowMappingEnd]
        return (k, v) :: (← flowPairs fuel false)
      else
        let k ← node fuel false false
        return (k, .absent) :: (← flowPairs fuel false)
    else failure
termination_by (fuel, 0)

end

/-- Reads the directives of a document, given whether there was a version. None comes twice, and
the only version is 1.1. -/
def directives : Nat → Bool → Reader Unit
  | 0, _ => failure
  | fuel + 1, versioned => do
    match ← peek with
    | .version major minor =>
      if versioned || major ≠ 1 || minor ≠ 1 then failure
      else do
        skip
        directives fuel true
    | .handle name lead =>
      if ((← get).handles.lookup name).isSome then failure
      else do
        skip
        modify fun s => { s with handles := (name, lead) :: s.handles }
        directives fuel versioned
    | _ => return ()

def commonHandles : List (List Char × List Char) := [(['!'], ['!']), (['!', '!'], commonTags)]

/-- Reads the first document, if there is one. What follows it is not looked at, but for one
token. -/
def document (fuel : Nat) : Reader (Option Node) := do
  if ← ahead [.streamEnd] then return none
  else
    let before := (← get).tokens.length
    directives fuel false
    let bare := (← get).tokens.length == before
    modify fun s => { s with handles := s.handles ++ commonHandles }
    let marked ← accept .documentStart
    if !marked && !bare then failure
    else
      let n ←
        if marked then
          match ← peek with
          | .version _ _ | .handle _ _ => pure Node.absent
          | _ => nodeUnless fuel true false [.documentStart, .documentEnd, .streamEnd]
        else node fuel true false
      let _ ← peek
      return some n

/-- Reads the first document of a text. An empty text is one without a node. -/
def read? (t : Bytes) : Option (Option Node) := do
  let ts := tokens (← characters? t)
  let (n, _) ← (document (2 * ts.length + 8)).run { tokens := ts }
  return n

end StackC.Yaml
