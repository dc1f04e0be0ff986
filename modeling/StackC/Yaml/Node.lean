import StackC.Yaml.Tag

/-! Nodes: what a YAML document is made of. -/
namespace StackC.Yaml

inductive Node
  | scalar (tag : Tag) (text : List Char)
  | seq (tag : Tag) (items : List Node)
  | map (tag : Tag) (pairs : List (Node × Node))
  /-- A node given by its anchor. There is no target if it is part of the node itself. -/
  | reference (name : List Char) (target : Option Node)

def Node.absent : Node := .scalar .null []

/-- The node that is meant, if a node refers to another. -/
def Node.target? : Node → Option Node
  | .reference _ target => target
  | n => some n

/-- The value of a scalar. Other nodes have none. -/
def Node.value? (n : Node) : Option Value :=
  match n.target? with
  | some (.scalar tag text) => Yaml.value? tag text
  | _ => none

/-- Two keys of a mapping are the same if they are of one kind and written with the same text. -/
def Node.sameKey : Node → Node → Bool
  | .scalar _ a, .scalar _ b => a == b
  | .seq _ _, .seq _ _ => true
  | .map _ _, .map _ _ => true
  | .reference a _, .reference b _ => a == b
  | _, _ => false

def distinctKeys : List (Node × Node) → Bool
  | [] => true
  | (k, _) :: rest => !rest.any (fun p => k.sameKey p.1) && distinctKeys rest

/-- The key whose value is merged into its mapping. -/
def Node.isMerge : Node → Bool
  | .scalar .merge t => t == ['<', '<']
  | _ => false

mutual

/-- The mappings that make up one, itself first and then those merged into it. They count in this
order. -/
def Node.layers? : Node → Option (List (List (Node × Node)))
  | .map _ pairs => if distinctKeys pairs then (mergedLayers? pairs).map (pairs :: ·) else none
  | .reference _ (some n) => n.layers?
  | _ => none

/-- The mappings that are merged into one with these pairs. -/
def mergedLayers? : List (Node × Node) → Option (List (List (Node × Node)))
  | [] => some []
  | (k, v) :: rest =>
    if k.isMerge then
      match v with
      | .seq _ items => itemLayers? items
      | v => v.layers?
    else mergedLayers? rest

def itemLayers? : List Node → Option (List (List (Node × Node)))
  | [] => some []
  | n :: rest => do return (← n.layers?) ++ (← itemLayers? rest)

end

end StackC.Yaml
