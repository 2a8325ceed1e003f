import TemplateFormat.Yaml.Token
import TemplateFormat.Yaml.Meaning

/-!
# YAML nodes

A document is a tree of scalars, sequences and mappings, each with a tag and the
line it starts on.  A node may carry an anchor, and an alias stands for the
node with that anchor, which may be one that the alias itself is part of; so
anchored nodes are numbered, and an alias names the number.
-/

namespace TemplateFormat.Yaml

/-- A node of a document. -/
inductive Node where
  | scalar (line : Nat) (tag content : Text)
  | sequence (line : Nat) (tag : Text) (items : List Node)
  | mapping (line : Nat) (tag : Text) (pairs : List (Node × Node))
  /-- An alias of the anchored node with the number `target`. -/
  | alias (line : Nat) (name : Text) (target : Nat)

instance : Inhabited Node := ⟨.scalar 0 Tag.null []⟩

namespace Node

/-- The line a node starts on. -/
def line : Node → Nat
  | .scalar line .. => line
  | .sequence line .. => line
  | .mapping line .. => line
  | .alias line .. => line

/-- The tag of a node; an alias has none. -/
def tag : Node → Text
  | .scalar _ tag _ => tag
  | .sequence _ tag _ => tag
  | .mapping _ tag _ => tag
  | .alias .. => []

/-- A node that is not written: a null. -/
def unwritten (line : Nat) : Node := .scalar line Tag.null []

/-- Whether a node is the key under which other mappings are merged in. -/
def isMergeKey : Node → Bool
  | .scalar _ tag content => content = text "<<" && tag = Tag.merge
  | _ => false

/-- Whether a node is a mapping. -/
def isMapping : Node → Bool
  | .mapping .. => true
  | _ => false

end Node

/-- A document that was read. -/
structure Document where
  root : Node
  /-- The anchored nodes by their numbers. -/
  anchored : List (Nat × Node) := []

/-- The node that a node stands for: an alias stands for the anchored one. -/
def Document.follow (doc : Document) : Node → Node
  | .alias line name target => (doc.anchored.lookup target).getD (.alias line name target)
  | node => node

end TemplateFormat.Yaml
