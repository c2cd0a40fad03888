import Patricia.Walk

/-!
# Moving a node under another path

After an update a node may have to cover other nibbles than before. `Node.reroot` gives a node a
new path, so that paths merge and no extension leads to another extension. `Node.graft` puts a
lead in front of the path that a node has.

Grafting asks a node for its path first and moves it then; a reference is resolved for each.
-/

namespace Patricia.Node

/-- A node below an extension with this path, or the node itself if the path is empty. The path
must lead on. -/
def underPath (node : Node) (path : Path) : Walk Node :=
  if path.terminated then .fail (.breach .terminatedExtension)
  else
    match path.nibbles with
    | [] => pure node
    | first :: rest => Walk.newExtension first rest node

/-- The node put under a path in place of its own. A leaf takes a path that ends a key, an
extension or a branch one that leads on. -/
def reroot (node : Node) (path : Path) : Walk Node := do
  let resolved ← node.resolve
  match resolved.val with
  | .null => pure .null
  | .leaf _ _ value =>
      if path.terminated then Walk.newLeaf path.nibbles value
      else .fail (.breach .unterminatedLeaf)
  | .extension _ _ _ child => child.underPath path
  | .branch .. | .stored .. => resolved.val.underPath path

/-- The node with a lead put in front of its path. -/
def graft (lead : List Nibble) (node : Node) : Walk Node := do
  -- Two requests: one for the path, one for the node that is moved.
  node.reroot ((← node.path).after lead)

end Patricia.Node
