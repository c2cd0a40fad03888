import Patricia.Node.Basic

/-!
# Making nodes by hand

The functions below make blank nodes from parts that a caller chose, and check what their types do
not say: a leaf's path ends a key, an extension's path leads on and is not empty.
-/

namespace Patricia.Node

/-- The leaf with a path and a value. -/
def leafOver (path : Path) (value : Bytes) : Except Breach Node :=
  if path.terminated then .ok (.leaf .blank path.nibbles value) else .error .unterminatedLeaf

/-- The extension with a path and a child. -/
def extensionOver (path : Path) (child : Node) : Except Breach Node :=
  match path.nibbles, path.terminated with
  | [], false => .error .emptyExtension
  | _, true => .error .terminatedExtension
  | first :: rest, false => .ok (.extension .blank first rest child)

end Patricia.Node
