import Patricia.Forest

/-!
# Outlines

The printed form of a trie is its root hash and below it an outline of its nodes: what is below a
node is indented by four blanks, and the slots of a branch are headed by their numbers. References
are printed as such, so printing reads no store.

The short descriptions of references, loaders and tries name the kind of thing and its fields.
-/

namespace Patricia

/-- Named fields in braces after the name of what has them, with dots for fields left out. -/
def described (name : String) (fields : List (String × String)) (complete : Bool) : String :=
  let shown := fields.map fun (field, value) ↦ field ++ ": " ++ value
  let shown := if complete then shown else shown ++ [".."]
  name ++ " \x7b " ++ ", ".intercalate shown ++ " \x7d"

/-- A run of blanks. -/
def blanks (count : Nat) : String :=
  String.ofList (List.replicate count ' ')

namespace Node

/-- The lines for a node and what is below it, all but the last one ended. -/
def outline (indent : Nat) : Node → String
  | .null => blanks indent ++ "Null"
  | .leaf _ path value =>
      blanks indent ++
        described "Leaf" [("path", (Path.mk path true).text), ("value", value.text)] true
  | .extension _ first rest child =>
      let path := Path.mk (first :: rest) false
      blanks indent ++ described "Extension" [("path", path.text)] true ++ "\n" ++
        outline (indent + 4) child
  | .branch _ _ slots value =>
      let table := Vector.ofFn fun slot ↦
        if (slots slot).isNull then ""
        else
          "\n" ++ blanks (indent + 2) ++ Symbols.symbolText (nibbleSymbol slot) ++ ":\n" ++
            outline (indent + 4) (slots slot)
      let head :=
        match value with
        | none => "Branch"
        | some value => described "Branch" [("value", value.text)] true
      blanks indent ++ head ++ String.join table.toList
  | .stored _ hash => blanks indent ++ described "Stored" [("hash", hash.text)] true

/-- The outline of a trie with this root. -/
def display (root : Node) : String :=
  "MerklePatriciaTrie[" ++ root.hash.text ++ "]\n" ++ root.outline 0

/-- The description of an empty node or a reference. The other kinds have none. -/
def description? : Node → Option String
  | .null => some "Null"
  | .stored _ hash => some ("Stored(" ++ described "StoredNode" [("hash", hash.text)] false ++ ")")
  | _ => none

end Node

/-- The description of a loader: how much is cached and under way, and its counts. -/
def Loader.description (loader : Loader) : String :=
  let stats :=
    described "LoaderStats"
      [("fetches", toString loader.fetches), ("cache_hits", toString loader.hits),
        ("joined", toString loader.joined)] true
  described "NodeLoader"
    [("cached", toString loader.cache.size), ("in_flight", toString loader.flights.length),
      ("stats", stats)] false

/-- The description of a trie with some root and a way to make nodes, if the root has one. -/
def describeTrie (root : Node) (factory : String) : Option String :=
  root.description?.map fun root ↦
    described "MerklePatriciaTrie" [("root", root), ("factory", factory)] true

/-- The description of a trie in memory, if its root has one. -/
def MemoryTrie.description? (trie : MemoryTrie) : Option String :=
  describeTrie trie.root "DefaultNodeFactory"

/-- The description of a trie over a store, if its root has one. -/
def BackedTrie.description? (trie : BackedTrie) : Option String :=
  describeTrie trie.root
    (described "StoredNodeFactory" [("loader", trie.loader.description)] true)

/-- The description of a named trie, if its root has one. -/
def Tree.description? : Tree → Option String
  | .memory trie => trie.description?
  | .backed trie => trie.description?

end Patricia
