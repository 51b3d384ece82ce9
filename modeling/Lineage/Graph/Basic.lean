import Std.Data.ExtTreeMap
import Std.Data.ExtTreeSet
import Lineage.History.Compaction

/-!
# The graph of files

Each file that took part in a compaction is a node; an edge leads from every output of a compaction
to every input, that is from newer files to the older ones they replaced. The edges are kept from
both ends. Adding compactions and removing nodes keeps the two in step, gives every end of an edge a
node, and stores no empty set of neighbours.
-/

namespace Lineage

/-- A file in the graph. -/
structure GraphNode where
  name : String
  /-- The sequence number of the compaction that first named the file. -/
  generation : UInt64
  first : Option Bytes := none
  last : Option Bytes := none
  family : Option String := none
  /-- The number of the file's entries, as last told. -/
  keys : UInt64 := 0
  /-- The numbers of entries of the files that this one replaced, summed up. -/
  replacedKeys : UInt64 := 0
  deriving DecidableEq, Repr

/-- The sum of two words, or the largest word if they exceed it. -/
def saturatingAdd (a b : UInt64) : UInt64 :=
  if a.toNat + b.toNat < UInt64.size then a + b else 0xFFFFFFFFFFFFFFFF

namespace GraphNode

/-- The node of a file that a compaction names. -/
def ofInfo (i : FileInfo) (generation : UInt64) : GraphNode where
  name := i.name
  generation := generation
  first := i.first
  last := i.last
  family := i.family
  keys := i.keys.getD 0

/-- The node with another number of entries. -/
def withKeys (n : GraphNode) (keys : UInt64) : GraphNode := { n with keys := keys }

/-- The node of a file that replaced one more file, of the given number of entries. -/
def replacing (n : GraphNode) (keys : UInt64) : GraphNode :=
  { n with replacedKeys := saturatingAdd n.replacedKeys keys }

end GraphNode

/-- A set of files, by their names. -/
abbrev Names := Std.ExtTreeSet String

/-- For each name its neighbours in one direction. -/
abbrev Adjacency := Std.ExtTreeMap String Names

structure Graph where
  nodes : Std.ExtTreeMap String GraphNode := ∅
  /-- The files that a file replaced. -/
  older : Adjacency := ∅
  /-- The files that replaced a file. -/
  newer : Adjacency := ∅
  deriving DecidableEq

namespace Graph

/-! ## Questions -/

def node? (g : Graph) (name : String) : Option GraphNode := g.nodes[name]?

def contains (g : Graph) (name : String) : Bool := g.nodes.contains name

/-- The files that a file replaced. -/
def olderThan (g : Graph) (name : String) : Names := g.older.getD name ∅

/-- The files that replaced a file. -/
def newerThan (g : Graph) (name : String) : Names := g.newer.getD name ∅

/-- Whether a file came out of a compaction. -/
def replacedAny (g : Graph) (name : String) : Bool := !(g.olderThan name).isEmpty

def nodeCount (g : Graph) : Nat := g.nodes.size

def edgeCount (g : Graph) : Nat := g.older.foldl (fun n _ older => n + older.size) 0

def isEmpty (g : Graph) : Bool := g.nodes.isEmpty

/-- The files that came out of compactions. -/
def outputNames (g : Graph) : List String := g.older.keys.filter g.replacedAny

/-- The edges in ascending order, each as the newer file and the older one. -/
def edges (g : Graph) : List (String × String) :=
  g.older.toList.flatMap fun (newer, older) => older.toList.map (newer, ·)

/-! ## Adding compactions -/

/-- Gives a file a node, unless it has one, and takes in its number of entries if that is told. -/
def addFile (g : Graph) (i : FileInfo) (generation : UInt64) : Graph :=
  let n := (g.node? i.name).getD (.ofInfo i generation)
  { g with nodes := g.nodes.insert i.name (i.keys.elim n n.withKeys) }

/-- The number of entries of a file, as far as it is known. -/
def keysOf (g : Graph) (name : String) : UInt64 := ((g.node? name).map GraphNode.keys).getD 0

/-- Records that a file replaced another one. No file replaces itself, or another one twice. -/
def addEdge (g : Graph) (newer older : String) : Graph :=
  if newer = older ∨ older ∈ g.olderThan newer then g
  else
    { nodes := match g.node? newer with
        | none => g.nodes
        | some n => g.nodes.insert newer (n.replacing (g.keysOf older))
      older := g.older.insert newer ((g.olderThan newer).insert older)
      newer := g.newer.insert older ((g.newerThan older).insert newer) }

/-- Records a compaction: every output replaced every input. -/
def add (g : Graph) (inputs outputs : List FileInfo) (generation : UInt64) : Graph :=
  let g := (outputs ++ inputs).foldl (fun g i => g.addFile i generation) g
  outputs.foldl (fun g o => inputs.foldl (fun g i => g.addEdge o.name i.name) g) g

def addCompaction (g : Graph) (c : Compaction) : Graph := g.add c.inputs c.outputs c.sequence

/-! ## Removing files -/

/-- Drops names from an index, and sets of neighbours that become empty. -/
def dropNames (names : Names) (a : Adjacency) : Adjacency :=
  a.filterMap fun k ns =>
    let left := ns.filter (· ∉ names)
    if k ∈ names ∨ left.isEmpty then none else some left

/-- The graph without some files and the edges that touch them. -/
def without (g : Graph) (names : Names) : Graph where
  nodes := g.nodes.filter fun k _ => k ∉ names
  older := dropNames names g.older
  newer := dropNames names g.newer

end Graph

end Lineage
