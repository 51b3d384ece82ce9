import Lineage.Graph.Basic

/-!
# Walking back to an earlier snapshot

The files of a later snapshot are compared with those of an earlier one by walking from each towards
older files, until the walk meets a file that the earlier snapshot has, which holds the same data,
or a file that leads no further, which may differ.
-/

namespace Lineage

/-- The files that a walk met, by what they tell of the later snapshot. -/
structure Classification where
  /-- Files of the earlier snapshot. -/
  same : Names := ∅
  /-- Files whose data the earlier snapshot may lack. -/
  different : Names := ∅
  deriving DecidableEq, Repr

namespace Classification

def addSame (c : Classification) (name : String) : Classification :=
  { c with same := c.same.insert name }

def addDifferent (c : Classification) (name : String) : Classification :=
  { c with different := c.different.insert name }

def mentions (c : Classification) (name : String) : Bool := name ∈ c.same ∨ name ∈ c.different

end Classification

namespace Graph

/-- Whether a walk goes on from a file: its history is recorded, and none of it is as old as the
earlier snapshot. -/
def expandable (g : Graph) (generation : UInt64) (name : String) : Bool :=
  match g.node? name with
  | none => false
  | some n => generation ≤ n.generation ∧ g.replacedAny name

/-- Takes in the older neighbours of a file. The second part are the files to go on with. -/
def visitOlder (earlier : Names) :
    Classification × Names → List String → Classification × Names
  | s, [] => s
  | (c, next), n :: rest =>
    if c.mentions n then visitOlder earlier (c, next) rest
    else if n ∈ earlier then visitOlder earlier (c.addSame n, next) rest
    else visitOlder earlier (c, next.insert n) rest

/-- Takes in the files of one level. -/
def visitLevel (g : Graph) (earlier : Names) (generation : UInt64) :
    Classification × Names → List String → Classification × Names
  | s, [] => s
  | (c, next), n :: rest =>
    if g.expandable generation n then
      g.visitLevel earlier generation (visitOlder earlier (c, next) (g.olderThan n).toList) rest
    else g.visitLevel earlier generation (c.addDifferent n, next) rest

/-- Walks level by level, as many levels as are left. Nothing is given if they do not suffice. -/
def walk (g : Graph) (earlier : Names) (generation : UInt64) :
    (left : Nat) → Classification → List String → Option Classification
  | _, c, [] => some c
  | 0, _, _ :: _ => none
  | left + 1, c, level@(_ :: _) =>
    let (c, next) := g.visitLevel earlier generation (c, ∅) level
    g.walk earlier generation left c next.toList

/-- Walks from the given files one after the other. -/
def walkAll (g : Graph) (earlier : Names) (generation : UInt64) (levels : Nat) :
    Classification → List String → Option Classification
  | c, [] => some c
  | c, n :: rest =>
    if n ∈ c.same then g.walkAll earlier generation levels c rest
    else if g.contains n then do
      let c ← g.walk earlier generation levels c [n]
      g.walkAll earlier generation levels c rest
    else g.walkAll earlier generation levels (c.addDifferent n) rest

/-- Classifies the files of a later snapshot against those of an earlier one, whose sequence number
is `generation`. A walk that comes to the given number of levels is taken to run in a cycle, and its
level is the error; even the first level counts. -/
def classify (g : Graph) (later earlier : Names) (generation : UInt64) (maxLevels : Nat) :
    Except Nat Classification :=
  let start : Classification := { same := later.filter (· ∈ earlier) }
  match g.walkAll earlier generation (maxLevels - 1) start later.toList with
  | some c => .ok c
  | none => .error (max maxLevels 1)

end Graph

end Lineage
