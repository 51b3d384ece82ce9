/-!
# Paths

A path is a text; its components are the names between the slashes. Empty names and single dots say
nothing about the place a path leads to and are no components, save a dot in front of a relative
path. Paths with the same components are the same path, however they are written.
-/

namespace Lineage

/-- A path as it is written. -/
structure Path where
  text : String
  deriving DecidableEq, Repr, Inhabited

/-- One step of a path. -/
inductive Component where
  | root
  | here
  | up
  | name (n : String)
  deriving DecidableEq, Repr

namespace Path

/-- The texts between the slashes, the empty ones included. -/
def pieces (p : Path) : List String :=
  (p.text.toList.splitOn '/').map String.ofList

/-- The texts to follow from the start, dots and double dots included. -/
def steps (p : Path) : List String := p.pieces.filter (· != "")

/-- Whether a path ends in a slash, and so can lead to nothing but a directory. -/
def asksDirectory (p : Path) : Bool := p.text.toList.getLast? = some '/'

def isAbsolute (p : Path) : Bool :=
  p.text.toList.head? = some '/'

/-- What a text between slashes contributes past the start of a path. -/
def component? : String → Option Component
  | "" => none
  | "." => none
  | ".." => some .up
  | n => some (.name n)

def components (p : Path) : List Component :=
  let start := if p.isAbsolute then [.root] else if p.pieces.head? = some "." then [.here] else []
  start ++ p.pieces.filterMap component?

def componentText : Component → String
  | .root => ""
  | .here => "."
  | .up => ".."
  | .name n => n

/-- The plainest path with the given components. -/
def ofComponents (cs : List Component) : Path :=
  ⟨if cs = [.root] then "/" else "/".intercalate (cs.map componentText)⟩

/-- The last component, if it is a name. -/
def fileName? (p : Path) : Option String :=
  match p.components.getLast? with
  | some (.name n) => some n
  | _ => none

/-- The path without its last component; the start of an absolute path is inside nothing. -/
def parent? (p : Path) : Option Path :=
  match p.components.getLast? with
  | none | some .root => none
  | some _ => some (ofComponents p.components.dropLast)

/-- A path inside a directory; an absolute one stands for itself. -/
def join (dir : Path) (inner : String) : Path :=
  if (Path.mk inner).isAbsolute then ⟨inner⟩
  else
    let cs := dir.text.toList
    if cs = [] ∨ cs.getLast? = some '/' then ⟨dir.text ++ inner⟩
    else ⟨dir.text ++ "/" ++ inner⟩

/-- A file name without what follows its last dot; a dot in front begins no extension. -/
def stemOf (name : String) : String :=
  let cs := name.toList
  let stem := (cs.reverse.dropWhile (· != '.')).tail.reverse
  if stem = [] then name else String.ofList stem

/-- The file beside this one whose name has another extension. Where the name without its extension
would be two dots, they lead up, and no extension is added. -/
def withExtension (p : Path) (extension : String) : Path :=
  match p.fileName? with
  | none => p
  | some n =>
    let last := if stemOf n = "." then .up else .name (stemOf n ++ "." ++ extension)
    ofComponents (p.components.dropLast ++ [last])

end Path

end Lineage
