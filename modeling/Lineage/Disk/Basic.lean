import Std.Data.ExtTreeMap
import Lineage.Bytes
import Lineage.Outage
import Lineage.Disk.Path

/-!
# Directories and files

A disk maps places to directories and files. A file is reached through a number, so that several
names may lead to one file: a name keeps its content when another one is removed or led elsewhere,
and what is written through one name is read through all.

`Disk.find`, `Disk.linked` and their like say what a disk holds and becomes; an `Action` of the same
name runs one of them under the disk's plan of failures.
-/

namespace Lineage

/-! ## Errors -/

/-- What kind of failure an operation on files reports. -/
inductive IoKind where
  | notFound
  | alreadyExists
  | isDirectory
  | notDirectory
  | permissionDenied
  | invalidData
  | invalidInput
  | nameTooLong
  | noDevice
  | other
  deriving DecidableEq, Repr

/-- A failure of an operation on files. The system's own failures have no text of their own. -/
structure IoError where
  kind : IoKind
  text : Option String := none
  deriving DecidableEq, Repr

/-- The text of a failure behind some words that say where it arose. -/
def IoError.message? (e : IoError) (words : String := "") : Option String :=
  e.text.map (words ++ ·)

/-! ## Disks -/

/-- Where a name leads: the names to follow from the root. -/
abbrev Place := List String

/-- The number of a file. -/
abbrev FileId := Nat

inductive Node where
  | directory
  | file (id : FileId)
  deriving DecidableEq, Repr

/-- The operations that may be refused. -/
inductive DiskOperation where
  | makeDirectory
  | create
  | append
  | read
  | list
  | link
  | rename
  | remove
  deriving DecidableEq, Repr

/-- How an operation fails; an append may have written some of its bytes before. -/
structure DiskFault where
  error : IoError
  written : Nat := 0

structure Disk where
  nodes : Std.ExtTreeMap Place Node := ∅
  contents : Std.ExtTreeMap FileId Bytes := ∅
  unused : FileId := 0
  outage : Outage DiskOperation DiskFault := .quiet

namespace Disk

/-- What is at a place. The root is always there. -/
def node? (d : Disk) : Place → Option Node
  | [] => some .directory
  | p => d.nodes[p]?

/-- The number of bytes that a name has at most. -/
def maxName : Nat := 255

/-- The number of bytes that a path as written has at most. -/
def maxPath : Nat := 4095

/-- Follows names from a place. Each name but the last has to lead to a directory. -/
def walk (d : Disk) (start : Place) : List String → Except IoError Place
  | [] => .ok start
  | s :: rest =>
    match d.node? start with
    | none => .error ⟨.notFound, none⟩
    | some (.file _) => .error ⟨.notDirectory, none⟩
    | some .directory =>
      if s = "." then d.walk start rest
      else if s = ".." then d.walk start.dropLast rest
      else if maxName < s.utf8ByteSize then .error ⟨.nameTooLong, none⟩
      else d.walk (start ++ [s]) rest

/-- Refuses a path that no operation takes, whatever is on the disk: one with a null character, the
empty one, and one that is too long. -/
def checkText (p : Path) : Except IoError Unit :=
  if p.text.toList.contains '\x00' then
    .error ⟨.invalidInput, some "file name contained an unexpected NUL byte"⟩
  else if p.text = "" then .error ⟨.notFound, none⟩
  else if maxPath < p.text.utf8ByteSize then .error ⟨.nameTooLong, none⟩
  else .ok ()

/-- The place that a path leads to, whether or not something is there. A slash at the end of the
path asks for a directory. -/
def place (d : Disk) (p : Path) : Except IoError Place := do
  checkText p
  d.walk [] (if p.asksDirectory then p.steps ++ ["."] else p.steps)

/-- What a path leads to. -/
def find (d : Disk) (p : Path) : Except IoError Node := do
  let spot ← d.place p
  match d.node? spot with
  | some n => .ok n
  | none => .error ⟨.notFound, none⟩

def present (d : Disk) (p : Path) : Bool := (d.find p).isOk

def isDirectory (d : Disk) (p : Path) : Bool :=
  match d.find p with
  | .ok .directory => true
  | _ => false

def isFile (d : Disk) (p : Path) : Bool :=
  match d.find p with
  | .ok (.file _) => true
  | _ => false

/-- The bytes of a file. -/
def content (d : Disk) (id : FileId) : Bytes := d.contents.getD id []

/-- The file that a path leads to. -/
def fileAt (d : Disk) (p : Path) : Except IoError FileId := do
  match ← d.find p with
  | .file id => .ok id
  | .directory => .error ⟨.isDirectory, none⟩

/-- The bytes of the file that a path leads to. -/
def bytesAt (d : Disk) (p : Path) : Except IoError Bytes :=
  (d.fileAt p).map d.content

/-- The names in a directory, in ascending order. -/
def namesIn (d : Disk) (p : Path) : Except IoError (List String) := do
  let spot ← d.place p
  match d.node? spot with
  | none => .error ⟨.notFound, none⟩
  | some (.file _) => .error ⟨.notDirectory, none⟩
  | some .directory =>
    .ok (d.nodes.keys.filterMap fun k =>
      if k ≠ [] ∧ k.dropLast = spot then k.getLast? else none)

/-- The disk with a new directory. -/
def withDirectory (d : Disk) (p : Path) : Except IoError Disk := do
  checkText p
  let spot ← d.walk [] p.steps
  match d.node? spot with
  | some _ => .error ⟨.alreadyExists, none⟩
  | none => .ok { d with nodes := d.nodes.insert spot .directory }

/-- The disk once a path leads to a file, which it does not make empty if it is there. A path with a
slash at its end asks for a directory. -/
def withFile (d : Disk) (p : Path) : Except IoError (FileId × Disk) := do
  checkText p
  let spot ← d.walk [] p.steps
  if p.asksDirectory then .error ⟨.isDirectory, none⟩
  match d.node? spot with
  | some .directory => .error ⟨.isDirectory, none⟩
  | some (.file id) => .ok (id, d)
  | none =>
    .ok (d.unused,
      { d with
        nodes := d.nodes.insert spot (.file d.unused)
        contents := d.contents.insert d.unused []
        unused := d.unused + 1 })

/-- The disk with other bytes in a file. -/
def withContent (d : Disk) (id : FileId) (b : Bytes) : Disk :=
  { d with contents := d.contents.insert id b }

/-- The disk without a name of a file. -/
def withoutName (d : Disk) (p : Path) : Except IoError Disk := do
  let spot ← d.place p
  match d.node? spot with
  | none => .error ⟨.notFound, none⟩
  | some .directory => .error ⟨.isDirectory, none⟩
  | some (.file _) => .ok { d with nodes := d.nodes.erase spot }

/-- The disk with one more name for a file. -/
def linked (d : Disk) (source target : Path) : Except IoError Disk := do
  checkText source
  checkText target
  let n ← d.find source
  let spot ← d.place target
  match d.node? spot, n with
  | some _, _ => .error ⟨.alreadyExists, none⟩
  | none, .directory => .error ⟨.permissionDenied, none⟩
  | none, .file id => .ok { d with nodes := d.nodes.insert spot (.file id) }

/-- The disk once a file has the target's name in place of its own. -/
def renamed (d : Disk) (source target : Path) : Except IoError Disk := do
  checkText source
  checkText target
  let origin ← d.place source
  let id ← d.fileAt source
  let spot ← d.place target
  match d.node? spot with
  | some .directory => .error ⟨.isDirectory, none⟩
  | _ => .ok { d with nodes := (d.nodes.erase origin).insert spot (.file id) }

/-! ## Actions -/

/-- Something done to a disk, which keeps what was done before a failure. -/
abbrev Action (ε α : Type) := ExceptT ε (StateM Disk) α

/-- Asks the plan of failures whether the next operation goes through. -/
def consult (op : DiskOperation) : StateM Disk (Option DiskFault) := do
  let d ← get
  set { d with outage := d.outage.later }
  return d.outage 0 op

/-- Runs an operation that answers something, unless it is refused. -/
def query {α : Type} (op : DiskOperation) (f : Disk → Except IoError α) : Action IoError α := do
  match ← consult op with
  | some fault => throw fault.error
  | none => ofExcept (f (← get))

/-- Runs an operation that changes the disk, unless it is refused. -/
def change (op : DiskOperation) (f : Disk → Except IoError Disk) : Action IoError Unit := do
  set (← query op f)

def makeDirectory (p : Path) : Action IoError Unit :=
  change .makeDirectory (·.withDirectory p)

/-- Makes the first of the paths a directory, each being the parent of the one before it. -/
def makeDirectoriesFrom : List Path → Action IoError Unit
  | [] => pure ()
  | p :: parents => do
    try makeDirectory p
    catch e =>
      if e.kind = .notFound then
        makeDirectoriesFrom parents
        try makeDirectory p
        catch e => unless (← get).isDirectory p do throw e
      else unless (← get).isDirectory p do throw e

/-- A path and the directories it is inside of, innermost first. -/
def ancestors (p : Path) : List Path :=
  p :: (List.range p.components.length).filterMap fun n =>
    let cs := p.components.take (p.components.length - 1 - n)
    if cs = [] then none else some (.ofComponents cs)

/-- Makes a path a directory, inside directories made as needed. The empty path stands for where one
is already. -/
def makeDirectories (p : Path) : Action IoError Unit :=
  if p.components = [] then return () else makeDirectoriesFrom (ancestors p)

/-- Makes the directory that a path is in. -/
def makeParents (p : Path) : Action IoError Unit := do
  if let some dir := p.parent? then makeDirectories dir

/-- Opens a directory, to have its names written down. -/
def openDirectory (p : Path) : Action IoError Unit :=
  query .list fun d => (d.find p).map fun _ => ()

/-- Has the name of a file written down that was led elsewhere. -/
def settle (p : Path) : Action IoError Unit := do
  if let some dir := p.parent? then openDirectory dir

/-- Makes a path lead to an empty file: a new one, or the one it leads to already. -/
def createFile (p : Path) : Action IoError FileId := do
  let (id, d) ← query .create (·.withFile p)
  set (d.withContent id [])
  return id

/-- Makes a path lead to a file, to write at its end. -/
def openFile (p : Path) : Action IoError FileId := do
  let (id, d) ← query .create (·.withFile p)
  set d
  return id

/-- Writes at the end of a file. -/
def append (id : FileId) (b : Bytes) : Action IoError Unit := do
  let fault ← consult .append
  let written := match fault with
    | none => b
    | some f => b.take f.written
  modify fun d => d.withContent id (d.content id ++ written)
  if let some f := fault then throw f.error

def readAll (p : Path) : Action IoError Bytes := query .read (·.bytesAt p)

/-- Reads a file by mapping it into memory, which a directory has no way to be. -/
def mapFile (p : Path) : Action IoError Bytes :=
  query .read fun d => if d.isDirectory p then .error ⟨.noDevice, none⟩ else d.bytesAt p

def listDirectory (p : Path) : Action IoError (List String) := query .list (·.namesIn p)

def link (source target : Path) : Action IoError Unit := change .link (·.linked source target)

def rename (source target : Path) : Action IoError Unit :=
  change .rename (·.renamed source target)

def removeFile (p : Path) : Action IoError Unit := change .remove (·.withoutName p)

/-- Removes a file that need not be there, and tells whether it was. -/
def discardFile (p : Path) : Action IoError Bool := do
  try
    removeFile p
    pure true
  catch e => if e.kind = .notFound then pure false else throw e

/-- Makes a path lead to a file with the given bytes. -/
def writeFile (p : Path) (b : Bytes) : Action IoError Unit := do
  append (← createFile p) b

end Disk

end Lineage
