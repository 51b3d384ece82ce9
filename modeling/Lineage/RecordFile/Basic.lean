import Lineage.Disk.Basic
import Lineage.RecordFile.Frame
import Lineage.Text.Quoted

/-!
# Tables kept in a record file

The rows of a table are in memory; each change is written at the end of a file before it is made.
Opening the file replays its records, drops a record that is not whole at its end, and writes the
file anew if there was one or if it holds many more records than rows.
-/

namespace Lineage

/-- Why a table does not answer. -/
inductive TableError where
  | io (e : IoError)
  | layout (e : Wire.Error)
  /-- A record that is not the last does not agree with its checksum. -/
  | damaged (path : Path) (offset : Nat)
  deriving DecidableEq, Repr

def TableError.message? : TableError → Option String
  | .io e => e.message? "io error: "
  | .layout e => some ("codec error: " ++ e.message)
  | .damaged p offset =>
    some s!"table {Text.quote p.text} corrupt at offset {offset}: record checksum mismatch"

namespace RecordFile

/-! ## Replay -/

/-- What the records of a file come to. -/
structure Replayed where
  rows : Rows := ∅
  records : Nat := 0
  /-- The length of the whole records. -/
  length : Nat := 0

/-- One more record. -/
def Replayed.take (s : Replayed) (r : Record) (payload : Bytes) : Replayed where
  rows := r.applyTo s.rows
  records := s.records + 1
  length := s.length + headerSize + payload.length

/-- Replays the records that follow those already replayed. -/
def replayFrom (p : Path) (s : Replayed) (b : Bytes) : Except TableError Replayed :=
  match _h : head b with
  | .torn => .ok s
  | .damaged => .error (.damaged p s.length)
  | .record payload rest =>
    match Record.format.decode payload with
    | .error e => .error (.layout e)
    | .ok r => replayFrom p (s.take r payload) rest
termination_by b.length
decreasing_by exact length_lt_of_head ‹_›

/-- Replays the bytes of a file. -/
def replay (p : Path) (b : Bytes) : Except TableError Replayed := replayFrom p {} b

/-! ## Opening -/

/-- The frames of records that make up the given rows. -/
def snapshot (rows : Rows) : Bytes :=
  rows.toList.flatMap fun (k, v) => (Record.put k v).frame

/-- Whether a file is to be written anew: its end is torn, or it has more records than `ratio` for
each row. -/
def stale (s : Replayed) (size ratio : Nat) : Bool :=
  s.length < size ∨ max s.rows.size 1 * max ratio 1 < s.records

/-- Writes a file anew beside the old one and puts it in its place. -/
def renew (p : Path) (rows : Rows) : Disk.Action IoError Unit := do
  let fresh := p.withExtension "rewrite.tmp"
  Disk.writeFile fresh (snapshot rows)
  Disk.rename fresh p
  Disk.settle p

/-- Writes a file anew if it is stale. -/
def refresh (p : Path) (s : Replayed) (size ratio : Nat) : Disk.Action IoError Unit :=
  if stale s size ratio then renew p s.rows else pure ()

/-- The bytes of a file that need not be there. -/
def readIfPresent (p : Path) : Disk.Action IoError Bytes := do
  try Disk.readAll p
  catch e => if e.kind = .notFound then pure [] else throw e

end RecordFile

/-- A table kept in a record file. -/
structure RecordFile where
  path : Path
  /-- The file that changes go to, wherever the path leads by now. -/
  file : FileId
  rows : Rows
  deriving DecidableEq

namespace RecordFile

/-- Opens the table at a path, an empty one if there is no file. -/
def openAt (p : Path) (ratio : Nat) : Disk.Action TableError RecordFile := do
  ExceptT.adapt .io (Disk.makeParents p)
  let b ← ExceptT.adapt .io (readIfPresent p)
  let s ← ofExcept (replay p b)
  ExceptT.adapt .io (refresh p s b.length ratio)
  let file ← ExceptT.adapt .io (Disk.openFile p)
  return { path := p, file, rows := s.rows }

/-! ## Changes -/

/-- Writes a change and makes it. -/
def change (t : RecordFile) (r : Record) : Disk.Action TableError RecordFile := do
  ExceptT.adapt .io (Disk.append t.file r.frame)
  return { t with rows := r.applyTo t.rows }

def put (t : RecordFile) (key value : Bytes) : Disk.Action TableError RecordFile :=
  t.change (.put key value)

/-- Deletes a row; one that is not there leaves no record. -/
def delete (t : RecordFile) (key : Bytes) : Disk.Action TableError RecordFile :=
  if t.rows.contains key then t.change (.delete key) else return t

end RecordFile

end Lineage
