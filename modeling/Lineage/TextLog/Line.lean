import Lineage.History.Error

/-!
# Lines of a text log

A text log tells a store's history line by line: `# ` and the reason of the compactions to follow,
`S ` and a snapshot's sequence number, id and creation time, `C ` and a compaction's sequence number
and files. The files of a compaction are its inputs and its outputs, each side separated by commas
and the sides by a colon; where nothing follows the colon, files were deleted.
-/

namespace Lineage.TextLog

/-- What a line tells. -/
inductive Line where
  | reason (text : String)
  | snapshot (creationTime : UInt64)
  | compaction (sequence : UInt64) (inputs outputs : List String)
  | deletion
  | invalid
  deriving DecidableEq, Repr

/-! ## Reading -/

/-- The names on one side of a compaction. -/
def namesOf (side : List Char) : List String :=
  ((side.splitOn ',').filter (· ≠ [])).map String.ofList

/-- The files of a compaction and its sequence number, in a line that ends as `line` does. -/
def parseFiles (line : String) (number files : List Char) : Except History.Error Line :=
  match files.splitOn ':' with
  | [inputs, outputs] =>
    if outputs = [] then .ok .deletion
    else match Decimal.readUInt64? number with
      | none => .error (.line line .sequence)
      | some n =>
        if namesOf inputs = [] ∨ namesOf outputs = [] then .ok .invalid
        else .ok (.compaction n (namesOf inputs) (namesOf outputs))
  | _ => .ok (if files.getLast? = some ':' then .deletion else .invalid)

/-- Reads a line. A line of no known form is invalid; one that lacks only a number is an error. -/
def parse (line : String) : Except History.Error Line :=
  match line.toList with
  | '#' :: ' ' :: text => .ok (.reason (String.ofList text))
  | 'S' :: ' ' :: rest =>
    match rest.splitOn ' ' with
    | [_, _, time] =>
      match Decimal.readUInt64? time with
      | none => .error (.line line .creationTime)
      | some t => .ok (.snapshot t)
    | _ => .ok .invalid
  | 'C' :: ' ' :: rest =>
    match rest.splitOn ' ' with
    | [number, files] => parseFiles line number files
    | _ => .ok .invalid
  | _ => .ok .invalid

/-! ## Writing -/

def reasonLine (reason : String) : String := "# " ++ reason

def snapshotLine (sequence : UInt64) (id : String) (creationTime : UInt64) : String :=
  s!"S {sequence.toNat} {id} {creationTime.toNat}"

def compactionLine (sequence : UInt64) (inputs outputs : List String) : String :=
  s!"C {sequence.toNat} " ++ ",".intercalate inputs ++ ":" ++ ",".intercalate outputs

/-- The lines that tell of a compaction. -/
def linesFor (c : Compaction) : List String :=
  (c.reason.map reasonLine).toList ++ [compactionLine c.sequence c.inputNames c.outputNames]

/-- The bytes of lines, each of them ended. -/
def bytesOf (lines : List String) : Bytes :=
  lines.flatMap fun l => Bytes.ofText l ++ [10]

end Lineage.TextLog
