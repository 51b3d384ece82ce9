import Lineage.TextLog.Line
import Lineage.Disk.Basic

/-!
# Replaying text logs

A compaction takes its reason and its time from the lines before it. They carry over from one log to
the next, and what was read before a failure stays read.
-/

namespace Lineage.TextLog

/-- What later lines take from earlier ones. -/
structure Replay where
  reason : Option String := none
  creationTime : UInt64 := 0
  deriving DecidableEq, Repr

inductive Error where
  | io (e : IoError)
  | history (e : History.Error)
  deriving DecidableEq, Repr

def Error.message? : Error → Option String
  | .io e => e.message?
  | .history e => some e.message

/-- Takes in a line that was read, and gives the compaction it tells of. -/
def Replay.take (r : Replay) : Line → Option Compaction × Replay
  | .reason text => (none, { r with reason := some text })
  | .snapshot t => (none, { r with creationTime := t })
  | .compaction n inputs outputs =>
    (some ⟨n, r.creationTime, inputs.map ({ name := · }), outputs.map ({ name := · }), r.reason⟩, r)
  | .deletion | .invalid => (none, r)

/-- Takes in a line; one that cannot be read changes nothing. -/
def Replay.apply (r : Replay) (line : String) : Except History.Error (Option Compaction × Replay) :=
  (parse line).map r.take

/-! ## Files -/

/-- The lines of a file: what stands between newlines, less one carriage return before a newline.
What follows the last newline is a line if it is anything. -/
def linesOf (b : Bytes) : List Bytes :=
  let pieces := b.splitOn 10
  let ended := pieces.dropLast.map fun l => if l.getLast? = some 13 then l.dropLast else l
  ended ++ (pieces.getLast?.toList.filter (· ≠ []))

/-- The failure to read a line that is no text. -/
def notText : IoError := ⟨.invalidData, some "stream did not contain valid UTF-8"⟩

/-- Replays lines in order up to the first that fails. -/
def Replay.runLines (r : Replay) : List Bytes → Except Error (List Compaction) × Replay
  | [] => (.ok [], r)
  | l :: rest =>
    match Utf8.decode l with
    | .error _ => (.error (.io notText), r)
    | .ok s =>
      match r.apply s with
      | .error e => (.error (.history e), r)
      | .ok (c, r') =>
        let (cs, r'') := r'.runLines rest
        (cs.map (c.toList ++ ·), r'')

/-- The compactions that the bytes of a log tell of. -/
def Replay.run (r : Replay) (b : Bytes) : Except Error (List Compaction) × Replay :=
  r.runLines (linesOf b)

/-- Writes lines at the end of a log file, a new one if there is none. -/
def extend (p : Path) (lines : List String) : Disk.Action IoError Unit := do
  Disk.append (← Disk.openFile p) (bytesOf lines)

/-- The compactions that a log file tells of. -/
def Replay.runFile (r : Replay) (p : Path) :
    StateM Disk (Except Error (List Compaction) × Replay) := do
  match ← Disk.readAll p with
  | .error e => return (.error (.io e), r)
  | .ok b => return r.run b

end Lineage.TextLog
