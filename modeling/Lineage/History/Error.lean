import Lineage.History.RowKey
import Lineage.Text.Quoted

/-!
# Unreadable history

What can be wrong with recorded history: a row that does not follow its layout, a key that is none,
or a line of a text log with a number that is none.
-/

namespace Lineage.History

/-- The number that a line of a text log should hold. -/
inductive LineNumber where
  | creationTime
  | sequence
  deriving DecidableEq, Repr

def LineNumber.words : LineNumber → String
  | .creationTime => "snapshot creation time is not a number"
  | .sequence => "sequence number is not a number"

inductive Error where
  | layout (e : Wire.Error)
  | key (key : Bytes)
  | line (line : String) (number : LineNumber)
  deriving DecidableEq, Repr

def Error.message : Error → String
  | .layout e => "codec error: " ++ e.message
  | .key k => "malformed log key: " ++ Text.quote (Utf8.decodeLossy k)
  | .line l n => "corrupt legacy log line " ++ Text.quote l ++ ": " ++ n.words

/-- The compaction in a row. -/
def readRow (value : Bytes) : Except Error Compaction :=
  (Compaction.decode value).mapError .layout

/-- The sequence number and the time in a key. -/
def readKey (key : Bytes) : Except Error (UInt64 × UInt64) :=
  match RowKey.parse? key with
  | some r => .ok r
  | none => .error (.key key)

end Lineage.History
