import Lineage.Disk.Path

/-!
# Names of sorted tables

A sorted table is a file whose name has a fixed ending; the file is known by what stands before it.
-/

namespace Lineage.SortedTable

def ending : List Char := ".sst".toList

/-- A text without the given end. -/
def dropEnd? (s : String) (tail : List Char) : Option String :=
  (tail.reverse.isPrefixOf? s.toList.reverse).map fun cs => String.ofList cs.reverse

/-- The name of the table at a path, if the path is one of a table. -/
def nameAt? (p : Path) : Option String := do
  let stem ← dropEnd? (← p.fileName?) ending
  if stem = "" then none else some stem

/-- The path of the table with the given name inside a directory. -/
def pathIn (dir : Path) (name : String) : Path :=
  dir.join (name ++ String.ofList ending)

end Lineage.SortedTable
