import Lineage.Tracker.Basic

/-!
# Registered trackers

Two trackers on one directory would write the same files, so those who open the same directory share
one. A registry knows the tracker of each directory; a closed one is replaced when its directory is
opened again.
-/

namespace Lineage

/-- The trackers opened so far, and which of them is held for each directory. -/
structure Registry where
  opened : List Tracker := []
  held : Std.ExtTreeMap String Nat := ∅

namespace Registry

/-- What directories are told apart by. -/
def key (dir : Path) : String := (Path.ofComponents dir.components).text

/-- The number of the tracker held for a directory. -/
def get? (r : Registry) (dir : Path) : Option Nat := r.held[key dir]?

/-- The tracker with a number. -/
def tracker? (r : Registry) (n : Nat) : Option Tracker := r.opened[n]?

/-- Whether the tracker with a number is open. -/
def isOpen (r : Registry) (n : Nat) : Bool :=
  match r.tracker? n with
  | some t => !t.closed
  | none => false

/-- The number of the open tracker held for a directory. -/
def reusable? (r : Registry) (dir : Path) : Option Nat := (r.get? dir).filter r.isOpen

/-- Adds a tracker and holds it for a directory. -/
def hold (r : Registry) (dir : Path) (t : Tracker) : Registry where
  opened := r.opened ++ [t]
  held := r.held.insert (key dir) r.opened.length

/-- A registry and the disk that its trackers are opened on. -/
structure Setting where
  registry : Registry := {}
  disk : Disk

/-- Runs an action on the disk. -/
def onDisk {ε α : Type} (a : Disk.Action ε α) : ExceptT ε (StateM Setting) α := fun s =>
  let (r, disk) := a s.disk
  (r, { s with disk })

/-- The open tracker held for a directory, or else a new one. The options are for a new one only. -/
def openAt (dir : Path) (o : Options) : ExceptT IoError (StateM Setting) Nat := do
  let s ← get
  match s.registry.reusable? dir with
  | some n => return n
  | none =>
    let t ← onDisk (Tracker.openAt dir o)
    modify ({ · with registry := s.registry.hold dir t })
    return s.registry.opened.length

/-- Closes the tracker with a number, held or not. -/
def closeTracker (r : Registry) (n : Nat) : Registry :=
  { r with opened := r.opened.modify n Tracker.close }

/-- Closes and forgets the tracker held for a directory, and tells whether there was one. -/
def close (r : Registry) (dir : Path) : Bool × Registry :=
  match r.get? dir with
  | none => (false, r)
  | some n => (true, { r.closeTracker n with held := r.held.erase (key dir) })

/-- Closes and forgets all trackers that are held. -/
def closeAll (r : Registry) : Registry :=
  { (r.held.toList.map Prod.snd).foldl closeTracker r with held := ∅ }

def size (r : Registry) : Nat := r.held.size

end Registry

end Lineage
