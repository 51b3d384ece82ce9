import Lineage.Graph.Basic

/-!
# Expired history

When compactions are dropped, their inputs go, and with them the older files that only lead to
history no surviving file has: an older file stays while a newer one outside of what is removed
still leads to it.
-/

namespace Lineage.Graph

/-- The files that any of the given ones replaced. -/
def olderThanAny (g : Graph) (names : Names) : Names :=
  names.foldl (fun found n => found ∪ g.olderThan n) ∅

theorem mem_olderThanAny {g : Graph} {names : Names} {x : String} :
    x ∈ g.olderThanAny names ↔ ∃ n ∈ names, x ∈ g.olderThan n := by
  have mem_foldl (l : List String) (acc : Names) :
      x ∈ l.foldl (fun found n => found ∪ g.olderThan n) acc ↔
        x ∈ acc ∨ ∃ n ∈ l, x ∈ g.olderThan n := by
    induction l generalizing acc with
    | nil => simp
    | cons n r ih => simp [ih, or_assoc]
  simp [olderThanAny, Std.ExtTreeSet.foldl_eq_foldl_toList, mem_foldl]

/-- Goes on from the names met last to the older ones not met before, until there is none. -/
def reachFrom (g : Graph) : (fuel : Nat) → (met last : Names) → Names
  | 0, met, _ => met
  | fuel + 1, met, last =>
    let found := (g.olderThanAny last).filter (· ∉ met)
    if found.isEmpty then met else g.reachFrom fuel (met ∪ found) found

/-- Some names and those that they lead to. Every step that finds something finds an end of an
edge, so there are no more of them than edges. -/
def reach (g : Graph) (names : Names) : Names :=
  g.reachFrom (g.edgeCount + 1) names names

/-- Whether a name may be removed with the others: it has to, or no newer file stays. -/
def removable (g : Graph) (expired names : Names) (n : String) : Bool :=
  n ∈ expired || (g.newerThan n).toList.all (· ∈ names)

/-- The names that may be removed with the others. -/
def removableOf (g : Graph) (expired names : Names) : Names :=
  names.filter (g.removable expired names)

/-- Leaves out names that may not be removed, again and again until all may. -/
def shrink (g : Graph) (expired names : Names) : Names :=
  if (g.removableOf expired names).size < names.size then
    g.shrink expired (g.removableOf expired names)
  else names
termination_by names.size

/-- The names to remove when some files expire. -/
def expiring (g : Graph) (start : List String) : Names :=
  let expired := Std.ExtTreeSet.ofList (start.filter g.contains)
  g.shrink expired (g.reach expired)

/-- Removes expired files and the history that only leads from them; gives the names removed. -/
def expire (g : Graph) (start : List String) : Names × Graph :=
  let names := g.expiring start
  (names, g.without names)

end Lineage.Graph
