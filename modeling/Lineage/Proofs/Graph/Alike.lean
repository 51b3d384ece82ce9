import Lineage.Graph.Walk

/-!
# Graphs that classify alike

A walk asks of a file which older ones it replaced, and how old it is if there are any; whether a
file without older ones has a node at all does not matter to it. So graphs that agree on this
(`Alike`) classify the files of any two snapshots in the same way (`Alike.classify_eq`).
-/

namespace Lineage.Graph

variable {g g' : Graph} {later earlier : Names} {generation : UInt64} {n : String}
  {c : Classification} {next : Names} {level : List String} {left maxLevels : Nat}

/-- Two graphs have the same edges, and the files that they lead from are of the same age. -/
structure Alike (g g' : Graph) : Prop where
  older : ∀ n, g.olderThan n = g'.olderThan n
  generation : ∀ n, g.replacedAny n = true →
    (g.node? n).map GraphNode.generation = (g'.node? n).map GraphNode.generation

theorem Alike.replacedAny_eq (h : Alike g g') : g.replacedAny n = g'.replacedAny n := by
  rw [replacedAny, replacedAny, h.older]

/-- Whether a walk goes on is a matter of the edges and the age. -/
theorem expandable_eq : g.expandable generation n = ((g.replacedAny n) &&
    ((g.node? n).map GraphNode.generation).any fun old => decide (generation ≤ old)) := by
  rw [expandable]
  cases g.node? n with
  | none => exact (Bool.and_false _).symm
  | some m =>
    rw [Option.map_some, Option.any_some, Bool.and_comm]
    exact (Bool.decide_and _ _).trans (congrArg _ Bool.decide_eq_true)

theorem Alike.expandable_eq (h : Alike g g') :
    g.expandable generation n = g'.expandable generation n := by
  rw [Graph.expandable_eq, Graph.expandable_eq, ← h.replacedAny_eq]
  cases hn : g.replacedAny n with
  | false => rfl
  | true => rw [h.generation n hn]

theorem Alike.visitLevel_eq (h : Alike g g') :
    g.visitLevel earlier generation (c, next) level =
      g'.visitLevel earlier generation (c, next) level := by
  induction level generalizing c next with
  | nil => rfl
  | cons n rest ih =>
    rw [visitLevel, visitLevel, h.expandable_eq, h.older]
    split
    · exact ih
    · exact ih

theorem Alike.walk_eq (h : Alike g g') :
    g.walk earlier generation left c level = g'.walk earlier generation left c level := by
  induction left generalizing c level with
  | zero => cases level <;> rfl
  | succ left ih =>
    cases level with
    | nil => rfl
    | cons n rest =>
      rw [walk, walk, h.visitLevel_eq]
      exact ih

/-- A file that a walk does not go on from may differ, as one without a node does. -/
theorem walk_of_not_replacedAny (hn : g.replacedAny n = false) :
    g.walk earlier generation (left + 1) c [n] = some (c.addDifferent n) := by
  have hstop : g.expandable generation n = false := by
    rw [expandable_eq, hn]
    rfl
  have hnext : (∅ : Names).toList = [] := Std.ExtTreeSet.toList_eq_nil_iff.mpr rfl
  rw [walk, visitLevel, hstop, if_neg Bool.false_ne_true, visitLevel]
  dsimp only
  rw [hnext, walk]

theorem Alike.walkAll_eq (h : Alike g g') :
    g.walkAll earlier generation (left + 1) c level =
      g'.walkAll earlier generation (left + 1) c level := by
  induction level generalizing c with
  | nil => rfl
  | cons n rest ih =>
    rw [walkAll, walkAll]
    split
    · exact ih
    · cases hn : g.replacedAny n with
      | true =>
        have hcontains : g.contains n = g'.contains n := by
          have hnode := congrArg Option.isSome (h.generation n hn)
          simp only [Option.isSome_map, node?, Std.ExtTreeMap.isSome_getElem?_eq_contains] at hnode
          exact hnode
        rw [hcontains, h.walk_eq]
        split
        · exact Option.bind_congr fun c _ => ih
        · exact ih
      | false =>
        -- Both sides come to the same whether or not they have the node.
        rw [walk_of_not_replacedAny hn, walk_of_not_replacedAny (h.replacedAny_eq ▸ hn)]
        simp only [Option.bind_eq_bind, Option.bind_some, ite_self]
        exact ih

/-- Graphs that are alike classify alike, as long as more than one level is allowed. -/
theorem Alike.classify_eq (h : Alike g g') (hlevels : 2 ≤ maxLevels) :
    g.classify later earlier generation maxLevels =
      g'.classify later earlier generation maxLevels := by
  obtain ⟨left, rfl⟩ : ∃ left, maxLevels = left + 1 + 1 := ⟨maxLevels - 2, by omega⟩
  rw [classify, classify, Nat.add_sub_cancel, h.walkAll_eq]

end Lineage.Graph
