import Mathlib.Algebra.GroupWithZero.Nat
import Lineage.Proofs.Graph.Generations
import Lineage.Proofs.Graph.Orders
import Lineage.Proofs.Graph.Replaying

/-!
# How many entries a file replaced

A node sums up the numbers of entries of the files that its file replaced, edge by edge and up to
the largest word. Where of each file one number is told throughout, that sum is the one over the
older neighbours, each taken once, or the largest word if they exceed it
(`Totalled.foldl_addCompaction`). As the older neighbours do not depend on the order in which
compactions are added, neither does the sum (`replacedKeys_eq_total`).
-/

namespace Lineage

/-- The sum of two words is cut off at the largest one. -/
theorem toNat_saturatingAdd (a b : UInt64) :
    (saturatingAdd a b).toNat = min (UInt64.size - 1) (a.toNat + b.toNat) := by
  unfold saturatingAdd
  split
  · rename_i h
    rw [UInt64.toNat_add, Nat.mod_eq_of_lt h]
    omega
  · rename_i h
    have hlargest : (0xFFFFFFFFFFFFFFFF : UInt64).toNat = UInt64.size - 1 := rfl
    omega

/-- Of each of its files a compaction tells the number of entries that `size` gives. -/
def Compaction.Tells (size : String → UInt64) (c : Compaction) : Prop :=
  ∀ i ∈ c.files, i.keys = some (size i.name)

instance {size : String → UInt64} {c : Compaction} : Decidable (c.Tells size) :=
  inferInstanceAs (Decidable (∀ i ∈ c.files, i.keys = some (size i.name)))

namespace Graph

variable {g : Graph} {size : String → UInt64} {names : Names} {c : Compaction}
  {cs cs' : List Compaction} {infos : List FileInfo} {i : FileInfo} {generation : UInt64}
  {a b n x : String}

/-! ## Sums over sets of files -/

/-- The number of entries of all files of a set. -/
def total (size : String → UInt64) (names : Names) : Nat :=
  (names.toList.map fun n => (size n).toNat).sum

theorem total_empty : total size ∅ = 0 := by
  rw [total, Std.ExtTreeSet.toList_eq_nil_iff.mpr rfl]
  rfl

theorem nodup_toList : names.toList.Nodup :=
  Std.ExtTreeSet.distinct_toList.imp fun hne he => hne (Std.compare_eq_iff_eq.mpr he)

theorem enumerates_insert (hx : x ∉ names) : Enumerates (x :: names.toList) (names.insert x) := by
  refine (List.perm_ext_iff_of_nodup ?_ nodup_toList).mpr fun n => ?_
  · exact List.nodup_cons.mpr ⟨fun h => hx (Std.ExtTreeSet.mem_toList.mp h), nodup_toList⟩
  · rw [List.mem_cons, Std.ExtTreeSet.mem_toList, Std.ExtTreeSet.mem_toList,
      Std.ExtTreeSet.mem_insert, Std.compare_eq_iff_eq, eq_comm]

theorem Enumerates.sum_eq_total {l : List String} (h : Enumerates l names) :
    (l.map fun n => (size n).toNat).sum = total size names :=
  (h.map _).sum_nat

theorem total_insert (hx : x ∉ names) :
    total size (names.insert x) = total size names + (size x).toNat := by
  rw [← (enumerates_insert hx).sum_eq_total, List.map_cons, List.sum_cons, Nat.add_comm]
  rfl

/-! ## Sums in a graph -/

/-- The number of entries that a file replaced, as far as it is known. -/
def replacedKeysOf (g : Graph) (name : String) : UInt64 :=
  ((g.node? name).map GraphNode.replacedKeys).getD 0

theorem map_replacedKeys : (g.node? n).map GraphNode.replacedKeys =
    if g.contains n then some (g.replacedKeysOf n) else none := by
  rw [contains_eq_isSome_node?, replacedKeysOf]
  cases g.node? n <;> rfl

theorem replacedKeysOf_addFile : (g.addFile i generation).replacedKeysOf n = g.replacedKeysOf n := by
  simp only [replacedKeysOf, node?, addFile, Std.ExtTreeMap.getElem?_insert, Std.compare_eq_iff_eq]
  split
  · rename_i hn
    subst hn
    cases g.nodes[i.name]? <;> cases i.keys <;> rfl
  · rfl

theorem replacedKeysOf_addEdge (hnew : a ≠ b ∧ b ∉ g.olderThan a) (ha : g.contains a = true) :
    (g.addEdge a b).replacedKeysOf a = saturatingAdd (g.replacedKeysOf a) (g.keysOf b) := by
  rw [contains_eq_isSome_node?, Option.isSome_iff_exists] at ha
  obtain ⟨m, hm⟩ := ha
  rw [replacedKeysOf, node?_addEdge, if_pos ⟨rfl, hnew⟩, replacedKeysOf, hm]
  rfl

theorem replacedKeysOf_addEdge_of_ne (hn : n ≠ a) :
    (g.addEdge a b).replacedKeysOf n = g.replacedKeysOf n := by
  rw [replacedKeysOf, node?_addEdge, if_neg fun h => hn h.1, replacedKeysOf]

theorem olderThan_addEdge (hab : a ≠ b) :
    (g.addEdge a b).olderThan a = (g.olderThan a).insert b := by
  refine Std.ExtTreeSet.ext_mem fun x => ?_
  rw [mem_olderThan_addEdge, Std.ExtTreeSet.mem_insert, Std.compare_eq_iff_eq]
  grind

theorem olderThan_addEdge_of_ne (hn : n ≠ a) : (g.addEdge a b).olderThan n = g.olderThan n := by
  refine Std.ExtTreeSet.ext_mem fun x => ?_
  rw [mem_olderThan_addEdge, or_iff_left fun h => hn h.1]

/-- The sums in a graph are those over the older neighbours, up to the largest word. -/
def Totalled (size : String → UInt64) (g : Graph) : Prop :=
  ∀ n, (g.replacedKeysOf n).toNat = min (UInt64.size - 1) (total size (g.olderThan n))

theorem totalled_empty : Totalled size {} := by
  intro n
  have hnone : ({} : Graph).olderThan n = ∅ := rfl
  rw [hnone, total_empty]
  rfl

theorem Totalled.addFile (h : Totalled size g) (i : FileInfo) :
    Totalled size (g.addFile i generation) := by
  intro n
  rw [replacedKeysOf_addFile, olderThan_addFile]
  exact h n

/-- A new edge adds to the sum what it adds to the older neighbours; one that is there already adds
to neither. -/
theorem Totalled.addEdge (h : Totalled size g) (ha : g.contains a = true)
    (hb : g.keysOf b = size b) : Totalled size (g.addEdge a b) := by
  by_cases hknown : a = b ∨ b ∈ g.olderThan a
  · rwa [Graph.addEdge, if_pos hknown]
  · rw [not_or] at hknown
    intro n
    by_cases hn : n = a
    · subst hn
      rw [replacedKeysOf_addEdge hknown ha, toNat_saturatingAdd, olderThan_addEdge hknown.1,
        total_insert hknown.2, h n, hb]
      -- What was cut off before stays cut off.
      omega
    · rw [replacedKeysOf_addEdge_of_ne hn, olderThan_addEdge_of_ne hn]
      exact h n

/-! ## Compactions -/

/-- Where of each file one number is told, it is the one told last. -/
theorem told_eq_ite (h : ∀ i ∈ infos, i.keys = some (size i.name)) :
    told infos n = if n ∈ infos.map FileInfo.name then some (size n) else none := by
  induction infos with
  | nil => rfl
  | cons i rest ih =>
    rw [List.forall_mem_cons] at h
    rw [told_cons, ih h.2, told_singleton, h.1, List.map_cons]
    grind

/-- The files of a compaction have nodes with the numbers it tells before any edge is added. -/
theorem map_keys_of_tells (h : c.Tells size) (hi : i ∈ c.files) :
    ((c.files.foldl (fun g i => g.addFile i generation) g).node? i.name).map GraphNode.keys =
      some (size i.name) := by
  apply map_keys_foldl_addFile
  rw [told_eq_ite h, if_pos (List.mem_map_of_mem hi), Option.some_or]

theorem Totalled.addCompaction (h : Totalled size g) (hc : c.Tells size) :
    Totalled size (g.addCompaction c) := by
  rw [Graph.addCompaction, Graph.add]
  refine (edges_induction (P := fun g => Totalled size g ∧
    ∀ i ∈ c.files, (g.node? i.name).map GraphNode.keys = some (size i.name)) ?_ ⟨?_, ?_⟩).1
  · rintro g ⟨hg, hkeys⟩ o ho i hi
    have hnewer := hkeys o (List.mem_append_left _ ho)
    have holder := hkeys i (List.mem_append_right _ hi)
    refine ⟨hg.addEdge ?_ ?_, fun j hj => ?_⟩
    · rw [contains_eq_isSome_node?, ← Option.isSome_map, hnewer]
      rfl
    · rw [keysOf, holder]
      rfl
    · rw [map_keys_addEdge]
      exact hkeys j hj
  · exact List.foldlRecOn _ _ h fun _ hg i _ => hg.addFile i
  · exact fun i hi => map_keys_of_tells hc hi

theorem Totalled.foldl_addCompaction (h : Totalled size g) (hcs : ∀ c ∈ cs, c.Tells size) :
    Totalled size (cs.foldl Graph.addCompaction g) :=
  List.foldlRecOn _ _ h fun _ hg c hc => hg.addCompaction (hcs c hc)

theorem totalled_history (h : ∀ c ∈ cs, c.Tells size) : Totalled size (history cs) :=
  totalled_empty.foldl_addCompaction h

/-! ## Orders of compactions -/

theorem olderThan_history_congr (h : ∀ c, c ∈ cs' ↔ c ∈ cs) :
    (history cs').olderThan n = (history cs).olderThan n := by
  refine Std.ExtTreeSet.ext_mem fun x => ?_
  rw [← Edge, ← Edge, edge_history, edge_history]
  simp only [h]

theorem contains_history_congr (h : ∀ c, c ∈ cs' ↔ c ∈ cs) :
    (history cs').contains n = (history cs).contains n := by
  rw [Bool.eq_iff_iff, history, history, contains_foldl_addCompaction, contains_foldl_addCompaction]
  simp only [h]

/-- If of each file one number of entries is told throughout, every node has replaced the numbers of
its distinct older neighbours, or the largest word if they come to more. So it is the same in
whatever order the compactions are added, and however often. -/
theorem replacedKeys_eq_total (h : ∀ c ∈ cs, c.Tells size) :
    (∀ n m, (history cs).node? n = some m → m.replacedKeys.toNat =
      min (UInt64.size - 1) (total size ((history cs).olderThan n))) ∧
    ∀ cs', (∀ c, c ∈ cs' ↔ c ∈ cs) → ∀ n,
      ((history cs').node? n).map GraphNode.replacedKeys =
        ((history cs).node? n).map GraphNode.replacedKeys := by
  have htotal := totalled_history h
  refine ⟨fun n m hm => ?_, fun cs' hsame n => ?_⟩
  · rw [← htotal n, replacedKeysOf, hm]
    rfl
  · have htotal' := totalled_history fun c hc => h c ((hsame c).mp hc)
    have hreplaced : (history cs').replacedKeysOf n = (history cs).replacedKeysOf n := by
      rw [← UInt64.toNat_inj, htotal, htotal', olderThan_history_congr hsame]
    rw [map_replacedKeys, map_replacedKeys, contains_history_congr hsame, hreplaced]

end Graph

end Lineage

namespace Lineage.Sample

open Lineage.Graph

def entries (name : String) : UInt64 :=
  if name = "a" then 10 else if name = "b" then 5 else if name = "c" then 12 else 0xFFFFFFFFFFFFFFF8

def counted (name : String) : FileInfo := { name := name, keys := some (entries name) }

/-- The file `a` is named twice and `b` on both sides, the first compaction comes again, and `d` is
so large that its entries and those of `c` are more than a word can tell. -/
def repeated : List Compaction :=
  [{ sequence := 1, time := 0, inputs := [counted "a", counted "b", counted "a"],
      outputs := [counted "b", counted "c"] },
    { sequence := 2, time := 0, inputs := [counted "c", counted "d"], outputs := [counted "e"] },
    { sequence := 1, time := 0, inputs := [counted "a", counted "b", counted "a"],
      outputs := [counted "b", counted "c"] }]

theorem replacedKeys_repeated :
    ((∀ c ∈ repeated, c.Tells entries) ∧ ∀ c, c ∈ repeated.reverse ↔ c ∈ repeated) ∧
    (∃ m, (history repeated).node? "c" = some m ∧ m.replacedKeys.toNat = 15) ∧
    (∃ m, (history repeated).node? "e" = some m ∧ m.replacedKeys.toNat = 0xFFFFFFFFFFFFFFFF) ∧
    ((history repeated.reverse).node? "e").map GraphNode.replacedKeys =
      ((history repeated).node? "e").map GraphNode.replacedKeys := by
  have htells : ∀ c ∈ repeated, c.Tells entries := by decide
  have hsame : ∀ c, c ∈ repeated.reverse ↔ c ∈ repeated := fun c => List.mem_reverse
  obtain ⟨htotal, horder⟩ := replacedKeys_eq_total htells
  obtain ⟨c, hc⟩ : ∃ m, (history repeated).node? "c" = some m :=
    Option.isSome_iff_exists.mp (by decide +kernel)
  obtain ⟨e, he⟩ : ∃ m, (history repeated).node? "e" = some m :=
    Option.isSome_iff_exists.mp (by decide +kernel)
  refine ⟨⟨htells, hsame⟩, ⟨c, hc, ?_⟩, ⟨e, he, ?_⟩, horder _ hsame "e"⟩
  · rw [htotal "c" c hc]
    decide +kernel
  · rw [htotal "e" e he]
    decide +kernel

end Lineage.Sample
