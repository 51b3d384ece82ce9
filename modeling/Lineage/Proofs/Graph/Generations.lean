import Lineage.Proofs.Graph.Reaching
import Lineage.Proofs.Graph.Trimming

/-!
# How old files are

Compactions are added in the order of their sequence numbers, and their outputs are new files
(`Successive`). A file is then as old as the first compaction that names it
(`generation?_foldl_addCompaction`): as the one that it came out of (`Successive.generation_output`),
or else as the first one that consumed it. So ages never grow from newer files to older ones, and
beyond a file that is older than a snapshot there are only such files (`generations_descend`).
-/

namespace Lineage

/-- Whether a compaction names a file. -/
def Compaction.mentions (c : Compaction) (n : String) : Bool :=
  n ∈ c.outputNames ∨ n ∈ c.inputNames

namespace Graph

open Relation (ReflTransGen TransGen)

variable {g : Graph} {cs before later : List Compaction} {c : Compaction} {n x : String}
  {k d : UInt64}

/-- The sequence number that a file is as old as. -/
def generation? (g : Graph) (name : String) : Option UInt64 :=
  (g.node? name).map GraphNode.generation

/-- A file that has no age yet gets that of the compaction which names it. -/
theorem generation?_addCompaction : (g.addCompaction c).generation? n =
    (g.generation? n).or (if c.mentions n then some c.sequence else none) := by
  have hnamed : ((c.outputs ++ c.inputs).find? (·.name = n)).isSome = c.mentions n := by
    rw [Bool.eq_iff_iff, List.find?_isSome]
    simp [Compaction.mentions, Compaction.outputNames, Compaction.inputNames, or_and_right,
      exists_or]
  rw [generation?, generation?, ← map_generation_bare?, ← map_generation_bare?, addCompaction,
    bare?_add, Option.map_or, ← hnamed]
  cases (c.outputs ++ c.inputs).find? (·.name = n) <;> rfl

/-- A file is as old as the first compaction that names it. -/
theorem generation?_foldl_addCompaction : (cs.foldl addCompaction g).generation? n =
    (g.generation? n).or ((cs.find? (·.mentions n)).map Compaction.sequence) := by
  induction cs generalizing g with
  | nil => simp
  | cons c cs ih =>
    rw [List.foldl_cons, ih, generation?_addCompaction, Option.or_assoc, List.find?_cons]
    cases c.mentions n <;> simp

/-- The graph of compactions that are added one after the other. -/
def history (cs : List Compaction) : Graph := cs.foldl addCompaction {}

theorem generation?_history : (history cs).generation? n =
    (cs.find? (·.mentions n)).map Compaction.sequence := by
  rw [history, generation?_foldl_addCompaction]
  simp [generation?, node?]

/-! ## Successive compactions -/

/-- Compactions in the order of their sequence numbers, whose outputs are new files. -/
structure Successive (cs : List Compaction) : Prop where
  own : ∀ c ∈ cs, ∀ n ∈ c.outputNames, n ∉ c.inputNames
  new : cs.Pairwise fun a b => ∀ n ∈ b.outputNames, n ∉ a.outputNames ∧ n ∉ a.inputNames
  ordered : cs.Pairwise fun a b => a.sequence ≤ b.sequence

theorem Successive.sublist {cs' : List Compaction} (h : Successive cs) (hs : cs'.Sublist cs) :
    Successive cs' where
  own c hc := h.own c (hs.subset hc)
  new := h.new.sublist hs
  ordered := h.ordered.sublist hs

/-- What a compaction makes, none before it names. -/
theorem Successive.not_mentions (h : Successive (before ++ c :: later)) (hn : n ∈ c.outputNames) :
    ∀ a ∈ before, a.mentions n = false := by
  intro a ha
  obtain ⟨-, -, hnew⟩ := List.pairwise_append.mp h.new
  have hnot := hnew a ha c List.mem_cons_self n hn
  simp [Compaction.mentions, hnot]

/-- A file is as old as the compaction that it came out of. -/
theorem Successive.generation_output (h : Successive cs) (hc : c ∈ cs) (hn : n ∈ c.outputNames) :
    (history cs).generation? n = some c.sequence := by
  obtain ⟨before, later, rfl⟩ := List.append_of_mem hc
  have hnone : before.find? (·.mentions n) = none :=
    List.find?_eq_none.mpr fun a ha => by simp [h.not_mentions hn a ha]
  have hmentions : c.mentions n = true := by simp [Compaction.mentions, hn]
  rw [generation?_history, List.find?_append, hnone, Option.none_or,
    List.find?_cons, hmentions]
  rfl

/-- A file is at least as old as any compaction that names it. -/
theorem Successive.generation_le (h : Successive cs) (hc : c ∈ cs) (hx : c.mentions x = true) :
    ∃ k ≤ c.sequence, (history cs).generation? x = some k := by
  obtain ⟨before, later, rfl⟩ := List.append_of_mem hc
  obtain ⟨-, -, hordered⟩ := List.pairwise_append.mp h.ordered
  rw [generation?_history, List.find?_append, List.find?_cons, hx]
  cases hfirst : before.find? (·.mentions x) with
  | none => exact ⟨c.sequence, UInt64.le_refl _, rfl⟩
  | some a =>
    exact ⟨a.sequence, hordered a (List.mem_of_find?_eq_some hfirst) c List.mem_cons_self, rfl⟩

/-! ## Edges -/

theorem edge_history : Edge (history cs) n x ↔
    ∃ c ∈ cs, n ∈ c.outputNames ∧ x ∈ c.inputNames ∧ n ≠ x := by
  rw [Edge, history, mem_olderThan_foldl_addCompaction]
  exact or_iff_right Std.ExtTreeSet.not_mem_empty

/-- Along an edge ages do not grow. -/
theorem Successive.edge (h : Successive cs) (he : Edge (history cs) n x) :
    ∃ a b, (history cs).generation? n = some a ∧
      (history cs).generation? x = some b ∧ b ≤ a := by
  obtain ⟨c, hc, hn, hx, -⟩ := edge_history.mp he
  obtain ⟨b, hle, hb⟩ := h.generation_le hc (x := x) (by simp [Compaction.mentions, hx])
  exact ⟨c.sequence, b, h.generation_output hc hn, hb, hle⟩

/-- Each compaction adds a rank, since nothing leads to its outputs yet. -/
theorem Successive.ranked (h : Successive cs) : (history cs).Ranked cs.length := by
  induction cs using List.reverseRecOn with
  | nil => exact ranked_empty
  | append_singleton cs c ih =>
    rw [history, List.foldl_append, List.length_append]
    refine (ih (h.sublist (List.sublist_append_left cs [c]))).addCompaction (h.own c (by simp)) ?_
    intro n hn m hm
    obtain ⟨a, ha, -, hin, -⟩ := edge_history.mp hm
    have hnot := h.not_mentions hn a ha
    simp [Compaction.mentions, hin] at hnot

theorem Ranked.not_transGen {k : Nat} (h : g.Ranked k) : ¬ TransGen g.Edge n n := by
  obtain ⟨rank, -, hlt⟩ := h
  have hdown {m : String} (hm : TransGen g.Edge n m) : rank m < rank n := by
    induction hm with
    | single he => exact hlt _ _ he
    | tail _ he ih => exact Nat.lt_trans (hlt _ _ he) ih
  exact fun hn => Nat.lt_irrefl _ (hdown hn)

/-- Where an older file is met, only such files are to come. -/
theorem Successive.generation_lt (h : Successive cs)
    (hx : ReflTransGen (history cs).Edge n x)
    (hn : (history cs).generation? n = some k) (hk : k < d) :
    ∃ b < d, (history cs).generation? x = some b := by
  induction hx with
  | refl => exact ⟨k, hk, hn⟩
  | tail _ he ih =>
    obtain ⟨b, hb, hm⟩ := ih
    obtain ⟨a, b', ha, hb', hle⟩ := h.edge he
    cases Option.some.inj (hm.symm.trans ha)
    exact ⟨b', UInt64.lt_of_le_of_lt hle hb, hb'⟩

/-- A walk does not go on from a file that is older than the snapshot. -/
theorem expandable_eq_false (h : g.generation? x = some k) (hk : k < d) :
    g.expandable d x = false := by
  obtain ⟨m, hm, rfl⟩ := Option.map_eq_some_iff.mp h
  rw [expandable, hm]
  simp [UInt64.not_le.mpr hk]

/-- There are no cycles. What a compaction makes is as old as the compaction, and nothing that leads
from a file to another one is younger at its older end. So where a walk comes to a file that is older
than the snapshot, all files that the graph leads to from there are older too, and the walk would not
go on from any of them. -/
theorem generations_descend (h : Successive cs) :
    (∀ n, ¬ TransGen (history cs).Edge n n) ∧
    (∀ c ∈ cs, ∀ n ∈ c.outputNames,
      (history cs).generation? n = some c.sequence) ∧
    (∀ n x, (n, x) ∈ (history cs).edges →
      ∃ a b, (history cs).generation? n = some a ∧
        (history cs).generation? x = some b ∧ b ≤ a) ∧
    ∀ n x k d, (history cs).generation? n = some k → k < d →
      ReflTransGen (history cs).Edge n x →
      (∃ b < d, (history cs).generation? x = some b) ∧
        (history cs).expandable d x = false := by
  refine ⟨fun n => h.ranked.not_transGen, fun c hc n hn => h.generation_output hc hn,
    fun n x he => h.edge (mem_edges.mp he), fun n x k d hn hk hx => ?_⟩
  obtain ⟨b, hb, hgen⟩ := h.generation_lt hx hn hk
  exact ⟨⟨b, hb, hgen⟩, expandable_eq_false hgen hb⟩

end Graph

end Lineage

namespace Lineage.Sample

open Relation (ReflTransGen TransGen)
open Lineage.Graph

/-- The file `d` comes in late and is as old as the compaction that consumed it; `a` is older than a
snapshot of that age, as is `c` that leads to it. -/
theorem generations_merging :
    (Successive merging ∧ (1 : UInt64) < 2 ∧ (history merging).generation? "c" = some 1 ∧
      ReflTransGen (history merging).Edge "c" "a") ∧
    ¬ TransGen (history merging).Edge "g" "g" ∧
    (history merging).generation? "g" = some 3 ∧
    (∃ a b, (history merging).generation? "e" = some a ∧
      (history merging).generation? "d" = some b ∧ b ≤ a) ∧
    (∃ b < 2, (history merging).generation? "a" = some b) ∧
    (history merging).expandable 2 "a" = false := by
  have h : Successive merging := ⟨by decide, by decide, by decide⟩
  obtain ⟨hacyclic, hmade, hdown, holder⟩ := generations_descend h
  have hedge : (history merging).Edge "c" "a" :=
    edge_history.mpr ⟨_, List.mem_cons_self, by decide, by decide, by decide⟩
  have hage : (history merging).generation? "c" = some 1 := hmade _ List.mem_cons_self "c" (by decide)
  refine ⟨⟨h, by decide, hage, .single hedge⟩, hacyclic "g", ?_, hdown "e" "d" ?_,
    holder "c" "a" 1 2 hage (by decide) (.single hedge)⟩
  · exact hmade _ (List.mem_cons_of_mem _ (List.mem_cons_of_mem _ List.mem_cons_self)) "g" (by decide)
  · exact mem_edges.mpr
      (edge_history.mpr ⟨_, List.mem_cons_of_mem _ List.mem_cons_self, by decide, by decide, by decide⟩)

end Lineage.Sample
