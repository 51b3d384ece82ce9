import Lineage.Proofs.Graph.Histories
import Lineage.Proofs.Graph.Reaching

/-!
# Expiry step by step

An expiry that is under way (`Expiry`) first gathers what edges lead to, then spares, round by
round, what files that stay still lead to, and at last removes what is left, file by file.
`Expiry.Next` says what it does next, in whatever order sets are gone through. It comes to an end in
any case (`Expiry.next_wellFounded`), always with the same names and the same graph (`expires_iff`):
the unneeded files go, with all edges that touch them, and the others stay as they are
(`expires_after`).
-/

namespace Lineage.Graph

open Relation (ReflTransGen)

variable {g left : Graph} {a : Adjacency} {names met met' expired : Names}
  {start l older newer queue queue' rest : List String} {k m n x : String}

/-! ## Removing one file -/

theorem dropNeighbour_comm :
    dropNeighbour m (dropNeighbour m a k) n = dropNeighbour m (dropNeighbour m a n) k := by
  by_cases h : k = n
  · rw [h]
  · refine Std.ExtTreeMap.ext_getElem? fun x => ?_
    simp only [dropNeighbour, Std.ExtTreeMap.getElem?_alter, Std.compare_eq_iff_eq]
    grind

theorem Enumerates.foldl_dropNeighbour (h : Enumerates l names) :
    l.foldl (dropNeighbour m) a = names.foldl (dropNeighbour m) a := by
  rw [Std.ExtTreeSet.foldl_eq_foldl_toList]
  exact List.Perm.foldl_eq' h (fun _ _ _ _ _ => dropNeighbour_comm) a

/-- Removes one file, and goes through its older files and then its newer ones in the orders
given. -/
def removeIn (g : Graph) (name : String) (older newer : List String) : Graph where
  nodes := g.nodes.erase name
  older := newer.foldl (dropNeighbour name) (g.older.erase name)
  newer := (older.foldl (dropNeighbour name) g.newer).erase name

theorem removeIn_eq (holder : Enumerates older (g.olderThan m))
    (hnewer : Enumerates newer ((older.foldl (dropNeighbour m) g.newer).getD m ∅)) :
    g.removeIn m older newer = g.remove m := by
  rw [removeIn, hnewer.foldl_dropNeighbour, holder.foldl_dropNeighbour, remove]

/-! ## An expiry under way -/

/-- Of an expiry, the files met and those of them to go on from; or the files that may still have to
go; or the files that have to go, those of them that are still there, and the graph that is left. -/
inductive Expiry where
  | gathering (met : Names) (queue : List String)
  | sparing (names : Names)
  | removing (names : Names) (rest : List String) (left : Graph)

/-- The files that have to stay, as a newer one does that leads to them. -/
def retained (g : Graph) (expired names : Names) : Names :=
  names.filter (!g.removable expired names ·)

theorem mem_retained :
    n ∈ g.retained expired names ↔ n ∈ names ∧ g.removable expired names n = false := by
  rw [retained, Std.ExtTreeSet.mem_filter]
  simp only [Std.ExtTreeSet.get_eq, Bool.not_eq_true', exists_prop]

namespace Expiry

/-- A file that was not met before is met and joins the queue. -/
def meet : Names × List String → String → Names × List String
  | (met, queue), x => if x ∈ met then (met, queue) else (met.insert x, queue ++ [x])

/-- What an expiry does next. -/
inductive Next (g : Graph) (expired : Names) : Expiry → Expiry → Prop where
  | gather {met met' : Names} {n : String} {queue queue' older : List String}
      (order : Enumerates older (g.olderThan n))
      (meets : older.foldl meet (met, queue) = (met', queue')) :
      Next g expired (.gathering met (n :: queue)) (.gathering met' queue')
  | gathered {met : Names} : Next g expired (.gathering met []) (.sparing met)
  | spare {names : Names} {n : String} {l : List String}
      (order : Enumerates (n :: l) (g.retained expired names)) :
      Next g expired (.sparing names) (.sparing (l.foldl .erase (names.erase n)))
  | spared {names : Names} {l : List String} (none : Enumerates [] (g.retained expired names))
      (order : Enumerates l names) : Next g expired (.sparing names) (.removing names l g)
  | remove {names : Names} {n : String} {rest older newer : List String} {left : Graph}
      (order : Enumerates older (left.olderThan n))
      (order' : Enumerates newer ((older.foldl (dropNeighbour n) left.newer).getD n ∅)) :
      Next g expired (.removing names (n :: rest) left)
        (.removing names rest (left.removeIn n older newer))

/-! ### Its end -/

section
variable {s : Names × List String} {y : String}

theorem mem_met_meet : y ∈ (meet s x).1 ↔ y ∈ s.1 ∨ y = x := by
  rw [meet]
  split
  · rename_i hx
    rw [or_iff_left_of_imp]
    rintro rfl
    exact hx
  · rw [Std.ExtTreeSet.mem_insert, Std.compare_eq_iff_eq, or_comm, eq_comm]

theorem mem_queue_meet : y ∈ (meet s x).2 ↔ y ∈ s.2 ∨ y = x ∧ x ∉ s.1 := by
  rw [meet]
  split
  · rename_i hx
    simp [hx]
  · rename_i hx
    simp [hx]

theorem card_meet_le (hx : g.Edge n x) : (g.unmet (meet s x).1).card + (meet s x).2.length ≤
    (g.unmet s.1).card + s.2.length := by
  rw [meet]
  split
  · exact Nat.le_refl _
  · rename_i hnew
    have hlt := card_unmet_lt (fun y hy => Std.ExtTreeSet.mem_insert.mpr (.inr hy)) hx hnew
      Std.ExtTreeSet.mem_insert_self
    dsimp only
    rw [List.length_append, List.length_singleton]
    omega

theorem mem_met_foldl_meet : y ∈ (older.foldl meet s).1 ↔ y ∈ s.1 ∨ y ∈ older := by
  induction older generalizing s with
  | nil => simp
  | cons x older ih => rw [List.foldl_cons, ih, mem_met_meet, List.mem_cons, or_assoc]

theorem mem_queue_foldl_meet :
    y ∈ (older.foldl meet s).2 ↔ y ∈ s.2 ∨ y ∈ older ∧ y ∉ s.1 := by
  induction older generalizing s with
  | nil => simp
  | cons x older ih =>
    rw [List.foldl_cons, ih, mem_queue_meet, mem_met_meet, List.mem_cons]
    by_cases hy : y = x
    · subst hy
      simp
    · simp [hy]

theorem card_foldl_meet_le (h : ∀ x ∈ older, ∃ n, g.Edge n x) :
    (g.unmet (older.foldl meet s).1).card + (older.foldl meet s).2.length ≤
      (g.unmet s.1).card + s.2.length := by
  induction older generalizing s with
  | nil => exact Nat.le_refl _
  | cons x older ih =>
    obtain ⟨⟨n, hx⟩, hrest⟩ := List.forall_mem_cons.mp h
    exact Nat.le_trans (ih hrest) (card_meet_le hx)

end

theorem size_foldl_erase_le (l : List String) (names : Names) :
    (l.foldl .erase names).size ≤ names.size := by
  induction l generalizing names with
  | nil => exact Nat.le_refl _
  | cons n l ih => exact Nat.le_trans (ih _) Std.ExtTreeSet.size_erase_le

/-- The parts of an expiry that are to come, and how much the present one has to do. -/
def toCome (g : Graph) : Expiry → Nat × Nat
  | .gathering met queue => (2, (g.unmet met).card + queue.length)
  | .sparing names => (1, names.size)
  | .removing _ rest _ => (0, rest.length)

theorem Next.toCome_lt {s s' : Expiry} (h : Next g expired s s') :
    Prod.Lex (· < ·) (· < ·) (s'.toCome g) (s.toCome g) := by
  cases h with
  | @gather met met' n queue queue' older order meets =>
    apply Prod.Lex.right
    have hle := card_foldl_meet_le (s := (met, queue)) fun x hx => ⟨n, order.mem_iff.mp hx⟩
    rw [meets] at hle
    dsimp only at hle
    rw [List.length_cons]
    omega
  | gathered => exact Prod.Lex.left _ _ (Nat.lt_succ_self 1)
  | @spare names n l order =>
    apply Prod.Lex.right
    have hn : n ∈ names := (mem_retained.mp (order.mem_iff.mp List.mem_cons_self)).1
    have hpos : 0 < names.size := by
      rw [← Std.ExtTreeSet.length_toList]
      exact List.length_pos_of_mem (Std.ExtTreeSet.mem_toList.mpr hn)
    have hle := size_foldl_erase_le l (names.erase n)
    rw [Std.ExtTreeSet.size_erase, if_pos (Std.ExtTreeSet.contains_iff_mem.mpr hn)] at hle
    omega
  | spared => exact Prod.Lex.left _ _ Nat.zero_lt_one
  | remove =>
    apply Prod.Lex.right
    exact Nat.lt_succ_self _

theorem next_wellFounded (g : Graph) (expired : Names) :
    WellFounded fun s' s => Next g expired s s' := by
  apply Subrelation.wf (r := InvImage (Prod.Lex (· < ·) (· < ·)) (toCome g))
  · intro s' s h
    exact h.toCome_lt
  · exact InvImage.wf _ (WellFounded.prod_lex Nat.lt_wfRel.wf Nat.lt_wfRel.wf)

/-- An expiry goes on until all files are removed that have to go. -/
theorem exists_next_or_eq (g : Graph) (expired : Names) (s : Expiry) :
    (∃ s', Next g expired s s') ∨ ∃ names left, s = .removing names [] left := by
  cases s with
  | gathering met queue =>
    cases queue with
    | nil => exact .inl ⟨_, .gathered⟩
    | cons n queue => exact .inl ⟨_, .gather (enumerates_toList _) rfl⟩
  | sparing names =>
    cases hl : (g.retained expired names).toList with
    | nil => exact .inl ⟨_, .spared (hl ▸ enumerates_toList _) (enumerates_toList _)⟩
    | cons n l => exact .inl ⟨_, .spare (hl ▸ enumerates_toList _)⟩
  | removing names rest left =>
    cases rest with
    | nil => exact .inr ⟨names, left, rfl⟩
    | cons n rest => exact .inl ⟨_, .remove (enumerates_toList _) (enumerates_toList _)⟩

theorem exists_removed (g : Graph) (expired : Names) (s : Expiry) :
    ∃ names left, ReflTransGen (Next g expired) s (.removing names [] left) := by
  induction s using (next_wellFounded g expired).induction with
  | h s ih =>
    rcases exists_next_or_eq g expired s with ⟨s', hnext⟩ | ⟨names, left, rfl⟩
    · obtain ⟨names, left, hs⟩ := ih s' hnext
      exact ⟨names, left, .head hnext hs⟩
    · exact ⟨names, left, .refl⟩

/-! ### What it keeps -/

/-- All files met are reached, and those that edges lead to from there are met, or will be. -/
structure Gathers (g : Graph) (start : List String) (met : Names) (queue : List String) : Prop where
  present : ∀ n ∈ g.present start, n ∈ met
  reached : ∀ n ∈ met, g.Reached start n
  queued : ∀ n ∈ queue, n ∈ met
  edge : ∀ n ∈ met, n ∉ queue → ∀ x, g.Edge n x → x ∈ met

theorem Gathers.next (h : Gathers g start met (n :: queue))
    (order : Enumerates older (g.olderThan n))
    (meets : older.foldl meet (met, queue) = (met', queue')) : Gathers g start met' queue' := by
  have hmet (x : String) : x ∈ met' ↔ x ∈ met ∨ x ∈ older := by
    rw [← mem_met_foldl_meet (s := (met, queue)), meets]
  have hqueue (x : String) : x ∈ queue' ↔ x ∈ queue ∨ x ∈ older ∧ x ∉ met := by
    rw [← mem_queue_foldl_meet (s := (met, queue)), meets]
  have mono {x : String} (hx : x ∈ met) : x ∈ met' := (hmet x).mpr (.inl hx)
  have hn : n ∈ met := h.queued n List.mem_cons_self
  constructor
  · exact fun x hx => mono (h.present x hx)
  · intro x hx
    rcases (hmet x).mp hx with hx | hx
    · exact h.reached x hx
    · exact (h.reached n hn).edge (order.mem_iff.mp hx)
  · intro x hx
    rcases (hqueue x).mp hx with hx | hx
    · exact mono (h.queued x (List.mem_cons_of_mem n hx))
    · exact (hmet x).mpr (.inr hx.1)
  · intro y hy hnot x hx
    rw [hqueue, not_or, not_and, not_not] at hnot
    have hym : y ∈ met := ((hmet y).mp hy).elim id hnot.2
    by_cases hyn : y = n
    · subst hyn
      exact (hmet x).mpr (.inr (order.mem_iff.mpr hx))
    · refine mono (h.edge y hym ?_ x hx)
      rw [List.mem_cons, not_or]
      exact ⟨hyn, hnot.1⟩

theorem Gathers.mem_iff (h : Gathers g start met []) : x ∈ met ↔ g.Reached start x := by
  refine ⟨h.reached x, ?_⟩
  rintro ⟨n, hn, hcon, hnx⟩
  induction hnx with
  | refl => exact h.present n (mem_present.mpr ⟨hn, hcon⟩)
  | tail _ hx ih => exact h.edge _ ih List.not_mem_nil _ hx

/-- What holds of an expiry all the time. -/
inductive Sound (g : Graph) (start : List String) : Expiry → Prop where
  | gathering {met : Names} {queue : List String} (gathers : Gathers g start met queue) :
      Sound g start (.gathering met queue)
  | sparing {names : Names} (reached : ∀ n ∈ names, g.Reached start n)
      (unneeded : ∀ n, g.Unneeded start n → n ∈ names) : Sound g start (.sparing names)
  | removing {done rest : List String} (order : Enumerates (done ++ rest) (g.expiring start)) :
      Sound g start (.removing (g.expiring start) rest (done.foldl remove g))

theorem mem_foldl_erase : x ∈ l.foldl .erase names ↔ x ∈ names ∧ x ∉ l := by
  induction l generalizing names with
  | nil => simp
  | cons n l ih =>
    rw [List.foldl_cons, ih, Std.ExtTreeSet.mem_erase, ne_eq, Std.compare_eq_iff_eq, List.mem_cons]
    grind

theorem Sound.next {s s' : Expiry} (h : Sound g start s) (hg : g.Mirrored)
    (hnext : Next g (g.present start) s s') : Sound g start s' := by
  cases hnext with
  | gather order meets =>
    cases h with
    | gathering gathers => exact .gathering (gathers.next order meets)
  | gathered =>
    cases h with
    | gathering gathers =>
      exact .sparing gathers.reached fun n hn => gathers.mem_iff.mpr hn.reached
  | @spare names n l order =>
    cases h with
    | sparing reached unneeded =>
      have mem_iff (x : String) : x ∈ l.foldl .erase (names.erase n) ↔ x ∈ names ∧ x ∉ n :: l := by
        rw [← mem_foldl_erase, List.foldl_cons]
      refine .sparing (fun x hx => reached x ((mem_iff x).mp hx).1) fun x hx => ?_
      refine (mem_iff x).mpr ⟨unneeded x hx, fun hl => ?_⟩
      have hstay := (mem_retained.mp (order.mem_iff.mp hl)).2
      rw [hx.removable hg unneeded] at hstay
      contradiction
  | @spared names l none order =>
    cases h with
    | sparing reached unneeded =>
      have hall (x : String) (hx : x ∈ names) : g.removable (g.present start) names x = true := by
        cases hr : g.removable (g.present start) names x with
        | true => rfl
        | false => exact absurd (none.mem_iff.mpr (mem_retained.mpr ⟨hx, hr⟩)) List.not_mem_nil
      have hnames : names = g.expiring start := by
        refine Std.ExtTreeSet.ext_mem fun x => ?_
        rw [mem_expiring_iff hg]
        exact ⟨unneeded_of_removable hg reached hall, unneeded x⟩
      subst hnames
      exact @Sound.removing g start [] l order
  | @remove names n rest older newer left order order' =>
    rw [removeIn_eq order order']
    cases h with
    | @removing done _ horder =>
      rw [show (done.foldl remove g).remove n = (done ++ [n]).foldl remove g by
        rw [List.foldl_append]; rfl]
      refine .removing ?_
      rwa [List.append_assoc, List.singleton_append]

theorem Sound.steps {s s' : Expiry} (h : Sound g start s) (hg : g.Mirrored)
    (hs : ReflTransGen (Next g (g.present start)) s s') : Sound g start s' := by
  induction hs with
  | refl => exact h
  | tail _ hnext ih => exact ih.next hg hnext

theorem sound_start (order : Enumerates l (g.present start)) :
    Sound g start (.gathering (g.present start) l) := by
  refine .gathering ⟨fun _ h => h, fun n hn => reached_of_mem hn,
    fun n hn => order.mem_iff.mp hn, ?_⟩
  intro n hn hnot
  exact absurd (order.mem_iff.mpr hn) hnot

end Expiry

/-! ## What it comes to -/

/-- What an expiry comes to step by step, in whatever orders sets are gone through: the names of the
files removed, and the graph that is left. -/
def Expires (g : Graph) (start : List String) (r : Names × Graph) : Prop :=
  ∃ l, Enumerates l (g.present start) ∧ ReflTransGen (Expiry.Next g (g.present start))
    (.gathering (g.present start) l) (.removing r.1 [] r.2)

theorem eq_expire_of_expires {r : Names × Graph} (hg : WellFormed g) (h : g.Expires start r) :
    r = g.expire start := by
  obtain ⟨l, order, hs⟩ := h
  obtain ⟨names, left⟩ := r
  have hsound := (Expiry.sound_start order).steps hg.mirrored hs
  generalize hend : Expiry.removing names [] left = s at hsound
  cases hsound with
  | gathering => cases hend
  | sparing => cases hend
  | @removing done rest horder =>
    cases hend
    rw [List.append_nil] at horder
    rw [hg.foldl_remove, horder.ofList_eq]
    rfl

/-- In whatever orders sets are gone through, an expiry comes to the same names and the same
graph. -/
theorem expires_iff {r : Names × Graph} (hg : WellFormed g) :
    g.Expires start r ↔ r = g.expire start := by
  refine ⟨eq_expire_of_expires hg, ?_⟩
  rintro rfl
  obtain ⟨names, left, hs⟩ := Expiry.exists_removed g (g.present start)
    (.gathering (g.present start) (g.present start).toList)
  have h : g.Expires start (names, left) := ⟨_, enumerates_toList _, hs⟩
  rwa [← eq_expire_of_expires hg h]

/-- Of the older files of one that stays, just those go that are asked to go. -/
theorem mem_expiring_iff_of_newer (hg : WellFormed g) (hn : n ∉ g.expiring start)
    (hx : x ∈ g.olderThan n) : x ∈ g.expiring start ↔ x ∈ start := by
  rw [mem_expiring_iff hg.mirrored] at hn ⊢
  constructor
  · intro h
    by_cases hs : x ∈ g.present start
    · exact (mem_present.mp hs).1
    · exact absurd (h.newer hs hx) hn
  · intro hs
    exact unneeded_of_mem (mem_present.mpr ⟨hs, (hg.ends n x hx).2⟩)

/-- Whatever the history of a graph, an expiry comes to an end in any order, and to the same one.
The files go that are asked to go, and those that edges lead to from there and from elsewhere only
through files that are asked to go; with them go the edges that touch them, and nothing else. A file
that stays loses none of its older files but those that were asked to go. -/
theorem expires_after (cs : List Change) (start : List String) :
    ((WellFounded fun s' s => Expiry.Next (after cs) ((after cs).present start) s s') ∧
      ∀ s, (∃ names left, s = .removing names [] left) ↔
        ∀ s', ¬ Expiry.Next (after cs) ((after cs).present start) s s') ∧
    (∀ r, (after cs).Expires start r ↔ r = (after cs).expire start) ∧
    ∀ names left, (after cs).Expires start (names, left) →
      (∀ n, n ∈ names ↔ n ∈ start ∧ (after cs).contains n = true ∨ (after cs).Reached start n ∧
        ∀ m p, (after cs).Route m n p → ¬ (after cs).Reached start m →
          ∃ f ∈ p, f ∈ start ∧ (after cs).contains f = true) ∧
      (∀ n, left.node? n = if n ∈ names then none else (after cs).node? n) ∧
      (∀ n x, x ∈ left.olderThan n ↔ x ∈ (after cs).olderThan n ∧ n ∉ names ∧ x ∉ names) ∧
      (∀ n x, x ∈ left.newerThan n ↔ x ∈ (after cs).newerThan n ∧ n ∉ names ∧ x ∉ names) ∧
      ∀ n, left.contains n = true → left.node? n = (after cs).node? n ∧
        ∀ x, x ∈ left.olderThan n ↔ x ∈ (after cs).olderThan n ∧ x ∉ start := by
  have hg : WellFormed (after cs) := wellFormed_changes cs
  refine ⟨⟨Expiry.next_wellFounded _ _, fun s => ⟨?_, fun hs => ?_⟩⟩, fun r => expires_iff hg,
    fun names left h => ?_⟩
  · rintro ⟨names, left, rfl⟩ s' hs
    cases hs
  · rcases Expiry.exists_next_or_eq (after cs) ((after cs).present start) s with ⟨s', hnext⟩ | hend
    · exact absurd hnext (hs s')
    · exact hend
  · obtain ⟨rfl, rfl⟩ := Prod.mk.inj (eq_expire_of_expires hg h)
    refine ⟨fun n => ?_, fun n => node?_without, fun n x => mem_olderThan_without,
      fun n x => mem_newerThan_without, fun n hn => ?_⟩
    · rw [mem_expiring_iff hg.mirrored]
      constructor
      · intro hn
        exact .inr ⟨hn.reached, hn.through⟩
      · rintro (hn | ⟨hreached, hthrough⟩)
        · exact unneeded_of_mem (mem_present.mpr hn)
        · exact ⟨hreached, hthrough⟩
    · obtain ⟨-, hstays⟩ := contains_without.mp hn
      refine ⟨by rw [node?_without, if_neg hstays], fun x => ?_⟩
      rw [mem_olderThan_without, and_iff_right hstays]
      exact and_congr_right fun hx => not_congr (mem_expiring_iff_of_newer hg hstays hx)

end Lineage.Graph

namespace Lineage.Sample

open Lineage.Graph

/-- When `a` is asked to go, `c` is only led to from there; to `b` leads `d`, too, which stays. -/
theorem expires_after_cyclic :
    (after cyclic).Expires ["a", "k"] ((after cyclic).expire ["a", "k"]) ∧
    "c" ∈ ((after cyclic).expire ["a", "k"]).1 ∧
    (∀ m p, (after cyclic).Route m "c" p → ¬ (after cyclic).Reached ["a", "k"] m →
      ∃ f ∈ p, f ∈ ["a", "k"] ∧ (after cyclic).contains f = true) ∧
    "b" ∉ ((after cyclic).expire ["a", "k"]).1 ∧
    ((after cyclic).expire ["a", "k"]).2.node? "b" = (after cyclic).node? "b" ∧
    "a" ∉ ((after cyclic).expire ["a", "k"]).2.olderThan "b" ∧
    "a" ∈ (after cyclic).olderThan "b" := by
  obtain ⟨-, hiff, hresult⟩ := expires_after cyclic ["a", "k"]
  have hexpires := (hiff _).mpr rfl
  obtain ⟨hnames, -, -, -, hstays⟩ := hresult _ _ hexpires
  have hc : "c" ∈ ((after cyclic).expire ["a", "k"]).1 := by decide +kernel
  have hb : "b" ∉ ((after cyclic).expire ["a", "k"]).1 := by decide +kernel
  have hleft : ((after cyclic).expire ["a", "k"]).2.contains "b" = true := by decide +kernel
  obtain ⟨hnode, holder⟩ := hstays "b" hleft
  refine ⟨hexpires, hc, ?_, hb, hnode, fun ha => ?_, by decide +kernel⟩
  · rcases (hnames "c").mp hc with ⟨hstart, -⟩ | ⟨-, hthrough⟩
    · simp at hstart
    · exact hthrough
  · exact ((holder "a").mp ha).2 List.mem_cons_self

end Lineage.Sample
