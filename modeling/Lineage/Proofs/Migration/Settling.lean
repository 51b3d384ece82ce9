import Lineage.Tracker.Recovery

/-!
# Rows that compactions settle in

`settle rows c` are the rows once the compaction `c` is stored in them, later than it says if its key
is taken. A compaction that has settled stays where it is: settling it again adds nothing, whatever
other rows came in between (`settle_of_extends`), and settling a list of compactions of which the
first ones have settled already is settling the others (`settleAll_again`).
-/

namespace Lineage.Tracker

variable {rows rows' rows'' : Rows} {c : Compaction} {cs ds : List Compaction}

/-- The rows once a compaction is stored under its key or, while that is taken by another one, under
that of a later time; none if there is no such time. -/
def settle (rows : Rows) (c : Compaction) : Option Rows :=
  match rows[c.key]? with
  | none => some (rows.insert c.key c.encode)
  | some row =>
    if row = c.encode then some rows
    else if _h : c.time.toNat + 1 < UInt64.size then settle rows { c with time := c.time + 1 }
    else none
termination_by UInt64.size - c.time.toNat
decreasing_by
  have : (c.time + 1).toNat = c.time.toNat + 1 := by
    rw [UInt64.toNat_add]
    exact Nat.mod_eq_of_lt ‹_›
  omega

/-- The rows once compactions are stored one after the other. -/
def settleAll (rows : Rows) (cs : List Compaction) : Option Rows := cs.foldlM settle rows

/-- All rows are there still. -/
def Extends (rows rows' : Rows) : Prop := ∀ k v : Bytes, rows[k]? = some v → rows'[k]? = some v

theorem Extends.refl (rows : Rows) : Extends rows rows := fun _ _ h => h

theorem Extends.trans (h : Extends rows rows') (h' : Extends rows' rows'') : Extends rows rows'' :=
  fun k v hk => h' k v (h k v hk)

theorem settle_none (h : rows[c.key]? = none) : settle rows c = some (rows.insert c.key c.encode) := by
  rw [settle, h]

theorem settle_self (h : rows[c.key]? = some c.encode) : settle rows c = some rows := by
  rw [settle, h]
  exact if_pos rfl

theorem settle_other {row : Bytes} (h : rows[c.key]? = some row) (hne : row ≠ c.encode) :
    settle rows c = if c.time.toNat + 1 < UInt64.size then settle rows { c with time := c.time + 1 }
      else none := by
  rw [settle, h]
  dsimp only
  rw [if_neg hne]
  rfl

theorem extends_of_settle (h : settle rows c = some rows') : Extends rows rows' := by
  fun_induction settle rows c with
  | case1 c hnone =>
    cases h
    intro k v hk
    rw [Std.ExtTreeMap.getElem?_insert, if_neg, hk]
    intro hkey
    rw [Std.compare_eq_iff_eq.mp hkey, hk] at hnone
    cases hnone
  | case2 c hrow =>
    cases h
    exact .refl rows
  | case3 c row hrow hne hlt ih => exact ih h
  | case4 => cases h

/-- A compaction that has settled stays where it is. -/
theorem settle_of_extends (h : settle rows c = some rows') (hext : Extends rows' rows'') :
    settle rows'' c = some rows'' := by
  fun_induction settle rows c with
  | case1 c hnone =>
    cases h
    exact settle_self (hext _ _ Std.ExtTreeMap.getElem?_insert_self)
  | case2 c hrow =>
    cases h
    exact settle_self (hext _ _ hrow)
  | case3 c row hrow hne hlt ih =>
    rw [settle_other (hext _ _ (extends_of_settle h _ _ hrow)) hne, if_pos hlt]
    exact ih h
  | case4 => cases h

/-! ## Lists -/

theorem settleAll_cons : settleAll rows (c :: cs) = (settle rows c).bind (settleAll · cs) := rfl

theorem settleAll_append : settleAll rows (cs ++ ds) = (settleAll rows cs).bind (settleAll · ds) :=
  List.foldlM_append

theorem extends_of_settleAll (h : settleAll rows cs = some rows') : Extends rows rows' := by
  induction cs generalizing rows with
  | nil =>
    cases h
    exact .refl _
  | cons c cs ih =>
    obtain ⟨rows₁, hfirst, hrest⟩ := Option.bind_eq_some_iff.mp h
    exact (extends_of_settle hfirst).trans (ih hrest)

theorem settleAll_of_extends (h : settleAll rows cs = some rows') (hext : Extends rows' rows'') :
    settleAll rows'' cs = some rows'' := by
  induction cs generalizing rows with
  | nil => rfl
  | cons c cs ih =>
    obtain ⟨rows₁, hfirst, hrest⟩ := Option.bind_eq_some_iff.mp h
    rw [settleAll_cons, settle_of_extends hfirst ((extends_of_settleAll hrest).trans hext)]
    exact ih hrest

/-- Where the first compactions have settled already, they are passed over. -/
theorem settleAll_again (h : settleAll rows cs = some rows') :
    settleAll rows' (cs ++ ds) = settleAll rows (cs ++ ds) := by
  rw [settleAll_append, settleAll_append, h, settleAll_of_extends h (.refl rows')]

end Lineage.Tracker
