import Mathlib.Data.List.Nodup

/-!
# Lists in the order of their keys

Listings are sorted by a key of their items. Where keys differ, the order of the items is determined
by what they are: any two ways of putting them in order give the same list, in which keys increase.
-/

namespace HighAsm

variable {α κ : Type} [LT κ] [LE κ] [Std.IsLinearOrder κ] [Std.LawfulOrderLT κ] {key : α → κ}
  {items others : List α}

/-- No item stands behind one with a greater key. -/
def OrderedBy (key : α → κ) (items : List α) : Prop := items.Pairwise fun a b => ¬ key b < key a

theorem orderedBy_mergeSort [DecidableLT κ] (key : α → κ) (items : List α) :
    OrderedBy key (items.mergeSort fun a b => !decide (key b < key a)) := by
  have ordered : (items.mergeSort fun a b => !decide (key b < key a)).Pairwise
      fun a b => (!decide (key b < key a)) = true := by
    refine List.pairwise_mergeSort (fun a b c first second => ?_) (fun a b => ?_) items
    · simp only [Bool.not_eq_true', decide_eq_false_iff_not, Std.not_lt] at *
      exact Std.le_trans first second
    · simp only [Bool.or_eq_true, Bool.not_eq_true', decide_eq_false_iff_not, Std.not_lt]
      exact Std.le_total
  exact ordered.imp fun after => by simpa using after

/-- Different keys increase along items that are in order. -/
theorem OrderedBy.increasing (ordered : OrderedBy key items) (distinct : (items.map key).Nodup) :
    items.Pairwise fun a b => key a < key b := by
  have apart : items.Pairwise fun a b => key a ≠ key b := List.pairwise_map.mp distinct
  refine (ordered.and apart).imp fun {a b} both => ?_
  rcases Std.lt_trichotomy (key a) (key b) with less | same | greater
  · exact less
  · exact absurd same both.2
  · exact absurd greater both.1

/-- Items with different keys are put in order in one way only. -/
theorem OrderedBy.eq_of_perm (ordered : OrderedBy key items) (ordered' : OrderedBy key others)
    (perm : items.Perm others) (distinct : (items.map key).Nodup) : items = others := by
  refine perm.eq_of_pairwise (fun a b here there first second => ?_) ordered ordered'
  have same : key a = key b := Std.le_antisymm (Std.not_lt.mp first) (Std.not_lt.mp second)
  exact List.inj_on_of_nodup_map distinct here (perm.mem_iff.mpr there) same

end HighAsm
