import Mathlib.Data.List.Sort
import MarkupSyntax.Diagnostic.Basic

/-!
# `MarkupSyntax.Proofs.Diagnostic.Merge`: the order of diagnostics

The diagnostics of a document come from several stages and are ordered
by where they start. The order is that of an insertion sort
(`sort_eq_insertionSort`), so nothing is lost or made up
(`perm_sort`), and diagnostics that are in order before stay as they are:
picking out the ones of a stage that reports in order gives what that
stage reported (`filter_sort`).
-/

set_option autoImplicit false

namespace MarkupSyntax.Diagnostic

/-- Diagnostics in the order of their starts. -/
def StartsBefore (d e : Diagnostic) : Prop := d.range.start ≤ e.range.start

instance : DecidableRel StartsBefore := fun _ _ => inferInstanceAs (Decidable (_ ≤ _))

instance : Std.Total StartsBefore := ⟨fun _ _ => Nat.le_total _ _⟩

instance : IsTrans Diagnostic StartsBefore := ⟨fun _ _ _ => Nat.le_trans⟩

/-- Inserting a diagnostic is ordered insertion, so what is known of that
applies. -/
theorem insert_eq_orderedInsert (d : Diagnostic) (ds : List Diagnostic) :
    insert d ds = ds.orderedInsert StartsBefore d := by
  induction ds with
  | nil => rfl
  | cons e rest ih =>
    rw [insert, List.orderedInsert_cons, ih]
    rfl

/-- Sorting is insertion sort. It is stable, so diagnostics with one start keep
their order. -/
theorem sort_eq_insertionSort (ds : List Diagnostic) : sort ds = ds.insertionSort StartsBefore := by
  induction ds with
  | nil => rfl
  | cons d rest ih =>
    rw [List.insertionSort_cons, ← ih, ← insert_eq_orderedInsert]
    rfl

/-- Sorting neither adds nor drops a diagnostic. -/
theorem perm_sort (ds : List Diagnostic) : (sort ds).Perm ds := by
  rw [sort_eq_insertionSort]
  exact List.perm_insertionSort _ ds

/-- What is sorted is in the order of the starts. -/
theorem pairwise_sort (ds : List Diagnostic) : (sort ds).Pairwise StartsBefore := by
  rw [sort_eq_insertionSort]
  exact List.pairwise_insertionSort _ ds

/-- A merge is empty if all its groups are. -/
theorem merge_eq_nil_iff {groups : List (List Diagnostic)} :
    merge groups = [] ↔ ∀ group ∈ groups, group = [] := by
  rw [merge, ← List.length_eq_zero_iff, (perm_sort _).length_eq, List.length_eq_zero_iff,
    List.flatten_eq_nil_iff]

/-- Diagnostics picked out of a sorted list are in the order in which they
came, if that was the order of their starts. -/
theorem filter_sort {ds : List Diagnostic} {picks : Diagnostic → Bool}
    (h : (ds.filter picks).Pairwise StartsBefore) : (sort ds).filter picks = ds.filter picks := by
  -- What is in order is a sublist of the sorted list, and there is no more to pick.
  have hsublist : (ds.filter picks).Sublist (sort ds) := by
    rw [sort_eq_insertionSort]
    exact List.sublist_insertionSort h List.filter_sublist
  have hfilter := hsublist.filter picks
  simp only [List.filter_filter, Bool.and_self] at hfilter
  exact (hfilter.eq_of_length ((perm_sort ds).filter picks).length_eq.symm).symm

end MarkupSyntax.Diagnostic
