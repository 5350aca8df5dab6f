import Mathlib.Algebra.Order.Field.Basic
import Mathlib.Data.List.Sort

/-!
# Quantiles

A quantile of a list at `p` is one of its entries such that at least a share of `p` of the entries
are not above it, and at least a share of `1 - p` of them are not below it.

The entry at the place `k` of the sorted list has at least `k + 1` entries that are not above it and
as many that are not below it as follow the place `k`; it does not depend on the order of the list.
It is a quantile at every `p` for which `p` times the length of the list lies between `k` and `k + 1`
(`isQuantile_orderStat`).
-/

universe u v

variable {α : Type u} [LinearOrder α]

/-- The entry at the place `k` of the sorted list. -/
def orderStat (l : List α) (k : ℕ) (hk : k < l.length) : α :=
  (l.mergeSort (fun a b => a ≤ b)).get ⟨k, by rwa [List.length_mergeSort]⟩

theorem orderStat_mem (l : List α) {k : ℕ} (hk : k < l.length) :
  orderStat l k hk ∈ l
  := by
  have hmem : orderStat l k hk ∈ l.mergeSort (fun a b => a ≤ b) := List.get_mem _ _
  rwa [List.mem_mergeSort] at hmem

/-- Entries at later places are not smaller. -/
theorem orderStat_mono (l : List α) {j k : ℕ} (hjk : j ≤ k) (hk : k < l.length) :
  orderStat l j (hjk.trans_lt hk) ≤ orderStat l k hk
  := by
  apply List.sortedLE_mergeSort.monotone_get
  apply hjk

/-- The order of the entries does not count. -/
theorem orderStat_congr {l l' : List α} (h : l'.Perm l) {k : ℕ} (hk' : k < l'.length)
    (hk : k < l.length) :
  orderStat l' k hk' = orderStat l k hk
  := by
  have hsort : l'.mergeSort (fun a b => a ≤ b) = l.mergeSort (fun a b => a ≤ b) := by
    apply List.Perm.eq_of_sortedLE List.sortedLE_mergeSort List.sortedLE_mergeSort
    calc
      (l'.mergeSort (fun a b => a ≤ b)).Perm l' := List.mergeSort_perm l' _
      l'.Perm l := h
      l.Perm (l.mergeSort (fun a b => a ≤ b)) := (List.mergeSort_perm l _).symm
  simp only [orderStat, List.get_eq_getElem, hsort]

/-- The entries up to the place `k` are not above the one at this place. -/
theorem succ_le_countP_orderStat (l : List α) {k : ℕ} (hk : k < l.length) :
  k + 1 ≤ l.countP (fun a => a ≤ orderStat l k hk)
  := by
  have hlength : k + 1 ≤ (l.mergeSort (fun a b => a ≤ b)).length := by
    rw [List.length_mergeSort]
    apply hk
  rw [← (List.mergeSort_perm l (fun a b => a ≤ b)).countP_eq]
  calc
    k + 1 = ((l.mergeSort (fun a b => a ≤ b)).take (k + 1)).length := by
      rw [List.length_take, min_eq_left hlength]
    _ = ((l.mergeSort (fun a b => a ≤ b)).take (k + 1)).countP
        (fun a => a ≤ orderStat l k hk) := by
      symm
      rw [List.countP_eq_length]
      intro a ha
      rw [decide_eq_true_eq]
      obtain ⟨i, hi, rfl⟩ := List.mem_take_iff_getElem.mp ha
      apply List.sortedLE_mergeSort.getElem_le_getElem_of_le
      omega
    _ ≤ (l.mergeSort (fun a b => a ≤ b)).countP (fun a => a ≤ orderStat l k hk) :=
      List.Sublist.countP_le (List.take_sublist _ _)

/-- The entries from the place `k` on are not below the one at this place. -/
theorem length_sub_le_countP_orderStat (l : List α) {k : ℕ} (hk : k < l.length) :
  l.length - k ≤ l.countP (fun a => orderStat l k hk ≤ a)
  := by
  rw [← (List.mergeSort_perm l (fun a b => a ≤ b)).countP_eq]
  calc
    l.length - k = ((l.mergeSort (fun a b => a ≤ b)).drop k).length := by
      rw [List.length_drop, List.length_mergeSort]
    _ = ((l.mergeSort (fun a b => a ≤ b)).drop k).countP (fun a => orderStat l k hk ≤ a) := by
      symm
      rw [List.countP_eq_length]
      intro a ha
      rw [decide_eq_true_eq]
      obtain ⟨i, hi, rfl⟩ := List.mem_drop_iff_getElem.mp ha
      apply List.sortedLE_mergeSort.getElem_le_getElem_of_le
      omega
    _ ≤ (l.mergeSort (fun a b => a ≤ b)).countP (fun a => orderStat l k hk ≤ a) :=
      List.Sublist.countP_le (List.drop_sublist _ _)

/-! ### Quantiles -/

/-- The value `v` is a quantile of `l` at `p`. -/
structure IsQuantile {K : Type v} [Ring K] [LE K] (p : K) (l : List α) (v : α) : Prop where
  mem : v ∈ l
  below : p * l.length ≤ (l.countP (fun a => a ≤ v) : K)
  above : (1 - p) * l.length ≤ (l.countP (fun a => v ≤ a) : K)

/-- The entry at the place `k` is a quantile where the share of the entries before it is at most `p`,
and that of the entries up to it is at least `p`. -/
theorem isQuantile_orderStat {K : Type v} [Ring K] [LinearOrder K] [IsStrictOrderedRing K] {p : K}
    {l : List α} {k : ℕ} (hk : k < l.length) (hbefore : (k : K) ≤ p * l.length)
    (hupto : p * l.length ≤ (k : K) + 1) :
  IsQuantile p l (orderStat l k hk)
  := by
  constructor
  · apply orderStat_mem
  · calc
      p * l.length ≤ (k : K) + 1 := hupto
      _ = ((k + 1 : ℕ) : K) := (Nat.cast_succ k).symm
      _ ≤ (l.countP (fun a => a ≤ orderStat l k hk) : K) := by
        rw [Nat.cast_le]
        apply succ_le_countP_orderStat
  · calc
      (1 - p) * l.length = l.length - p * l.length := by rw [sub_mul, one_mul]
      _ ≤ l.length - (k : K) := sub_le_sub_left hbefore _
      _ = ((l.length - k : ℕ) : K) := (Nat.cast_sub hk.le).symm
      _ ≤ (l.countP (fun a => orderStat l k hk ≤ a) : K) := by
        rw [Nat.cast_le]
        apply length_sub_le_countP_orderStat
