import Mathlib.Algebra.Order.Ring.Nat
import Mathlib.Data.List.Range
import Mathlib.Data.List.Nodup

/-!
# Dafeng.Library.Ranking

Positions of a list. Positions that increase pick a sublist. Positions can be put
in the order of a score: the better one first, and of two equal ones the one that
was there first. A stable sort does this. Scores may be the bits of IEEE binary32
numbers, which compare as integers do once the sign is taken off.
-/

namespace Dafeng

/-! ### Increasing positions -/

/-- What stands at increasing positions from `n` on is a sublist of what stands
there. -/
theorem sublist_of_increasing {α β : Type} {g : α → Option β} {ps : List (Nat × β)} {ys : List α}
    {n : Nat} (hincreasing : ps.Pairwise fun p q => p.1 < q.1)
    (hat : ∀ p ∈ ps, n ≤ p.1 ∧ ys[p.1 - n]?.bind g = some p.2) :
    (ps.map Prod.snd).Sublist (ys.filterMap g) := by
  induction ys generalizing ps n with
  | nil =>
      cases ps with
      | nil => exact .slnil
      | cons p ps => simpa using (hat p List.mem_cons_self).2
  | cons y ys ih =>
      have hshift : ∀ p : Nat × β, n < p.1 → (y :: ys)[p.1 - n]? = ys[p.1 - (n + 1)]? := by
        intro p hlt
        rw [show p.1 - n = p.1 - (n + 1) + 1 by omega, List.getElem?_cons_succ]
      cases ps with
      | nil => exact List.nil_sublist _
      | cons p ps =>
          obtain ⟨hfirst, hrest⟩ := List.pairwise_cons.mp hincreasing
          obtain ⟨hle, hp⟩ := hat p List.mem_cons_self
          by_cases hpn : p.1 = n
          · -- the first position is that of `y`
            rw [hpn, Nat.sub_self, List.getElem?_cons_zero, Option.bind_some] at hp
            rw [List.filterMap_cons_some hp, List.map_cons]
            refine List.Sublist.cons_cons _ (ih hrest (n := n + 1) fun q hq => ?_)
            have hlt := hfirst q hq
            rw [← hshift q (by omega)]
            exact ⟨by omega, (hat q (List.mem_cons_of_mem p hq)).2⟩
          · have htail : ((p :: ps).map Prod.snd).Sublist (ys.filterMap g) := by
              refine ih hincreasing (n := n + 1) fun q hq => ?_
              have hlt : n < q.1 := by
                rcases List.mem_cons.mp hq with rfl | hq
                · omega
                · have := hfirst q hq
                  omega
              rw [← hshift q hlt]
              exact ⟨hlt, (hat q hq).2⟩
            refine htail.trans ?_
            rw [← List.singleton_append (x := y), List.filterMap_append]
            exact List.sublist_append_right _ _

/-! ### Rankings -/

/-- The positions below `n`, put in order of `better`. -/
structure Ranks (n : Nat) (better : Nat → Nat → Prop) (order : List Nat) : Prop where
  perm : order.Perm (List.range n)
  sorted : order.Pairwise fun i j => better i j ∨ ¬ better j i ∧ i < j

/-- Two positions lie in a range in their order. -/
theorem pair_sublist_range {i j n : Nat} (hij : i < j) (hj : j < n) :
    [i, j].Sublist (List.range n) := by
  have hi : [i].Sublist ((List.range n).take j) := by
    refine List.singleton_sublist.mpr (List.mem_take_iff_getElem.mpr ⟨i, ?_, List.getElem_range _⟩)
    rw [List.length_range]
    omega
  have hj : [j].Sublist ((List.range n).drop j) := by
    refine List.singleton_sublist.mpr (List.mem_drop_iff_getElem.mpr ⟨0, ?_, ?_⟩)
    · rw [List.length_range]
      omega
    · simp
  have hboth := hi.append hj
  rwa [List.take_append_drop] at hboth

/-- Without repetitions two elements lie in one order only. -/
theorem not_sublist_swap {α : Type} {xs : List α} (hnodup : xs.Nodup) {a b : α}
    (h : [a, b].Sublist xs) : ¬ [b, a].Sublist xs := by
  induction xs with
  | nil => cases h
  | cons x xs ih =>
      obtain ⟨hx, hxs⟩ := List.nodup_cons.mp hnodup
      intro hswap
      cases h with
      | cons _ h =>
          cases hswap with
          | cons _ hswap => exact ih hxs h hswap
          | cons_cons _ hswap => exact hx (h.subset (by simp))
      | cons_cons _ h =>
          cases hswap with
          | cons _ hswap => exact hx (hswap.subset (by simp))
          | cons_cons _ hswap => exact hx (List.singleton_sublist.mp h)

/-- A stable sort by a key, greatest first, ranks by the key. -/
theorem ranks_mergeSort (n : Nat) (key : Nat → Int) : Ranks n (fun i j => key j < key i)
    ((List.range n).mergeSort fun i j => decide (key j ≤ key i)) := by
  have htrans : ∀ i j k : Nat, decide (key j ≤ key i) → decide (key k ≤ key j) →
      decide (key k ≤ key i) := by
    intro i j k hij hjk
    simp only [decide_eq_true_eq] at hij hjk ⊢
    omega
  have htotal : ∀ i j : Nat, decide (key j ≤ key i) || decide (key i ≤ key j) := by
    intro i j
    simp only [Bool.or_eq_true, decide_eq_true_eq]
    omega
  have hperm := List.mergeSort_perm (List.range n) fun i j => decide (key j ≤ key i)
  refine ⟨hperm, List.pairwise_iff_forall_sublist.mpr fun {i j} hsub => ?_⟩
  have hle : key j ≤ key i := by
    simpa using List.pairwise_iff_forall_sublist.mp
      (List.pairwise_mergeSort htrans htotal (List.range n)) hsub
  have hnodup := hperm.nodup_iff.mpr List.nodup_range
  by_cases hless : key j < key i
  · exact .inl hless
  · refine .inr ⟨by omega, ?_⟩
    have hne : i ≠ j := by
      simpa using hnodup.sublist hsub
    by_contra hnot
    -- the sort would have left them as they were
    have hmem : i ∈ List.range n := hperm.mem_iff.mp (hsub.subset (by simp))
    exact not_sublist_swap hnodup hsub (List.pair_sublist_mergeSort htrans htotal
      (decide_eq_true (by omega)) (pair_sublist_range (by omega) (List.mem_range.mp hmem)))

/-- So does a stable sort of other things by the keys of their positions. -/
theorem exists_ranks_mergeSort {α : Type} {n : Nat} {f : Nat → α} {le : α → α → Bool}
    {key : Nat → Int} (hle : ∀ i < n, ∀ j < n, le (f i) (f j) = decide (key j ≤ key i)) :
    ∃ order, Ranks n (fun i j => key j < key i) order ∧
      ((List.range n).map f).mergeSort le = order.map f := by
  refine ⟨_, ranks_mergeSort n key, (List.map_mergeSort ?_).symm⟩
  intro i hi j hj
  exact (hle i (List.mem_range.mp hi) j (List.mem_range.mp hj)).symm

namespace Ranks

variable {n : Nat} {key : Nat → Int} {order : List Nat}

/-- A greater key comes earlier. -/
theorem before (h : Ranks n (fun i j => key j < key i) order) {i j : Nat} (hi : i < n) (hj : j < n)
    (hkey : key j < key i) : [i, j].Sublist order := by
  have hi := h.perm.mem_iff.mpr (List.mem_range.mpr hi)
  have hj := h.perm.mem_iff.mpr (List.mem_range.mpr hj)
  obtain ⟨before, after, rfl⟩ := List.append_of_mem hi
  rcases List.mem_append.mp hj with hj | hj
  · -- then `j` would stand before `i`
    have hwrong := (List.pairwise_append.mp h.sorted).2.2 j hj i List.mem_cons_self
    omega
  · rcases List.mem_cons.mp hj with rfl | hj
    · omega
    · refine List.Sublist.trans ?_ (List.sublist_append_right before _)
      exact List.Sublist.cons_cons i (List.singleton_sublist.mpr hj)

theorem nonincreasing (h : Ranks n (fun i j => key j < key i) order) :
    order.Pairwise fun i j => key j ≤ key i := by
  refine h.sorted.imp fun {i j} hij => ?_
  omega

/-- Equal keys stay as they were. -/
theorem stable (h : Ranks n (fun i j => key j < key i) order) :
    order.Pairwise fun i j => key i = key j → i < j := by
  refine h.sorted.imp fun {i j} hij => ?_
  omega

end Ranks

/-! ### binary32 -/

namespace Binary32

/-- The bits without the sign. -/
def magnitude (bits : UInt32) : Nat := bits.toNat % 2 ^ 31

def isNaN (bits : UInt32) : Bool := 0x7F800000 < magnitude bits

/-- The place of a number in the order of the reals. Both zeros have the same. -/
def place (bits : UInt32) : Int := if bits.toNat < 2 ^ 31 then magnitude bits else -magnitude bits

/-- `a > b`. A NaN is not comparable. -/
def greater (a b : UInt32) : Bool := !isNaN a && !isNaN b && decide (place b < place a)

theorem greater_eq {a b : UInt32} (ha : isNaN a = false) (hb : isNaN b = false) :
    greater a b = decide (place b < place a) := by
  rw [greater, ha, hb]
  rfl

end Binary32

end Dafeng
