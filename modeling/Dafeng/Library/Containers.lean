import Mathlib.Algebra.Order.Ring.Nat
import Mathlib.Data.List.AList
import Mathlib.Data.List.MinMax
import Mathlib.Data.List.Sort

/-!
# Dafeng.Library.Containers

What a program may rely on in a sort and in a hash table, and no more: a sort
puts equal elements in any order, and a table is visited in any order. A result
that is proved for every `Sorter` and every `Visit` does not depend on either.
-/

namespace Dafeng

/-! ### Sorts -/

/-- A sort by a comparison: it rearranges a list so that nothing stands behind
something greater. -/
structure Sorter {α : Type} (less : α → α → Bool) where
  sort : List α → List α
  perm : ∀ xs, (sort xs).Perm xs
  sorted : ∀ xs, (sort xs).Pairwise fun a b => less b a = false

namespace Sorter

variable {α : Type} {less : α → α → Bool}

/-- The stable sort by insertion. -/
def insertion (less : α → α → Bool) (htotal : ∀ a b, less b a = false ∨ less a b = false)
    (htrans : ∀ a b c, less b a = false → less c b = false → less c a = false) : Sorter less where
  sort := List.insertionSort fun a b => less b a = false
  perm := List.perm_insertionSort _
  sorted xs :=
    have : Std.Total fun a b => less b a = false := ⟨htotal⟩
    have : IsTrans α fun a b => less b a = false := ⟨htrans⟩
    List.pairwise_insertionSort _ xs

theorem mem_sort (srt : Sorter less) {xs : List α} {a : α} : a ∈ srt.sort xs ↔ a ∈ xs :=
  (srt.perm xs).mem_iff

/-- The sort that arranges one list in a given way. -/
def choosing [DecidableEq α] (srt : Sorter less) {xs ys : List α} (hperm : ys.Perm xs)
    (hsorted : ys.Pairwise fun a b => less b a = false) : Sorter less where
  sort zs := if zs = xs then ys else srt.sort zs
  perm zs := by
    split_ifs with h
    · rw [h]
      exact hperm
    · exact srt.perm zs
  sorted zs := by
    split_ifs
    · exact hsorted
    · exact srt.sorted zs

theorem sort_choosing [DecidableEq α] (srt : Sorter less) {xs ys : List α} (hperm : ys.Perm xs)
    (hsorted : ys.Pairwise fun a b => less b a = false) :
    (srt.choosing hperm hsorted).sort xs = ys :=
  if_pos rfl

/-- The first of a sort are among the new elements, if these come before the old ones
and there are enough of them. -/
theorem mem_of_mem_take_sort (srt : Sorter less) {old new : List α} {n : Nat}
    (hnew : ∀ a ∈ old, ∀ b ∈ new, less b a = true) (hself : ∀ a ∈ old, less a a = false)
    (hn : n ≤ new.length) {a : α} (ha : a ∈ (srt.sort (old ++ new)).take n) : a ∈ new := by
  by_contra hnot
  have hold : a ∈ old := by
    have hmem := srt.mem_sort.mp (List.mem_of_mem_take ha)
    exact (List.mem_append.mp hmem).resolve_right hnot
  obtain ⟨front, behind, htake⟩ := List.append_of_mem ha
  have hsort : srt.sort (old ++ new) =
      front ++ a :: (behind ++ (srt.sort (old ++ new)).drop n) := by
    rw [← List.cons_append, ← List.append_assoc, ← htake, List.take_append_drop]
  have hsorted := srt.sorted (old ++ new)
  rw [hsort, List.pairwise_append] at hsorted
  -- what comes before `a` in the order stands before it
  have hbehind := (List.pairwise_cons.mp hsorted.2.1).1
  have hnone : (behind ++ (srt.sort (old ++ new)).drop n).countP (fun b => less b a) = 0 :=
    List.countP_eq_zero.mpr fun b hb => by simp [hbehind b hb]
  have hall : new.countP (fun b => less b a) = new.length :=
    List.countP_eq_length.mpr fun b hb => hnew a hold b hb
  have hcount := (srt.perm (old ++ new)).countP_eq fun b => less b a
  rw [List.countP_append, hall, hsort, List.countP_append,
    List.countP_cons_of_neg (by simp [hself a hold]), hnone] at hcount
  have hfront := List.countP_le_length (p := fun b => less b a) (l := front)
  have hlength := congrArg List.length htake
  rw [List.length_append, List.length_cons] at hlength
  have htake := List.length_take_le n (srt.sort (old ++ new))
  omega

end Sorter

/-! ### Hash tables -/

/-- An order in which the entries of a table are visited. -/
structure Visit where
  visit : {α : Type} → List α → List α
  perm : ∀ {α : Type} (xs : List α), (visit xs).Perm xs

/-- The entries as they are stored. -/
def Visit.stored : Visit := ⟨id, fun _ => .refl _⟩

/-- A hash table. -/
abbrev Table (α β : Type) := AList fun _ : α => β

namespace Table

variable {α β ω : Type} [DecidableEq α]

/-- Change the value of a key; a key that is not there has the value `default`. -/
def modify (t : Table α β) (k : α) (default : β) (f : β → β) : Table α β :=
  t.insert k (f ((t.lookup k).getD default))

theorem lookup_modify (t : Table α β) (k k' : α) (default : β) (f : β → β) :
    (t.modify k default f).lookup k' =
      if k' = k then some (f ((t.lookup k).getD default)) else t.lookup k' := by
  split_ifs with h
  · rw [h, modify, AList.lookup_insert]
  · rw [modify, AList.lookup_insert_ne h]

/-- Count things under their keys, one after another. -/
def tally (key : ω → α) (default : β) (add : β → ω → β) (t : Table α β) (xs : List ω) :
    Table α β :=
  xs.foldl (fun t x => t.modify (key x) default (add · x)) t

section Tally

variable {key : ω → α} {default : β} {add : β → ω → β}

theorem tally_append (t : Table α β) (xs ys : List ω) :
    tally key default add t (xs ++ ys) =
      tally key default add (tally key default add t xs) ys := by
  simp [tally]

/-- Under a key stands what was counted there, in the order it was counted. -/
theorem lookup_tally (t : Table α β) (xs : List ω) (k : α) :
    (tally key default add t xs).lookup k =
      if xs.filter (fun x => key x = k) = [] then t.lookup k
      else some ((xs.filter fun x => key x = k).foldl add ((t.lookup k).getD default)) := by
  induction xs generalizing t with
  | nil => rfl
  | cons x xs ih =>
      have hstep : tally key default add t (x :: xs) =
          tally key default add (t.modify (key x) default (add · x)) xs := rfl
      rw [hstep, ih, lookup_modify]
      by_cases hx : key x = k
      · subst hx
        have hne : (x :: xs).filter (fun y => key y = key x) ≠ [] := by simp
        rw [if_neg hne, List.filter_cons_of_pos (by simp), List.foldl_cons]
        simp only [if_true, Option.getD_some]
        split_ifs with hnil
        · rw [hnil]
          rfl
        · rfl
      · rw [if_neg (Ne.symm hx), List.filter_cons_of_neg (by simpa using hx)]

end Tally

end Table

/-! ### The longest of several lists -/

/-- The longer of two lists; if they are equally long the one that is there. -/
def longer {α : Type} (cur new : List α) : List α := if cur.length < new.length then new else cur

/-- The first of the longest stays. -/
theorem foldl_longer {α : Type} (xss : List (List α)) :
    xss.foldl longer [] = (xss.argmax List.length).getD [] := by
  induction xss using List.reverseRecOn with
  | nil => rfl
  | append_singleton xss xs ih =>
      rw [List.foldl_append, ih, List.argmax_concat, List.foldl_cons, List.foldl_nil, longer]
      cases hmax : xss.argmax List.length with
      | none =>
          dsimp only [Option.getD_none, Option.getD_some]
          split_ifs with hlen
          · rfl
          · exact (List.length_eq_zero_iff.mp (by simpa using hlen)).symm
      | some longest =>
          dsimp only [Option.getD_some]
          split_ifs <;> rfl

/-! ### The extreme of a list -/

/-- A fold that keeps one of two values keeps the start or a value of the list, and it
comes at or below them all. -/
theorem foldl_select {α β : Type} {op : β → β → β} {r : β → β → Prop} (f : α → β)
    (hself : ∀ a, r a a) (htrans : ∀ a b c, r a b → r b c → r a c)
    (hsel : ∀ a b, op a b = a ∨ op a b = b) (hle : ∀ a b, r (op a b) a ∧ r (op a b) b)
    (xs : List α) (c : β) :
    (xs.foldl (fun m x => op m (f x)) c = c ∨ ∃ x ∈ xs, f x = xs.foldl (fun m x => op m (f x)) c) ∧
      r (xs.foldl (fun m x => op m (f x)) c) c ∧
      ∀ x ∈ xs, r (xs.foldl (fun m x => op m (f x)) c) (f x) := by
  induction xs generalizing c with
  | nil => exact ⟨.inl rfl, hself c, by simp⟩
  | cons x xs ih =>
      obtain ⟨hmem, hc, hall⟩ := ih (op c (f x))
      rw [List.foldl_cons]
      refine ⟨?_, htrans _ _ _ hc (hle c (f x)).1, ?_⟩
      · rcases hmem with heq | ⟨y, hy, heq⟩
        · rcases hsel c (f x) with hkeep | hnew
          · exact .inl (heq.trans hkeep)
          · exact .inr ⟨x, List.mem_cons_self, (heq.trans hnew).symm⟩
        · exact .inr ⟨y, List.mem_cons_of_mem x hy, heq⟩
      · intro y hy
        rcases List.mem_cons.mp hy with rfl | hy
        · exact htrans _ _ _ hc (hle c (f y)).2
        · exact hall y hy

/-! ### A condition on the elements of a list -/

/-- A condition on every element, by evaluation of the list rather than of the type of
its elements. -/
theorem forall_mem_of_all {α : Type} {P : α → Prop} [DecidablePred P] {xs : List α}
    (h : xs.all (fun a => decide (P a)) = true) : ∀ a ∈ xs, P a := by
  simpa using h

/-! ### A partial function on a list -/

/-- Where a function is defined on all elements, it gives one result for each. -/
theorem of_mapM_eq_some {α β : Type} {f : α → Option β} {xs : List α} {ys : List β}
    (h : xs.mapM f = some ys) : ys.length = xs.length ∧ ∀ y ∈ ys, ∃ x ∈ xs, f x = some y := by
  induction xs generalizing ys with
  | nil =>
      obtain rfl : ys = [] := by simpa using h.symm
      simp
  | cons x xs ih =>
      rw [List.mapM_cons] at h
      obtain ⟨y, hy, h⟩ := Option.bind_eq_some_iff.mp h
      obtain ⟨rest, hrest, h⟩ := Option.bind_eq_some_iff.mp h
      obtain rfl : y :: rest = ys := Option.some.inj h
      obtain ⟨hlen, hmem⟩ := ih hrest
      refine ⟨by simp [hlen], List.forall_mem_cons.mpr ⟨⟨x, by simp, hy⟩, fun y' hy' => ?_⟩⟩
      obtain ⟨x', hx', heq⟩ := hmem y' hy'
      exact ⟨x', List.mem_cons_of_mem x hx', heq⟩

theorem mapM_ne_none_iff {α β : Type} {f : α → Option β} {xs : List α} :
    xs.mapM f ≠ none ↔ ∀ x ∈ xs, f x ≠ none := by
  induction xs with
  | nil => simp
  | cons x xs ih =>
      rw [List.mapM_cons, List.forall_mem_cons, ← ih]
      cases f x with
      | none => simp
      | some y => cases xs.mapM f <;> simp

/-! ### One element of a list exchanged -/

theorem mem_set_self {α : Type} {xs : List α} {i : Nat} {a : α} (h : xs[i]? = some a) (b : α) :
    b ∈ xs.set i b :=
  List.mem_set (List.getElem?_eq_some_iff.mp h).1 b

/-- The other elements stay. -/
theorem eq_or_mem_set {α : Type} {xs : List α} {i : Nat} {a x : α} (h : xs[i]? = some a) (b : α)
    (hx : x ∈ xs) : x = a ∨ x ∈ xs.set i b := by
  obtain ⟨j, hj⟩ := List.mem_iff_getElem?.mp hx
  by_cases hij : i = j
  · rw [hij, hj] at h
    exact .inl (Option.some.inj h)
  · exact .inr (List.mem_iff_getElem?.mpr ⟨j, by rw [List.getElem?_set_ne hij, hj]⟩)

/-- The sum after one element is exchanged. -/
theorem sum_map_set {α : Type} (f : α → Nat) {xs : List α} {i : Nat} {a : α}
    (h : xs[i]? = some a) (b : α) :
    ((xs.set i b).map f).sum + f a = (xs.map f).sum + f b := by
  induction xs generalizing i with
  | nil => simp at h
  | cons x xs ih =>
      cases i with
      | zero =>
          obtain rfl : x = a := by simpa using h
          simp only [List.set_cons_zero, List.map_cons, List.sum_cons]
          omega
      | succ i =>
          have hrest := ih (i := i) (by simpa using h)
          simp only [List.set_cons_succ, List.map_cons, List.sum_cons]
          omega

end Dafeng
