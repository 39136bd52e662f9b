import Mathlib.Data.List.Basic
import Mathlib.Data.List.SplitBy

/-!
# Dafeng.Library.Windows

The windows of a list, and the maximal runs of a list: where it is cut is
decided between neighbours (`List.splitBy`). Two ways to go through the runs are
followed, one that collects a run until it ends and one that carries only the
last item.
-/

namespace Dafeng

variable {α β : Type}

/-! ### Windows -/

/-- The sublists of `n` consecutive items, from left to right. -/
def windows (n : Nat) : List α → List (List α)
  | [] => []
  | x :: xs => if n ≤ (x :: xs).length then (x :: xs).take n :: windows n xs else []

theorem length_of_mem_windows {n : Nat} {xs w : List α} (h : w ∈ windows n xs) : w.length = n := by
  induction xs with
  | nil => simp [windows] at h
  | cons x xs ih =>
      rw [windows] at h
      split_ifs at h with hn
      · rcases List.mem_cons.mp h with rfl | h
        · rw [List.length_take]
          omega
        · exact ih h
      · simp at h

theorem mem_of_mem_windows {n : Nat} {xs w : List α} (h : w ∈ windows n xs) {x : α} (hx : x ∈ w) :
    x ∈ xs := by
  induction xs with
  | nil => simp [windows] at h
  | cons y ys ih =>
      rw [windows] at h
      split_ifs at h with hn
      · rcases List.mem_cons.mp h with rfl | h
        · exact List.mem_of_mem_take hx
        · exact List.mem_cons_of_mem _ (ih h)
      · simp at h

/-- No item is left out where there are enough for one window. -/
theorem exists_mem_windows {n : Nat} {xs : List α} (hn : n ≠ 0) (hlen : n ≤ xs.length) {x : α}
    (hx : x ∈ xs) : ∃ w ∈ windows n xs, x ∈ w := by
  induction xs with
  | nil => cases hx
  | cons y ys ih =>
      rw [windows, if_pos hlen]
      by_cases hshort : n ≤ ys.length
      · rcases List.mem_cons.mp hx with rfl | hx
        · obtain ⟨m, rfl⟩ := Nat.exists_eq_succ_of_ne_zero hn
          exact ⟨_, List.mem_cons_self, List.mem_cons_self⟩
        · obtain ⟨w, hw, hmem⟩ := ih hshort hx
          exact ⟨w, List.mem_cons_of_mem _ hw, hmem⟩
      · -- the first window is the whole list
        refine ⟨_, List.mem_cons_self, ?_⟩
        rwa [List.take_of_length_le (by rw [List.length_cons]; omega)]

theorem windows_length_le (n : Nat) (xs : List α) : (windows n xs).length ≤ xs.length := by
  induction xs with
  | nil => simp [windows]
  | cons x xs ih =>
      rw [windows]
      split_ifs
      · simpa using ih
      · simp

theorem windows_map (f : α → β) (n : Nat) (xs : List α) :
    windows n (xs.map f) = (windows n xs).map (List.map f) := by
  induction xs with
  | nil => rfl
  | cons x xs ih =>
      simp only [List.map_cons, windows, List.length_cons, List.length_map, ih]
      split_ifs
      · simp [List.map_take]
      · rfl

/-- The windows by the index they start at. -/
theorem windows_eq_map_range (n : Nat) (xs : List α) :
    windows (n + 1) xs = (List.range (xs.length - n)).map fun i => (xs.drop i).take (n + 1) := by
  induction xs with
  | nil => simp [windows]
  | cons x xs ih =>
      rw [windows]
      split_ifs with h
      · have hlen : (x :: xs).length - n = xs.length - n + 1 := by
          simp only [List.length_cons] at h ⊢
          omega
        rw [hlen, List.range_succ_eq_map, List.map_cons, List.map_map, ih]
        rfl
      · have hlen : (x :: xs).length - n = 0 := by omega
        rw [hlen]
        rfl

/-! ### Neighbours -/

/-- The pairs of neighbours, from left to right. -/
def neighbours (xs : List α) : List (α × α) := xs.zip xs.tail

theorem windows_two (xs : List α) : windows 2 xs = (neighbours xs).map fun p => [p.1, p.2] := by
  induction xs with
  | nil => rfl
  | cons x xs ih =>
      cases xs with
      | nil => rfl
      | cons y ys =>
          rw [windows, if_pos (by simp), ih]
          simp [neighbours]

/-- The neighbours in a list that is read in two parts: for the second part only
the last item of the first is needed. -/
theorem neighbours_append (xs ys : List α) :
    neighbours (xs ++ ys) = neighbours xs ++ neighbours (xs.getLast?.toList ++ ys) := by
  induction xs with
  | nil => simp [neighbours]
  | cons x xs ih =>
      cases xs with
      | nil => simp [neighbours]
      | cons x' xs =>
          have hcons : ∀ zs : List α, neighbours (x :: x' :: zs) =
              (x, x') :: neighbours (x' :: zs) := fun _ => rfl
          rw [List.cons_append, List.cons_append, hcons, hcons, ← List.cons_append, ih,
            List.getLast?_cons_cons, List.cons_append]

/-! ### Runs -/

/-- A chunk without a cut is one run. -/
theorem splitBy_chunk {close : α → α → Bool} {chunk : List α} (hne : chunk ≠ [])
    (hchain : chunk.IsChain fun a b => close a b) : chunk.splitBy close = [chunk] :=
  List.splitBy_of_isChain hne hchain

/-- A chunk without a cut in it and a cut behind it is the first run. -/
theorem splitBy_chunk_append {close : α → α → Bool} {chunk : List α} (hne : chunk ≠ [])
    (hchain : chunk.IsChain fun a b => close a b) {e : α} (rest : List α)
    (hfar : close (chunk.getLast hne) e = false) :
    (chunk ++ e :: rest).splitBy close = chunk :: (e :: rest).splitBy close := by
  rw [List.splitBy_append_cons, splitBy_chunk hne hchain]
  · rfl
  · intro x hx
    rw [List.getLast?_eq_some_getLast hne] at hx
    obtain rfl := Option.some.inj hx
    exact hfar

/-- What holds of the neighbours in every run holds of all neighbours that are close. -/
theorem isChain_of_runs {close : α → α → Bool} {R : α → α → Prop} {xs : List α}
    (h : ∀ run ∈ xs.splitBy close, run.IsChain R) :
    xs.IsChain fun a b => close a b = true → R a b := by
  have hruns : (xs.splitBy close).flatten.IsChain fun a b => close a b = true → R a b := by
    rw [List.isChain_flatten (List.nil_notMem_splitBy close xs)]
    refine ⟨fun run hrun => (h run hrun).imp fun _ _ hR _ => hR, ?_⟩
    refine (List.isChain_getLast_head_splitBy close xs).imp ?_
    rintro run run' ⟨hne, hne', hfar⟩ x hx y hy hclose
    rw [List.getLast?_eq_some_getLast hne] at hx
    rw [List.head?_eq_some_head hne'] at hy
    obtain rfl := Option.some.inj hx
    obtain rfl := Option.some.inj hy
    rw [hfar] at hclose
    cases hclose
  rwa [List.flatten_splitBy] at hruns

/-- A chunk grows by an item that is close to its end. -/
theorem chunk_concat {close : α → α → Bool} {chunk : List α} (hne : chunk ≠ [])
    (hchain : chunk.IsChain fun a b => close a b) {e : α}
    (hclose : close (chunk.getLast hne) e) : (chunk ++ [e]).IsChain fun a b => close a b := by
  rw [List.isChain_append]
  refine ⟨hchain, List.isChain_singleton _, fun x hx y hy => ?_⟩
  rw [List.getLast?_eq_some_getLast hne] at hx
  obtain rfl := Option.some.inj hx
  obtain rfl := Option.some.inj hy
  exact hclose

/-- A fold over a list that is cut where its items are not close. `Walked s closed cur`
says that `s` has the runs `closed` behind it and is in the run `cur`; a step goes on with
the run or begins the next one. Of neighbours `R` is known. -/
theorem foldl_splitBy {σ : Type} (close : α → α → Bool) (step : σ → α → σ) {R : α → α → Prop}
    {Walked : σ → List (List α) → List α → Prop}
    (hnear : ∀ s closed cur (hne : cur ≠ []) e, Walked s closed cur → R (cur.getLast hne) e →
      close (cur.getLast hne) e = true → Walked (step s e) closed (cur ++ [e]))
    (hfar : ∀ s closed cur (hne : cur ≠ []) e, Walked s closed cur → R (cur.getLast hne) e →
      close (cur.getLast hne) e = false → Walked (step s e) (closed ++ [cur]) [e])
    {s : σ} {closed : List (List α)} {cur : List α} (h : Walked s closed cur) (hne : cur ≠ [])
    (hchain : cur.IsChain fun a b => close a b) (es : List α) (hR : (cur ++ es).Pairwise R) :
    ∃ closed' last, closed' ++ [last] = closed ++ (cur ++ es).splitBy close ∧
      Walked (es.foldl step s) closed' last := by
  induction es generalizing s closed cur with
  | nil =>
      refine ⟨closed, cur, ?_, h⟩
      rw [List.append_nil, splitBy_chunk hne hchain]
  | cons e es ih =>
      have hlast : R (cur.getLast hne) e :=
        (List.pairwise_append.mp hR).2.2 _ (List.getLast_mem hne) _ List.mem_cons_self
      cases hclose : close (cur.getLast hne) e with
      | true =>
          have hnext := hnear s closed cur hne e h hlast hclose
          obtain ⟨closed', last, heq, hwalked⟩ := ih hnext (by simp)
            (chunk_concat hne hchain hclose) (by simpa using hR)
          refine ⟨closed', last, ?_, hwalked⟩
          rw [heq, List.append_assoc, List.singleton_append]
      | false =>
          have hnext := hfar s closed cur hne e h hlast hclose
          obtain ⟨closed', last, heq, hwalked⟩ := ih hnext (by simp) (List.isChain_singleton e)
            (List.pairwise_append.mp hR).2.1
          refine ⟨closed', last, ?_, hwalked⟩
          rw [heq, splitBy_chunk_append hne hchain es hclose, List.append_assoc]
          rfl

end Dafeng
