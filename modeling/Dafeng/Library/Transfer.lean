import Mathlib.Tactic.SplitIfs

/-!
# Dafeng.Library.Transfer

Loops that move data piece by piece between a buffer and a stream. What each pass
through such a loop meets is given by a list, so that a statement about all lists is
one about every way in which the pieces can be cut and the loop can fail. A list that
runs out is the end of the loop's time.
-/

namespace Dafeng.Transfer

variable {α : Type}

/-- What a pass through the loop meets: nothing to do yet, a transfer of up to `k`
items, or an end at which `stray` items were moved all the same. -/
inductive Pass
  | again
  | move (k : Nat)
  | stop (stray : Nat)
  deriving DecidableEq, Repr

/-- Ends move nothing. -/
def Pass.clean : Pass → Bool
  | .stop stray => stray == 0
  | _ => true

/-- Fill the buffer `buf` with `need` more items of the stream `src`: the buffer, if it was
filled, with what is left of the stream and of the passes. A transfer of no item is the end
of the stream. -/
def pull (buf : List α) (need : Nat) (src : List α) :
    List Pass → Option (List α) × List α × List Pass
  | [] => if need = 0 then (some buf, src, []) else (none, src, [])
  | pass :: passes =>
    if need = 0 then (some buf, src, pass :: passes)
    else
      match pass with
      | .again => pull buf need src passes
      | .move k =>
        let n := min k (min need src.length)
        if n = 0 then (none, src, passes)
        else pull (buf ++ src.take n) (need - n) (src.drop n) passes
      | .stop stray => (none, src.drop (min stray need), passes)

/-- Append `rest` to the stream `out`: whether all of it was, with the stream and the passes
that are left. -/
def push (rest out : List α) : List Pass → Bool × List α × List Pass
  | [] => (rest.isEmpty, out, [])
  | pass :: passes =>
    if rest.isEmpty then (true, out, pass :: passes)
    else
      match pass with
      | .again => push rest out passes
      | .move k =>
        if k = 0 then (false, out, passes)
        else push (rest.drop k) (out ++ rest.take k) passes
      | .stop stray => (false, out ++ rest.take stray, passes)

theorem pull_zero (buf src : List α) (passes : List Pass) :
    pull buf 0 src passes = (some buf, src, passes) := by
  cases passes <;> rfl

theorem push_nil (out : List α) (passes : List Pass) :
    push [] out passes = (true, out, passes) := by
  cases passes <;> rfl

/-! ### What a loop moves -/

/-- What was pulled came from the front of the stream, in order, and is what was added to the
buffer if that was filled. -/
theorem pull_spec (passes : List Pass) (buf : List α) (need : Nat) (src : List α) :
    ∃ got, src = got ++ (pull buf need src passes).2.1 ∧ got.length ≤ need ∧
      ∀ out, (pull buf need src passes).1 = some out → out = buf ++ got ∧ got.length = need := by
  induction passes generalizing buf need src with
  | nil =>
      unfold pull
      split_ifs with hzero
      · exact ⟨[], rfl, Nat.zero_le _, fun out h => by simp_all⟩
      · exact ⟨[], rfl, Nat.zero_le _, fun out h => by cases h⟩
  | cons pass passes ih =>
      unfold pull
      split_ifs with hzero
      · exact ⟨[], rfl, Nat.zero_le _, fun out h => by simp_all⟩
      · cases pass with
        | again => exact ih buf need src
        | move k =>
            dsimp only
            generalize hcount : min k (min need src.length) = n
            split_ifs with hnone
            · exact ⟨[], rfl, Nat.zero_le _, fun out h => by cases h⟩
            · obtain ⟨got, hsplit, hlen, hfull⟩ :=
                ih (buf ++ src.take n) (need - n) (src.drop n)
              have hn : (src.take n).length = n := by
                rw [List.length_take]
                omega
              refine ⟨src.take n ++ got, ?_, ?_, fun out hout => ?_⟩
              · rw [List.append_assoc, ← hsplit, List.take_append_drop]
              · rw [List.length_append, hn]
                omega
              · obtain ⟨hbuf, hneed⟩ := hfull out hout
                refine ⟨by rw [hbuf, List.append_assoc], ?_⟩
                rw [List.length_append, hn]
                omega
        | stop stray =>
            refine ⟨src.take (min stray need), (List.take_append_drop _ _).symm, ?_,
              fun out h => by cases h⟩
            rw [List.length_take]
            omega

/-- What was pushed is a prefix of the buffer, and all of it on success. -/
theorem push_spec (passes : List Pass) (rest out : List α) :
    ∃ cut, cut <+: rest ∧ (push rest out passes).2.1 = out ++ cut ∧
      ((push rest out passes).1 = true → cut = rest) := by
  induction passes generalizing rest out with
  | nil =>
      refine ⟨[], List.nil_prefix, (List.append_nil out).symm, fun hdone => ?_⟩
      exact (List.isEmpty_iff.mp hdone).symm
  | cons pass passes ih =>
      unfold push
      split_ifs with hempty
      · refine ⟨[], List.nil_prefix, (List.append_nil out).symm, fun _ => ?_⟩
        exact (List.isEmpty_iff.mp hempty).symm
      · cases pass with
        | again => exact ih rest out
        | move k =>
            dsimp only
            split_ifs with hnone
            · exact ⟨[], List.nil_prefix, (List.append_nil out).symm, fun h => by cases h⟩
            · obtain ⟨cut, hcut, hout, hall⟩ := ih (rest.drop k) (out ++ rest.take k)
              refine ⟨rest.take k ++ cut, ?_, by rw [hout, List.append_assoc], fun hdone => ?_⟩
              · obtain ⟨tail, htail⟩ := hcut
                exact ⟨tail, by rw [List.append_assoc, htail, List.take_append_drop]⟩
              · rw [hall hdone, List.take_append_drop]
        | stop stray => exact ⟨rest.take stray, List.take_prefix _ _, rfl, fun h => by cases h⟩

theorem pull_passes (passes : List Pass) (buf : List α) (need : Nat) (src : List α) :
    (pull buf need src passes).2.2 <:+ passes := by
  induction passes generalizing buf need src with
  | nil =>
      unfold pull
      split_ifs <;> exact List.suffix_rfl
  | cons pass passes ih =>
      unfold pull
      split_ifs with hzero
      · exact List.suffix_rfl
      · cases pass with
        | again => exact (ih _ _ _).trans (List.suffix_cons _ _)
        | move k =>
            dsimp only
            split_ifs
            · exact List.suffix_cons _ _
            · exact (ih _ _ _).trans (List.suffix_cons _ _)
        | stop stray => exact List.suffix_cons _ _

theorem push_passes (passes : List Pass) (rest out : List α) :
    (push rest out passes).2.2 <:+ passes := by
  induction passes generalizing rest out with
  | nil => exact List.suffix_rfl
  | cons pass passes ih =>
      unfold push
      split_ifs with hempty
      · exact List.suffix_rfl
      · cases pass with
        | again => exact (ih _ _).trans (List.suffix_cons _ _)
        | move k =>
            dsimp only
            split_ifs
            · exact List.suffix_cons _ _
            · exact (ih _ _).trans (List.suffix_cons _ _)
        | stop stray => exact List.suffix_cons _ _

/-! ### Stray items -/

/-- The same pass, with an end that moves nothing. -/
def Pass.cleaned : Pass → Pass
  | .again => .again
  | .move k => .move k
  | .stop _ => .stop 0

theorem Pass.cleaned_of_clean {pass : Pass} (h : pass.clean) : pass.cleaned = pass := by
  cases pass with
  | again => rfl
  | move k => rfl
  | stop stray =>
      obtain rfl : stray = 0 := by simpa [Pass.clean] using h
      rfl

theorem map_cleaned {passes : List Pass} (h : ∀ pass ∈ passes, pass.clean) :
    passes.map Pass.cleaned = passes := by
  have hmap := List.map_congr_left fun pass hpass => Pass.cleaned_of_clean (h pass hpass)
  exact hmap.trans (List.map_id' passes)

/-- Stray items are lost to the stream, and nothing else depends on them. -/
theorem pull_cleaned (passes : List Pass) (buf : List α) (need : Nat) (src : List α) :
    (pull buf need src (passes.map Pass.cleaned)).1 = (pull buf need src passes).1 ∧
    (pull buf need src (passes.map Pass.cleaned)).2.2 =
      (pull buf need src passes).2.2.map Pass.cleaned ∧
    (pull buf need src passes).2.1 <:+ (pull buf need src (passes.map Pass.cleaned)).2.1 ∧
    ((pull buf need src passes).1.isSome →
      (pull buf need src (passes.map Pass.cleaned)).2.1 = (pull buf need src passes).2.1) := by
  induction passes generalizing buf need src with
  | nil =>
      refine ⟨rfl, ?_, List.suffix_rfl, fun _ => rfl⟩
      show (pull buf need src []).2.2 = _
      unfold pull
      split_ifs <;> rfl
  | cons pass passes ih =>
      rw [List.map_cons]
      by_cases hzero : need = 0
      · subst hzero
        rw [pull_zero, pull_zero]
        exact ⟨rfl, rfl, List.suffix_rfl, fun _ => rfl⟩
      · cases pass with
        | again =>
            rw [Pass.cleaned, pull, if_neg hzero, pull, if_neg hzero]
            exact ih buf need src
        | move k =>
            rw [Pass.cleaned, pull, if_neg hzero, pull, if_neg hzero]
            dsimp only
            split_ifs with hnone
            · exact ⟨rfl, rfl, List.suffix_rfl, fun _ => rfl⟩
            · exact ih _ _ _
        | stop stray =>
            rw [Pass.cleaned, pull, if_neg hzero, pull, if_neg hzero]
            refine ⟨rfl, rfl, ?_, fun h => by cases h⟩
            rw [Nat.zero_min, List.drop_zero]
            exact List.drop_suffix _ _

/-- Stray items are added to the stream, and nothing else depends on them. -/
theorem push_cleaned (passes : List Pass) (rest out : List α) :
    (push rest out (passes.map Pass.cleaned)).1 = (push rest out passes).1 ∧
    (push rest out (passes.map Pass.cleaned)).2.2 =
      (push rest out passes).2.2.map Pass.cleaned ∧
    (push rest out (passes.map Pass.cleaned)).2.1 <+: (push rest out passes).2.1 ∧
    ((push rest out passes).1 = true →
      (push rest out (passes.map Pass.cleaned)).2.1 = (push rest out passes).2.1) := by
  induction passes generalizing rest out with
  | nil => exact ⟨rfl, rfl, List.prefix_rfl, fun _ => rfl⟩
  | cons pass passes ih =>
      rw [List.map_cons]
      by_cases hempty : rest.isEmpty
      · obtain rfl := List.isEmpty_iff.mp hempty
        rw [push_nil, push_nil]
        exact ⟨rfl, rfl, List.prefix_rfl, fun _ => rfl⟩
      · cases pass with
        | again =>
            rw [Pass.cleaned, push, if_neg hempty, push, if_neg hempty]
            exact ih rest out
        | move k =>
            rw [Pass.cleaned, push, if_neg hempty, push, if_neg hempty]
            split_ifs with hnone
            · exact ⟨rfl, rfl, List.prefix_rfl, fun _ => rfl⟩
            · exact ih _ _
        | stop stray =>
            rw [Pass.cleaned, push, if_neg hempty, push, if_neg hempty]
            refine ⟨rfl, rfl, ?_, fun h => by cases h⟩
            rw [List.take_zero, List.append_nil]
            exact List.prefix_append _ _

end Dafeng.Transfer
