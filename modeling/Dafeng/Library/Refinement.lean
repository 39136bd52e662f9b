import Dafeng.Library.Transition

/-!
# Dafeng.Library.Refinement

One transition system inside another: a view of the concrete states in which every
concrete step is a short run of the abstract system. What holds along the runs of
the abstract system then holds of every view. A component of a system is a machine
of its own: it takes every label, and puts out its part of what the system does.
-/

namespace Dafeng

namespace System

/-- Each step of `sys` is a run of `abs`, seen through `view`. -/
structure Refinement {σ ℓ τ κ : Type} (sys : System σ ℓ) (abs : System τ κ) where
  view : σ → τ
  init : view sys.init = abs.init
  step : ∀ {s s' : σ} {l : ℓ}, sys.Reachable s → sys.step s l = some s' →
    ∃ ks, abs.runFrom (view s) ks = some (view s')

namespace Refinement

variable {σ ℓ τ κ : Type} {sys : System σ ℓ} {abs : System τ κ} (r : Refinement sys abs)
include r

/-- A run of the concrete system is a run of the abstract one. -/
theorem runFrom {s s' : σ} {ls : List ℓ} (hs : sys.Reachable s)
    (hrun : sys.runFrom s ls = some s') :
    ∃ ks, abs.runFrom (r.view s) ks = some (r.view s') := by
  induction ls generalizing s with
  | nil =>
      obtain rfl := Option.some.inj hrun
      exact ⟨[], rfl⟩
  | cons l ls ih =>
      obtain ⟨s₁, hl, hls⟩ := Option.bind_eq_some_iff.mp hrun
      obtain ⟨ks, hks⟩ := r.step hs hl
      obtain ⟨ks', hks'⟩ := ih (hs.step hl) hls
      refine ⟨ks ++ ks', ?_⟩
      rw [runFrom_append, hks, Option.bind_some, hks']

/-- Views of reachable states are reachable. -/
theorem reachable {s : σ} (hs : sys.Reachable s) : abs.Reachable (r.view s) := by
  induction hs with
  | init =>
      rw [r.init]
      exact .init
  | step hs hl ih =>
      obtain ⟨ks, hks⟩ := r.step hs hl
      exact ih.runFrom hks

/-- What always holds of the abstract system holds of every view. -/
theorem invariant {I : τ → Prop} (hI : ∀ {t}, abs.Reachable t → I t) {s : σ}
    (hs : sys.Reachable s) : I (r.view s) :=
  hI (r.reachable hs)

end Refinement

/-- Where a machine comes to on a list of labels, and what it puts out. -/
def outputs {τ ℓ ο : Type} (machine : τ → ℓ → τ × List ο) : τ → List ℓ → τ × List ο
  | t, [] => (t, [])
  | t, l :: ls =>
    let next := machine t l
    let rest := outputs machine next.1 ls
    (rest.1, next.2 ++ rest.2)

/-- **Components.** A component that every step moves as its own machine says, and whose output
grows as that machine says, comes on every run to what the machine alone comes to. -/
theorem runFrom_outputs {σ ℓ τ ο : Type} {sys : System σ ℓ} {machine : τ → ℓ → τ × List ο}
    {I : σ → Prop} (view : σ → τ) (out : σ → List ο)
    (hinv : ∀ {s l s'}, I s → sys.step s l = some s' → I s')
    (hstep : ∀ {s l s'}, I s → sys.step s l = some s' →
      view s' = (machine (view s) l).1 ∧ out s' = out s ++ (machine (view s) l).2)
    {s s' : σ} {ls : List ℓ} (hs : I s) (hrun : sys.runFrom s ls = some s') :
    view s' = (outputs machine (view s) ls).1 ∧
      out s' = out s ++ (outputs machine (view s) ls).2 := by
  induction ls generalizing s with
  | nil =>
      obtain rfl := Option.some.inj hrun
      exact ⟨rfl, by simp [outputs]⟩
  | cons l ls ih =>
      obtain ⟨s₁, hl, hls⟩ := Option.bind_eq_some_iff.mp hrun
      obtain ⟨hview, hout⟩ := hstep hs hl
      obtain ⟨hviews, houts⟩ := ih (hinv hs hl) hls
      rw [hview] at hviews houts
      exact ⟨hviews, by rw [houts, hout, List.append_assoc]; rfl⟩

end System

end Dafeng
