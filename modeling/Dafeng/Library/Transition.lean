import Mathlib.Tactic.SplitIfs

/-!
# Dafeng.Library.Transition

Labelled transition systems with an executable step: `step s l` is `none` where
the label is not enabled. A trace can be replayed, an invariant is proved once
for all reachable states, and a system can be restricted to the steps that an
assumption on the environment allows.
-/

namespace Dafeng

/-- A transition system. -/
structure System (σ ℓ : Type) where
  init : σ
  step : σ → ℓ → Option σ

namespace System

variable {σ ℓ : Type} (sys : System σ ℓ)

/-- The states that some run leads to. -/
inductive Reachable : σ → Prop
  | init : Reachable sys.init
  | step {s s' : σ} {l : ℓ} : Reachable s → sys.step s l = some s' → Reachable s'

/-- Replay labels from a state. -/
def runFrom : σ → List ℓ → Option σ
  | s, [] => some s
  | s, l :: ls => (sys.step s l).bind fun s' => runFrom s' ls

/-- Replay labels from the initial state. -/
def run (ls : List ℓ) : Option σ := sys.runFrom sys.init ls

variable {sys}

theorem runFrom_append (s : σ) (ls ls' : List ℓ) :
    sys.runFrom s (ls ++ ls') = (sys.runFrom s ls).bind fun s' => sys.runFrom s' ls' := by
  induction ls generalizing s with
  | nil => rfl
  | cons l ls ih =>
      rw [List.cons_append, runFrom, runFrom, Option.bind_assoc]
      exact congrArg _ (funext ih)

theorem run_append (ls ls' : List ℓ) :
    sys.run (ls ++ ls') = (sys.run ls).bind fun s => sys.runFrom s ls' :=
  runFrom_append sys.init ls ls'

/-- A run goes on with one more step. -/
theorem run_concat {ls : List ℓ} {s s' : σ} {l : ℓ} (hrun : sys.run ls = some s)
    (hstep : sys.step s l = some s') : sys.run (ls ++ [l]) = some s' := by
  rw [run_append, hrun, Option.bind_some, runFrom, hstep]
  rfl

/-- **Invariants.** What holds initially and survives every step from a
reachable state holds in every reachable state. -/
theorem Reachable.invariant {I : σ → Prop} (hinit : I sys.init)
    (hstep : ∀ {s l s'}, sys.Reachable s → I s → sys.step s l = some s' → I s')
    {s : σ} (h : sys.Reachable s) : I s := by
  induction h with
  | init => exact hinit
  | step hs hl ih => exact hstep hs ih hl

theorem Reachable.runFrom {s s' : σ} (hs : sys.Reachable s) {ls : List ℓ}
    (h : sys.runFrom s ls = some s') : sys.Reachable s' := by
  induction ls generalizing s with
  | nil =>
      obtain rfl := Option.some.inj h
      exact hs
  | cons l ls ih =>
      obtain ⟨s₁, hl, hls⟩ := Option.bind_eq_some_iff.mp h
      exact ih (hs.step hl) hls

theorem reachable_of_run {ls : List ℓ} {s : σ} (h : sys.run ls = some s) : sys.Reachable s :=
  Reachable.init.runFrom h

/-! ### Conditions on the steps of a run -/

/-- A condition on every step of a run: on its label, and the state it is taken
in. -/
def each (sys : System σ ℓ) (cond : σ → ℓ → Prop) : σ → List ℓ → Prop
  | _, [] => True
  | s, l :: ls => cond s l ∧ ∀ s', sys.step s l = some s' → each sys cond s' ls

theorem each_cons {cond : σ → ℓ → Prop} {s s' : σ} {l : ℓ} (ls : List ℓ)
    (h : sys.step s l = some s') : sys.each cond s (l :: ls) ↔ cond s l ∧ sys.each cond s' ls := by
  refine and_congr_right fun _ => ⟨fun hall => hall s' h, fun hs' s₁ h₁ => ?_⟩
  rw [h] at h₁
  obtain rfl := Option.some.inj h₁
  exact hs'

theorem each_append {cond : σ → ℓ → Prop} {s s' : σ} {ls : List ℓ} (ls' : List ℓ)
    (h : sys.runFrom s ls = some s') :
    sys.each cond s (ls ++ ls') ↔ sys.each cond s ls ∧ sys.each cond s' ls' := by
  induction ls generalizing s with
  | nil =>
      obtain rfl := Option.some.inj h
      exact ⟨fun hall => ⟨trivial, hall⟩, And.right⟩
  | cons l ls ih =>
      obtain ⟨s₁, hl, hls⟩ := Option.bind_eq_some_iff.mp h
      rw [List.cons_append, each_cons _ hl, each_cons _ hl, ih hls, and_assoc]

theorem each_of_forall {cond : σ → ℓ → Prop} {ls : List ℓ} (h : ∀ l ∈ ls, ∀ s, cond s l) (s : σ) :
    sys.each cond s ls := by
  induction ls generalizing s with
  | nil => trivial
  | cons l ls ih =>
      obtain ⟨hl, hls⟩ := List.forall_mem_cons.mp h
      exact ⟨hl s, fun s' _ => ih hls s'⟩

/-- Conditions that agree under an invariant agree along a run. -/
theorem each_congr {I : σ → Prop} {cond cond' : σ → ℓ → Prop}
    (hinv : ∀ {s l s'}, I s → sys.step s l = some s' → I s')
    (hcond : ∀ {s} l, I s → (cond s l ↔ cond' s l)) {s : σ} (hs : I s) (ls : List ℓ) :
    sys.each cond s ls ↔ sys.each cond' s ls := by
  induction ls generalizing s with
  | nil => exact Iff.rfl
  | cons l ls ih =>
      exact and_congr (hcond l hs) (forall₂_congr fun s' hl => ih (hinv hs hl))

/-- What every step keeps that meets a condition, a run of such steps keeps. -/
theorem runFrom_invariant {I : σ → Prop} {cond : σ → ℓ → Prop}
    (hstep : ∀ {s l s'}, I s → cond s l → sys.step s l = some s' → I s')
    {s t : σ} {ls : List ℓ} (hs : I s) (hrun : sys.runFrom s ls = some t)
    (hcond : sys.each cond s ls) : I t := by
  induction ls generalizing s with
  | nil =>
      obtain rfl := Option.some.inj hrun
      exact hs
  | cons l ls ih =>
      obtain ⟨s₁, hl, hls⟩ := Option.bind_eq_some_iff.mp hrun
      rw [each_cons ls hl] at hcond
      exact ih (hstep hs hcond.1 hl) hls hcond.2

/-- **What a state remembers.** Where one step keeps `P` exactly under a
condition, a run keeps it exactly if all its steps meet the condition. -/
theorem runFrom_iff_each {P : σ → Prop} {given cond : σ → ℓ → Prop}
    (hstep : ∀ {s l s'}, given s l → sys.step s l = some s' → (P s' ↔ P s ∧ cond s l))
    {s s' : σ} {ls : List ℓ} (hrun : sys.runFrom s ls = some s') (hgiven : sys.each given s ls) :
    P s' ↔ P s ∧ sys.each cond s ls := by
  induction ls generalizing s with
  | nil =>
      obtain rfl := Option.some.inj hrun
      exact ⟨fun h => ⟨h, trivial⟩, And.left⟩
  | cons l ls ih =>
      obtain ⟨s₁, hl, hls⟩ := Option.bind_eq_some_iff.mp hrun
      rw [each_cons ls hl] at hgiven ⊢
      rw [ih hls hgiven.2, hstep hgiven.1 hl, and_assoc]

/-- **What holds along a run.** Where an invariant lets one step lead to `P`
exactly under a condition, every state on a run has `P` exactly if all its steps
meet the condition. -/
theorem forall_reached_iff_each {I P : σ → Prop} {cond : σ → ℓ → Prop}
    (hinv : ∀ {s l s'}, I s → sys.step s l = some s' → I s')
    (hstep : ∀ {s l s'}, I s → P s → sys.step s l = some s' → (P s' ↔ cond s l))
    {s t : σ} {ls : List ℓ} (hs : I s) (hP : P s) (hrun : sys.runFrom s ls = some t) :
    (∀ ls' s', ls' <+: ls → sys.runFrom s ls' = some s' → P s') ↔ sys.each cond s ls := by
  induction ls generalizing s with
  | nil =>
      refine ⟨fun _ => trivial, fun _ ls' s' hpre hrun' => ?_⟩
      obtain rfl := List.prefix_nil.mp hpre
      obtain rfl := Option.some.inj hrun'
      exact hP
  | cons l ls ih =>
      obtain ⟨s₁, hl, hls⟩ := Option.bind_eq_some_iff.mp hrun
      rw [each_cons ls hl]
      constructor
      · intro hall
        have hP₁ : P s₁ := hall [l] s₁ (List.prefix_append [l] ls) (by simp [runFrom, hl])
        refine ⟨(hstep hs hP hl).mp hP₁, ?_⟩
        refine (ih (hinv hs hl) hP₁ hls).mp fun ls' s' hpre hrun' => ?_
        exact hall (l :: ls') s' (List.cons_prefix_cons.mpr ⟨rfl, hpre⟩)
          (by simp [runFrom, hl, hrun'])
      · intro h ls' s' hpre hrun'
        obtain ⟨hcond, hrest⟩ := h
        cases ls' with
        | nil =>
            obtain rfl := Option.some.inj hrun'
            exact hP
        | cons l' ls' =>
            obtain ⟨rfl, htail⟩ := List.cons_prefix_cons.mp hpre
            rw [runFrom, hl, Option.bind_some] at hrun'
            exact (ih (hinv hs hl) ((hstep hs hP hl).mpr hcond) hls).mpr hrest ls' s' htail hrun'

/-- What every step keeps, every run keeps. -/
theorem runFrom_keeps {I : σ → Prop} (hstep : ∀ {s l s'}, I s → sys.step s l = some s' → I s')
    {s t : σ} {ls : List ℓ} (hs : I s) (hrun : sys.runFrom s ls = some t) : I t :=
  runFrom_invariant (fun hI (_ : True) hl => hstep hI hl) hs hrun
    (each_of_forall (fun _ _ _ => trivial) s)

/-- **Variants.** What a counted step makes smaller, and only some steps let grow, by
`gain` at most, bounds the counted steps. -/
theorem runFrom_variant {I : σ → Prop} (counted growing : ℓ → Bool) (variant : σ → Nat)
    (gain : Nat) (hinv : ∀ {s l s'}, I s → sys.step s l = some s' → I s')
    (hstep : ∀ {s l s'}, I s → sys.step s l = some s' →
      variant s' + (if counted l then 1 else 0) ≤ variant s + if growing l then gain else 0)
    {s s' : σ} {ls : List ℓ} (hs : I s) (hrun : sys.runFrom s ls = some s') :
    ls.countP counted + variant s' ≤ variant s + gain * ls.countP growing := by
  induction ls generalizing s with
  | nil =>
      obtain rfl := Option.some.inj hrun
      simp
  | cons l ls ih =>
      obtain ⟨s₁, hl, hls⟩ := Option.bind_eq_some_iff.mp hrun
      have htail := ih (hinv hs hl) hls
      have hhead := hstep hs hl
      rw [List.countP_cons, List.countP_cons, Nat.mul_add]
      split_ifs at hhead ⊢ <;> omega

/-! ### Restriction -/

/-- The steps of a system that an assumption allows. -/
def restrict (sys : System σ ℓ) (allowed : σ → ℓ → Bool) : System σ ℓ where
  init := sys.init
  step s l := if allowed s l then sys.step s l else none

variable {allowed : σ → ℓ → Bool}

theorem restrict_step {s s' : σ} {l : ℓ} :
    (sys.restrict allowed).step s l = some s' ↔ allowed s l ∧ sys.step s l = some s' := by
  simp [restrict]

/-- A run whose labels are all allowed. -/
theorem run_restrict {ls : List ℓ} (h : ∀ l ∈ ls, ∀ s, allowed s l = true) :
    (sys.restrict allowed).run ls = sys.run ls := by
  have hfrom : ∀ s, (sys.restrict allowed).runFrom s ls = sys.runFrom s ls := by
    induction ls with
    | nil => exact fun _ => rfl
    | cons l ls ih =>
        obtain ⟨hl, hls⟩ := List.forall_mem_cons.mp h
        intro s
        have hstep : (sys.restrict allowed).step s l = sys.step s l := if_pos (hl s)
        rw [runFrom, runFrom, hstep]
        exact congrArg _ (funext (ih hls))
  exact hfrom sys.init

/-- A restriction reaches no new state. -/
theorem Reachable.of_restrict {s : σ} (h : (sys.restrict allowed).Reachable s) :
    sys.Reachable s :=
  h.invariant .init fun _ hs hl => hs.step (restrict_step.mp hl).2

end System

end Dafeng
