import Mathlib.Data.List.Basic

/-!
# Dafeng.Library.Paths

Absolute paths in normal form, and containment of their texts. A path is inside
another one when it has the names of that one first; on the texts this is a prefix
that ends where a name ends.
-/

namespace Dafeng

variable {α : Type} {sep : α}

/-! ### Texts cut at separators -/

/-- A text goes on with a separator or not at all. -/
def AtSeparator (sep : α) (s : List α) : Prop := ∀ a ∈ s.head?, a = sep

theorem atSeparator_nil : AtSeparator sep [] := by simp [AtSeparator]

theorem atSeparator_cons (s : List α) : AtSeparator sep (sep :: s) := by simp [AtSeparator]

/-- Parts without a separator are cut off at the first one. -/
theorem append_atSeparator_inj {a b s t : List α} (ha : sep ∉ a) (hb : sep ∉ b)
    (hs : AtSeparator sep s) (ht : AtSeparator sep t) : a ++ s = b ++ t ↔ a = b ∧ s = t := by
  constructor
  · intro heq
    induction a generalizing b with
    | nil =>
        cases b with
        | nil => exact ⟨rfl, heq⟩
        | cons x b =>
            have hx : x = sep := hs x (by simpa using congrArg List.head? heq)
            exact absurd (hx ▸ List.mem_cons_self) hb
    | cons x a ih =>
        cases b with
        | nil =>
            have hx : x = sep := ht x (by simpa using (congrArg List.head? heq).symm)
            exact absurd (hx ▸ List.mem_cons_self) ha
        | cons y b =>
            obtain ⟨rfl, htail⟩ := List.cons_eq_cons.mp heq
            obtain ⟨rfl, rfl⟩ := ih (List.not_mem_of_not_mem_cons ha)
              (List.not_mem_of_not_mem_cons hb) htail
            exact ⟨rfl, rfl⟩
  · intro h
    rw [h.1, h.2]

/-- A text begins with another one, which ends where a name ends. -/
def Covers (sep : α) (r t : List α) : Prop := ∃ rest, t = r ++ rest ∧ AtSeparator sep rest

/-- Names, each behind a separator. -/
def below (sep : α) (names : List (List α)) : List α := names.flatMap (sep :: ·)

@[simp] theorem below_nil : below sep [] = [] := rfl

@[simp] theorem below_cons (c : List α) (names : List (List α)) :
    below sep (c :: names) = sep :: (c ++ below sep names) := rfl

theorem atSeparator_below_append {names : List (List α)} {rest : List α}
    (hrest : AtSeparator sep rest) : AtSeparator sep (below sep names ++ rest) := by
  cases names with
  | nil => simpa using hrest
  | cons c names => exact atSeparator_cons _

theorem atSeparator_below (names : List (List α)) : AtSeparator sep (below sep names) := by
  have hend : AtSeparator sep (below sep names ++ []) := atSeparator_below_append atSeparator_nil
  rwa [List.append_nil] at hend

/-- On names the prefixes that end with a name are the prefixes of the lists. -/
theorem covers_below {rs ts : List (List α)} (hrs : ∀ c ∈ rs, sep ∉ c) (hts : ∀ c ∈ ts, sep ∉ c) :
    Covers sep (below sep rs) (below sep ts) ↔ rs <+: ts := by
  induction rs generalizing ts with
  | nil => exact iff_of_true ⟨below sep ts, rfl, atSeparator_below ts⟩ List.nil_prefix
  | cons c rs ih =>
      cases ts with
      | nil =>
          refine iff_of_false ?_ (by simp)
          intro h
          obtain ⟨rest, heq, -⟩ := h
          simp at heq
      | cons d ts =>
          rw [List.forall_mem_cons] at hrs hts
          rw [List.cons_prefix_cons, ← ih hrs.2 hts.2]
          constructor
          · intro h
            obtain ⟨rest, heq, hrest⟩ := h
            rw [below_cons, below_cons, List.cons_append, List.cons_inj_right, List.append_assoc,
              append_atSeparator_inj hts.1 hrs.1 (atSeparator_below ts)
                (atSeparator_below_append hrest)] at heq
            exact ⟨heq.1.symm, rest, heq.2, hrest⟩
          · intro h
            obtain ⟨rfl, rest, heq, hrest⟩ := h
            exact ⟨rest, by simp [heq], hrest⟩

/-! ### Paths -/

/-- An absolute path in normal form: the name of its root, which may be empty, and the
names below the root. -/
structure AbsolutePath {α : Type} (sep : α) where
  rootName : List α
  names : List (List α)
  root_clean : sep ∉ rootName
  clean : ∀ c ∈ names, c ≠ [] ∧ sep ∉ c

namespace AbsolutePath

/-- The root's name first, then the names. -/
def components (p : AbsolutePath sep) : List (List α) := p.rootName :: p.names

/-- Only the root ends with a separator. -/
def text (p : AbsolutePath sep) : List α :=
  p.rootName ++ if p.names = [] then [sep] else below sep p.names

variable {r t : AbsolutePath sep}

theorem text_of_ne (h : r.names ≠ []) : r.text = r.rootName ++ below sep r.names := by
  rw [text, if_neg h]

/-- Below a directory that is not the root, the texts that its text covers are those of
the paths inside it. -/
theorem covers_text (hr : r.names ≠ []) :
    Covers sep r.text t.text ↔ r.components <+: t.components := by
  have hnames : ∀ p : AbsolutePath sep, ∀ c ∈ p.names, sep ∉ c := fun p c hc => (p.clean c hc).2
  rw [components, components, List.cons_prefix_cons, text_of_ne hr, text]
  by_cases ht : t.names = []
  · -- the root is inside nothing but itself
    rw [if_pos ht, ht]
    refine iff_of_false ?_ ?_
    · intro h
      obtain ⟨rest, heq, hrest⟩ := h
      rw [List.append_assoc, append_atSeparator_inj t.root_clean r.root_clean (atSeparator_cons _)
        (atSeparator_below_append hrest)] at heq
      obtain ⟨c, names, hcons⟩ := List.exists_cons_of_ne_nil hr
      have hc := (r.clean c (by simp [hcons])).1
      simp [hcons, hc] at heq
    · intro h
      exact hr (List.prefix_nil.mp h.2)
  · rw [if_neg ht, ← covers_below (hnames r) (hnames t)]
    constructor
    · intro h
      obtain ⟨rest, heq, hrest⟩ := h
      rw [List.append_assoc, append_atSeparator_inj t.root_clean r.root_clean
        (atSeparator_below _) (atSeparator_below_append hrest)] at heq
      exact ⟨heq.1.symm, rest, heq.2, hrest⟩
    · intro h
      obtain ⟨hroot, rest, heq, hrest⟩ := h
      exact ⟨rest, by rw [hroot, heq, List.append_assoc], hrest⟩

end AbsolutePath

end Dafeng
