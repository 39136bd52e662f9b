import Mathlib.Logic.Function.Basic
import Mathlib.Tactic.SplitIfs

/-!
# Dafeng.Library.Directory

A directory of files that several processes write. A name stands for a file; a process
that opened a file keeps it when its name goes to another one. No file has two names.
-/

namespace Dafeng

/-- A directory: the file that each name stands for, and what is in the files. -/
structure Directory (ν α : Type) where
  inode : ν → Option Nat
  bytes : Nat → List α
  next : Nat
  below : ∀ n i, inode n = some i → i < next
  distinct : ∀ m n i, inode m = some i → inode n = some i → m = n

/-- Data put over a part of a file; a gap in front of it is filled up. -/
def overwrite {α : Type} (fill : α) (old : List α) (offset : Nat) (data : List α) : List α :=
  (old ++ List.replicate (offset - old.length) fill).take offset ++ data ++
    old.drop (offset + data.length)

/-- At the end of a file data is appended. -/
theorem overwrite_length {α : Type} (fill : α) (old data : List α) :
    overwrite fill old old.length data = old ++ data := by
  simp [overwrite]

namespace Directory

variable {ν α : Type}

/-- No files. -/
def empty : Directory ν α where
  inode _ := none
  bytes _ := []
  next := 0
  below _ _ h := by cases h
  distinct _ _ _ h := by cases h

/-- What is in the file of a name. -/
def read (d : Directory ν α) (n : ν) : Option (List α) := (d.inode n).map d.bytes

/-- A file gets new contents. -/
def put (d : Directory ν α) (i : Nat) (contents : List α) : Directory ν α :=
  { d with bytes := Function.update d.bytes i contents }

/-- `write` at an offset. -/
def writeAt (d : Directory ν α) (fill : α) (i offset : Nat) (data : List α) : Directory ν α :=
  d.put i (overwrite fill (d.bytes i) offset data)

variable {d : Directory ν α}

@[simp] theorem inode_put (i : Nat) (contents : List α) : (d.put i contents).inode = d.inode := rfl

theorem bytes_put (i j : Nat) (contents : List α) :
    (d.put i contents).bytes j = if j = i then contents else d.bytes j :=
  Function.update_apply ..

/-- What is read under a name depends on its file alone. -/
theorem read_congr {d' : Directory ν α} {n : ν} (hinode : d'.inode n = d.inode n)
    (hbytes : ∀ i, d.inode n = some i → d'.bytes i = d.bytes i) : d'.read n = d.read n := by
  rw [read, read, hinode]
  cases hn : d.inode n with
  | none => rfl
  | some i => rw [Option.map_some, Option.map_some, hbytes i hn]

section Names

variable [DecidableEq ν]

/-- A new, empty file under a name that stands for none. -/
def create (d : Directory ν α) (n : ν) : Directory ν α where
  inode := Function.update d.inode n (some d.next)
  bytes := Function.update d.bytes d.next []
  next := d.next + 1
  below m i h := by
    rw [Function.update_apply] at h
    split_ifs at h with hm
    · obtain rfl := Option.some.inj h
      exact Nat.lt_succ_self _
    · exact Nat.lt_succ_of_lt (d.below m i h)
  distinct m m' i h h' := by
    rw [Function.update_apply] at h h'
    split_ifs at h h' with hm hm' hm'
    · rw [hm, hm']
    · obtain rfl := Option.some.inj h
      exact absurd (d.below m' _ h') (Nat.lt_irrefl _)
    · obtain rfl := Option.some.inj h'
      exact absurd (d.below m _ h) (Nat.lt_irrefl _)
    · exact d.distinct m m' i h h'

/-- `open` with truncation: the directory, and the file that was opened. -/
def openTruncate (d : Directory ν α) (n : ν) : Directory ν α × Nat :=
  match d.inode n with
  | some i => (d.put i [], i)
  | none => (d.create n, d.next)

/-- A file moves from one name to another one. -/
def move (d : Directory ν α) (src dst : ν) (i : Nat) (hsrc : d.inode src = some i) :
    Directory ν α :=
  { d with
    inode := Function.update (Function.update d.inode src none) dst (some i)
    below := by
      intro m j h
      rw [Function.update_apply, Function.update_apply] at h
      split_ifs at h
      · obtain rfl := Option.some.inj h
        exact d.below src _ hsrc
      · exact d.below m j h
    distinct := by
      intro m m' j h h'
      rw [Function.update_apply, Function.update_apply] at h h'
      split_ifs at h h' with hm hm' hleft hleft hm'
      · rw [hm, hm']
      · obtain rfl := Option.some.inj h
        exact absurd (d.distinct m' src _ h' hsrc) hleft
      · obtain rfl := Option.some.inj h'
        exact absurd (d.distinct m src _ h hsrc) hleft
      · exact d.distinct m m' j h h' }

/-- `rename`, which fails if there is no such file. -/
def rename (d : Directory ν α) (src dst : ν) : Option (Directory ν α) :=
  match h : d.inode src with
  | none => none
  | some i => some (d.move src dst i h)

variable {n : ν}

/-- What `open` gives: an empty file under the name, which no other name stands for. -/
theorem openTruncate_spec (d : Directory ν α) (n : ν) :
    (d.openTruncate n).1.inode n = some (d.openTruncate n).2 ∧
    (∀ m, m ≠ n → (d.openTruncate n).1.inode m = d.inode m ∧
      d.inode m ≠ some (d.openTruncate n).2) ∧
    (d.openTruncate n).1.bytes (d.openTruncate n).2 = [] ∧
    ∀ j, j ≠ (d.openTruncate n).2 → (d.openTruncate n).1.bytes j = d.bytes j := by
  cases hn : d.inode n with
  | none =>
      have heq : d.openTruncate n = (d.create n, d.next) := by
        rw [openTruncate, hn]
      rw [heq]
      refine ⟨Function.update_self .., fun m hm => ⟨Function.update_of_ne hm .., fun hnext => ?_⟩,
        Function.update_self .., fun j hj => Function.update_of_ne hj ..⟩
      exact absurd (d.below m _ hnext) (Nat.lt_irrefl _)
  | some i =>
      have heq : d.openTruncate n = (d.put i [], i) := by
        rw [openTruncate, hn]
      rw [heq]
      refine ⟨hn, fun m hm => ⟨rfl, fun hi => hm (d.distinct m n i hi hn)⟩, ?_, fun j hj => ?_⟩
      · rw [bytes_put, if_pos rfl]
      · rw [bytes_put, if_neg hj]

/-- What is read under the other names does not change. -/
theorem read_openTruncate_of_ne {m : ν} (h : m ≠ n) :
    (d.openTruncate n).1.read m = d.read m := by
  obtain ⟨-, hother, -, hbytes⟩ := openTruncate_spec d n
  refine read_congr (hother m h).1 fun i hm => hbytes i fun heq => ?_
  exact (hother m h).2 (heq ▸ hm)

/-- What `rename` does to a file with a name of its own. -/
theorem rename_spec {src dst : ν} {i : Nat} (hsrc : d.inode src = some i) (hne : src ≠ dst) :
    ∃ d', d.rename src dst = some d' ∧ d'.inode dst = some i ∧ d'.inode src = none ∧
      (∀ m, m ≠ src → m ≠ dst → d'.inode m = d.inode m) ∧ d'.bytes = d.bytes := by
  refine ⟨d.move src dst i hsrc, ?_, Function.update_self .., ?_, ?_, rfl⟩
  · unfold rename
    split
    · next hnone =>
        rw [hsrc] at hnone
        cases hnone
    · next j hj =>
        obtain rfl := Option.some.inj (hsrc.symm.trans hj)
        rfl
  · exact (Function.update_of_ne hne ..).trans (Function.update_self ..)
  · intro m hm hm'
    exact (Function.update_of_ne hm' ..).trans (Function.update_of_ne hm ..)

end Names

end Directory

end Dafeng
