import Mathlib.Algebra.Order.Ring.Nat

/-!
# Dafeng.Library.Bytes

Byte strings and fixed-width integers written byte by byte, in both byte
orders. `beBytes n v` and `leBytes n v` are the low `n` bytes of `v`.
-/

namespace Dafeng

/-- A byte string. -/
abbrev Bytes := List UInt8

/-- The bytes of an ASCII string. -/
def ascii (s : String) : Bytes := s.toList.map fun c => UInt8.ofNat c.toNat

/-- The low `n` bytes of `v`, least significant first. -/
def leBytes : Nat → Nat → Bytes
  | 0, _ => []
  | n + 1, v => UInt8.ofNat (v % 256) :: leBytes n (v / 256)

/-- The number that little-endian bytes spell. -/
def leValue : Bytes → Nat
  | [] => 0
  | b :: bs => b.toNat + 256 * leValue bs

/-- The low `n` bytes of `v`, most significant first. -/
def beBytes (n v : Nat) : Bytes := (leBytes n v).reverse

/-- The number that big-endian bytes spell. -/
def beValue (bs : Bytes) : Nat := leValue bs.reverse

@[simp] theorem leBytes_length (n v : Nat) : (leBytes n v).length = n := by
  induction n generalizing v with
  | zero => rfl
  | succ n ih => simp [leBytes, ih]

@[simp] theorem beBytes_length (n v : Nat) : (beBytes n v).length = n := by
  simp [beBytes]

theorem leValue_leBytes {n v : Nat} (h : v < 256 ^ n) : leValue (leBytes n v) = v := by
  induction n generalizing v with
  | zero => simp [leBytes, leValue]; omega
  | succ n ih =>
      have hdiv : v / 256 < 256 ^ n := by
        rw [Nat.div_lt_iff_lt_mul (by decide)]
        rwa [Nat.pow_succ] at h
      simp only [leBytes, leValue, ih hdiv]
      have : (UInt8.ofNat (v % 256)).toNat = v % 256 := by simp
      omega

theorem leValue_lt (bs : Bytes) : leValue bs < 256 ^ bs.length := by
  induction bs with
  | nil => simp [leValue]
  | cons b bs ih =>
      have hb := b.toNat_lt
      rw [leValue, List.length_cons, Nat.pow_succ]
      omega

theorem leBytes_leValue (bs : Bytes) : leBytes bs.length (leValue bs) = bs := by
  induction bs with
  | nil => rfl
  | cons b bs ih =>
      have hlow : (b.toNat + 256 * leValue bs) % 256 = b.toNat := by
        have hb := b.toNat_lt
        omega
      have hhigh : (b.toNat + 256 * leValue bs) / 256 = leValue bs := by
        have hb := b.toNat_lt
        omega
      rw [List.length_cons, leValue, leBytes, hlow, hhigh, ih, UInt8.ofNat_toNat]

theorem beValue_beBytes {n v : Nat} (h : v < 256 ^ n) : beValue (beBytes n v) = v := by
  simp [beValue, beBytes, leValue_leBytes h]

/-- Split off the first `n` bytes, when there are that many. -/
def takeBytes (n : Nat) (bs : Bytes) : Option (Bytes × Bytes) :=
  if n ≤ bs.length then some (bs.take n, bs.drop n) else none

theorem takeBytes_append {n : Nat} {front : Bytes} (h : front.length = n) (rest : Bytes) :
    takeBytes n (front ++ rest) = some (front, rest) := by
  subst h
  simp [takeBytes]

/-- Inverting a successful `takeBytes`: the input splits at the cut. -/
theorem takeBytes_eq_some {n : Nat} {bs front rest : Bytes}
    (h : takeBytes n bs = some (front, rest)) : bs = front ++ rest ∧ front.length = n := by
  unfold takeBytes at h
  split at h
  · rename_i hn
    simp only [Option.some.injEq, Prod.mk.injEq] at h
    obtain ⟨rfl, rfl⟩ := h
    exact ⟨(List.take_append_drop n bs).symm, by simp [hn]⟩
  · exact absurd h (by simp)

end Dafeng
