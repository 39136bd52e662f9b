import Mathlib.Tactic.SplitIfs
import Dafeng.Library.Bytes

/-!
# Dafeng.Library.Msgpack

MessagePack values and the bytes a packer writes for them.

`Value` is the object a reader hands back: integers keep their value but not
the width they were written with, and an integer is either non-negative
(`uint`) or negative (`nint m` is `-m-1`). A packer writes every length and
every integer in the shortest form, most significant byte first.
-/

namespace Dafeng.Msgpack

/-- A MessagePack object. `f32` and `f64` carry the IEEE bits. -/
inductive Value
  | nil
  | bool (b : Bool)
  | uint (n : UInt64)
  | nint (m : Fin (2 ^ 63))
  | f32 (bits : UInt32)
  | f64 (bits : UInt64)
  | str (s : Bytes)
  | bin (s : Bytes)
  | ext (type : UInt8) (data : Bytes)
  | arr (xs : List Value)
  | map (kvs : List (Value × Value))
  deriving Repr

/-- A tag byte and a big-endian field of `w` bytes. -/
def tagged (tag w v : Nat) : Bytes := UInt8.ofNat tag :: beBytes w v

/-- A non-negative integer. -/
def packUInt (n : Nat) : Bytes :=
  if n < 0x80 then [UInt8.ofNat n]
  else if n < 0x100 then tagged 0xcc 1 n
  else if n < 0x10000 then tagged 0xcd 2 n
  else if n < 0x100000000 then tagged 0xce 4 n
  else tagged 0xcf 8 n

/-- The negative integer `-m-1`. -/
def packNInt (m : Nat) : Bytes :=
  if m < 0x20 then [UInt8.ofNat (0xff - m)]
  else if m < 0x80 then tagged 0xd0 1 (0xff - m)
  else if m < 0x8000 then tagged 0xd1 2 (0xffff - m)
  else if m < 0x80000000 then tagged 0xd2 4 (0xffffffff - m)
  else tagged 0xd3 8 (0xffffffffffffffff - m)

/-- The header of a string of `n` bytes. -/
def packStrHeader (n : Nat) : Bytes :=
  if n < 0x20 then [UInt8.ofNat (0xa0 + n)]
  else if n < 0x100 then tagged 0xd9 1 n
  else if n < 0x10000 then tagged 0xda 2 n
  else tagged 0xdb 4 n

/-- The header of a binary string of `n` bytes. -/
def packBinHeader (n : Nat) : Bytes :=
  if n < 0x100 then tagged 0xc4 1 n
  else if n < 0x10000 then tagged 0xc5 2 n
  else tagged 0xc6 4 n

/-- The header of an extension of `n` bytes; the type byte follows. -/
def packExtHeader (n : Nat) : Bytes :=
  if n = 1 then [0xd4] else if n = 2 then [0xd5] else if n = 4 then [0xd6]
  else if n = 8 then [0xd7] else if n = 16 then [0xd8]
  else if n < 0x100 then tagged 0xc7 1 n
  else if n < 0x10000 then tagged 0xc8 2 n
  else tagged 0xc9 4 n

/-- The header of an array of `n` elements. -/
def packArrayHeader (n : Nat) : Bytes :=
  if n < 0x10 then [UInt8.ofNat (0x90 + n)]
  else if n < 0x10000 then tagged 0xdc 2 n
  else tagged 0xdd 4 n

/-- The header of a map of `n` entries. -/
def packMapHeader (n : Nat) : Bytes :=
  if n < 0x10 then [UInt8.ofNat (0x80 + n)]
  else if n < 0x10000 then tagged 0xde 2 n
  else tagged 0xdf 4 n

/-- A string: header and body. -/
def packStr (s : Bytes) : Bytes := packStrHeader s.length ++ s

/-- A 32-bit float, by its bits. -/
def packF32 (bits : UInt32) : Bytes := tagged 0xca 4 bits.toNat

mutual
/-- The bytes a packer writes for a value. -/
def pack : Value → Bytes
  | .nil => [0xc0]
  | .bool false => [0xc2]
  | .bool true => [0xc3]
  | .uint n => packUInt n.toNat
  | .nint m => packNInt m.val
  | .f32 bits => packF32 bits
  | .f64 bits => tagged 0xcb 8 bits.toNat
  | .str s => packStr s
  | .bin s => packBinHeader s.length ++ s
  | .ext type data => packExtHeader data.length ++ type :: data
  | .arr xs => packArrayHeader xs.length ++ packAll xs
  | .map kvs => packMapHeader kvs.length ++ packEntries kvs
/-- The elements of an array, back to back. -/
def packAll : List Value → Bytes
  | [] => []
  | x :: xs => pack x ++ packAll xs
/-- The entries of a map, back to back. -/
def packEntries : List (Value × Value) → Bytes
  | [] => []
  | (k, v) :: kvs => pack k ++ (pack v ++ packEntries kvs)
end

mutual
/-- Every string, array and map has fewer than `2 ^ 32` elements. A packer
raises an error on any other value. -/
def packable : Value → Bool
  | .str s => decide (s.length < 2 ^ 32)
  | .bin s => decide (s.length < 2 ^ 32)
  | .ext _ data => decide (data.length < 2 ^ 32)
  | .arr xs => decide (xs.length < 2 ^ 32) && packableAll xs
  | .map kvs => decide (kvs.length < 2 ^ 32) && packableEntries kvs
  | _ => true
def packableAll : List Value → Bool
  | [] => true
  | x :: xs => packable x && packableAll xs
def packableEntries : List (Value × Value) → Bool
  | [] => true
  | (k, v) :: kvs => packable k && packable v && packableEntries kvs
end

theorem packAll_eq (xs : List Value) : packAll xs = xs.flatMap pack := by
  induction xs with
  | nil => simp [packAll]
  | cons x xs ih => simp [packAll, ih]

/-! ### Every header takes at least one byte -/

@[simp] theorem tagged_length (tag w v : Nat) : (tagged tag w v).length = w + 1 := by
  simp [tagged]

theorem packUInt_length (n : Nat) : (packUInt n).length =
    if n < 0x80 then 1 else if n < 0x100 then 2 else if n < 0x10000 then 3
    else if n < 0x100000000 then 5 else 9 := by
  unfold packUInt
  split_ifs <;> simp

theorem packArrayHeader_length (n : Nat) : (packArrayHeader n).length =
    if n < 0x10 then 1 else if n < 0x10000 then 3 else 5 := by
  unfold packArrayHeader
  split_ifs <;> simp

theorem packStrHeader_length_pos (n : Nat) : 1 ≤ (packStrHeader n).length := by
  unfold packStrHeader
  split_ifs <;> simp

theorem packArrayHeader_length_pos (n : Nat) : 1 ≤ (packArrayHeader n).length := by
  unfold packArrayHeader
  split_ifs <;> simp

theorem packMapHeader_length_pos (n : Nat) : 1 ≤ (packMapHeader n).length := by
  unfold packMapHeader
  split_ifs <;> simp

theorem pack_length_pos (v : Value) : 1 ≤ (pack v).length := by
  cases v with
  | nil => simp [pack]
  | bool b => cases b <;> simp [pack]
  | uint n => simp only [pack, packUInt]; split_ifs <;> simp
  | nint m => simp only [pack, packNInt]; split_ifs <;> simp
  | f32 bits => simp [pack, packF32]
  | f64 bits => simp [pack]
  | str s =>
      have := packStrHeader_length_pos s.length
      simp only [pack, packStr, List.length_append]
      omega
  | bin s =>
      simp only [pack, packBinHeader]
      split_ifs <;> simp only [List.length_append, tagged_length] <;> omega
  | ext type data => simp [pack]; omega
  | arr xs =>
      have := packArrayHeader_length_pos xs.length
      simp only [pack, List.length_append]
      omega
  | map kvs =>
      have := packMapHeader_length_pos kvs.length
      simp only [pack, List.length_append]
      omega

/-- An array has no more elements than bytes. -/
theorem length_le_packAll (xs : List Value) : xs.length ≤ (packAll xs).length := by
  induction xs with
  | nil => simp
  | cons x xs ih =>
      have := pack_length_pos x
      simp only [packAll, List.length_cons, List.length_append]
      omega

/-- A map has no more entries than bytes. -/
theorem length_le_packEntries (kvs : List (Value × Value)) :
    kvs.length ≤ (packEntries kvs).length := by
  induction kvs with
  | nil => simp
  | cons kv kvs ih =>
      obtain ⟨k, v⟩ := kv
      have := pack_length_pos k
      simp only [packEntries, List.length_cons, List.length_append]
      omega

mutual
/-- A value of fewer than `2 ^ 32` packed bytes is packable. -/
theorem packable_of_length : ∀ v : Value, (pack v).length < 2 ^ 32 → packable v
  | .nil, _ | .bool _, _ | .uint _, _ | .nint _, _ | .f32 _, _ | .f64 _, _ => rfl
  | .str s, h => by
      simp only [pack, packStr, List.length_append] at h
      exact decide_eq_true (by omega)
  | .bin s, h => by
      simp only [pack, List.length_append] at h
      exact decide_eq_true (by omega)
  | .ext type data, h => by
      simp only [pack, List.length_append, List.length_cons] at h
      exact decide_eq_true (by omega)
  | .arr xs, h => by
      have hcount := length_le_packAll xs
      simp only [pack, List.length_append] at h
      rw [packable, packableAll_of_length xs (by omega), Bool.and_true]
      exact decide_eq_true (by omega)
  | .map kvs, h => by
      have hcount := length_le_packEntries kvs
      simp only [pack, List.length_append] at h
      rw [packable, packableEntries_of_length kvs (by omega), Bool.and_true]
      exact decide_eq_true (by omega)
theorem packableAll_of_length : ∀ xs : List Value, (packAll xs).length < 2 ^ 32 → packableAll xs
  | [], _ => rfl
  | x :: xs, h => by
      simp only [packAll, List.length_append] at h
      rw [packableAll, packable_of_length x (by omega), packableAll_of_length xs (by omega),
        Bool.and_true]
theorem packableEntries_of_length : ∀ kvs : List (Value × Value),
    (packEntries kvs).length < 2 ^ 32 → packableEntries kvs
  | [], _ => rfl
  | (k, v) :: kvs, h => by
      simp only [packEntries, List.length_append] at h
      rw [packableEntries, packable_of_length k (by omega), packable_of_length v (by omega),
        packableEntries_of_length kvs (by omega), Bool.and_true, Bool.and_true]
end

end Dafeng.Msgpack
