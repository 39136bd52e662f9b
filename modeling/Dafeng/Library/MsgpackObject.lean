import Dafeng.Library.MsgpackParse

/-!
# Dafeng.Library.MsgpackObject

Reading a MessagePack body into program values, as a C++ program does it with
a third-party library.

The library's reader is a parameter: an `Unpacker` is any reader with the two
laws of `MsgpackParse`. `Unpacker.reference` is the one proved there.

`convert` follows the library's conversions: a scalar target is assigned only
when the object has a fitting type and value; a vector target is first resized
to the array's length and then filled element by element up to the first
element that does not convert. The new contents of the target come with the
flag that no exception was thrown.
-/

namespace Dafeng.Msgpack

/-- A reader of MessagePack. `castFloat` is the numeric cast to `float` of an
object that is a number but not a 32-bit float. -/
structure Unpacker where
  unpack : Bytes → Option (Value × Bytes)
  castFloat : Value → UInt32
  unpack_pack : ∀ v rest, packable v → unpack (pack v ++ rest) = some (v, rest)
  stable : Stable unpack

/-- The reader of `MsgpackParse`; a value nests no deeper than it has bytes. -/
def Unpacker.reference : Unpacker where
  unpack bs := parse bs.length bs
  castFloat
    | .f64 bits => (Float.ofBits bits).toFloat32.toBits
    | .uint n => n.toFloat32.toBits
    | .nint m => (0 - UInt64.ofNat (m.val + 1)).toInt64.toFloat32.toBits
    | _ => 0
  unpack_pack v rest h := parse_pack v rest (by simp) h
  stable := ⟨fun h q => parse_mono (by simp) ((parse_stable _).append h q)⟩

namespace Unpacker

variable (mp : Unpacker)

/-- A body that is exactly one packed value. -/
theorem unpack_pack_self {v : Value} (h : packable v) :
    mp.unpack (pack v) = some (v, []) := by
  simpa using mp.unpack_pack v [] h

/-- **Prefix-freeness.** No proper prefix of a packed value can be read. -/
theorem unpack_prefix {v : Value} {p q : Bytes} (h : packable v)
    (hv : pack v = p ++ q) (hq : q ≠ []) : mp.unpack p = none := by
  cases hp : mp.unpack p with
  | none => rfl
  | some r =>
      obtain ⟨w, rest⟩ := r
      have hfull := mp.stable.append hp q
      rw [← hv, mp.unpack_pack_self h] at hfull
      simp only [Option.some.injEq, Prod.mk.injEq] at hfull
      exact absurd (List.append_eq_nil_iff.mp hfull.2.symm).2 hq

end Unpacker

/-! ### Conversions -/

/-- An unsigned integer of at most `max`. -/
def asUInt (max : Nat) : Value → Option Nat
  | .uint n => if n.toNat ≤ max then some n.toNat else none
  | _ => none

/-- A signed 32-bit integer. -/
def asInt32 : Value → Option Int32
  | .uint n => if n.toNat < 2 ^ 31 then some (Int32.ofNat n.toNat) else none
  | .nint m => if m.val < 2 ^ 31 then some (Int32.ofInt (-(m.val : Int) - 1)) else none
  | _ => none

/-- A string; a binary string converts too. -/
def asStr : Value → Option Bytes
  | .str s => some s
  | .bin s => some s
  | _ => none

/-- A float, by its bits; any number converts. -/
def asFloat (mp : Unpacker) : Value → Option UInt32
  | .f32 bits => some bits
  | .f64 bits => some (mp.castFloat (.f64 bits))
  | .uint n => some (mp.castFloat (.uint n))
  | .nint m => some (mp.castFloat (.nint m))
  | _ => none

/-- Converting into a scalar target whose contents are `out`. -/
def convertScalar {α : Type} (f : Value → Option α) (v : Value) (out : α) : α × Bool :=
  match f v with
  | some a => (a, true)
  | none => (out, false)

/-- Filling a vector of the array's length, up to the first bad element. -/
def fillVector {α : Type} (f : Value → Option α) : List Value → List α → List α × Bool
  | x :: xs, o :: os =>
    match f x with
    | some a => (a :: (fillVector f xs os).1, (fillVector f xs os).2)
    | none => (o :: os, false)
  | _, os => (os, true)

/-- `v.resize(n)`: cut, or extended by default values. -/
def resize {α : Type} (default : α) (n : Nat) (os : List α) : List α :=
  os.take n ++ List.replicate (n - os.length) default

/-- Converting into a vector target whose contents are `out`. -/
def convertVector {α : Type} (default : α) (f : Value → Option α) (v : Value) (out : List α) :
    List α × Bool :=
  match v with
  | .arr xs => fillVector f xs (resize default xs.length out)
  | _ => (out, false)

theorem resize_length {α : Type} (default : α) (n : Nat) (os : List α) :
    (resize default n os).length = n := by
  simp [resize]
  omega

/-- The complete conversion of an array. -/
def asVector {α : Type} (f : Value → Option α) : Value → Option (List α)
  | .arr xs => xs.mapM f
  | _ => none

theorem fillVector_length {α : Type} (f : Value → Option α) (xs : List Value) (os : List α) :
    (fillVector f xs os).1.length = os.length := by
  induction xs generalizing os with
  | nil => rfl
  | cons x xs ih =>
      cases os with
      | nil => rfl
      | cons o os =>
          rw [fillVector]
          cases f x with
          | none => rfl
          | some a => simp only [List.length_cons, ih]

/-- An array whose elements all convert replaces the target. -/
theorem fillVector_of_mapM {α : Type} {f : Value → Option α} {xs : List Value} {as os : List α}
    (h : xs.mapM f = some as) (hlen : os.length = xs.length) : fillVector f xs os = (as, true) := by
  induction xs generalizing as os with
  | nil =>
      obtain rfl := List.length_eq_zero_iff.mp hlen
      obtain rfl : [] = as := by simpa using h
      rfl
  | cons x xs ih =>
      rw [List.mapM_cons] at h
      obtain ⟨a, ha, h⟩ := Option.bind_eq_some_iff.mp h
      obtain ⟨rest, hrest, h⟩ := Option.bind_eq_some_iff.mp h
      obtain rfl : a :: rest = as := Option.some.inj h
      cases os with
      | nil => simp at hlen
      | cons o os =>
          rw [fillVector, ha]
          dsimp only
          rw [ih hrest (by simpa using hlen)]

theorem convertVector_of_asVector {α : Type} {default : α} {f : Value → Option α} {v : Value}
    {as : List α} (h : asVector f v = some as) (out : List α) :
    convertVector default f v out = (as, true) := by
  cases v with
  | arr xs => exact fillVector_of_mapM h (resize_length default xs.length out)
  | _ => cases h

theorem asVector_map {α : Type} {f : Value → Option α} {g : α → Value} (h : ∀ a, f (g a) = some a)
    (as : List α) : asVector f (.arr (as.map g)) = some as := by
  have hsome : f ∘ g = fun a => pure a := funext h
  rw [asVector, List.mapM_map, hsome, List.mapM_pure, List.map_id']
  rfl

theorem convertVector_map {α : Type} {default : α} {f : Value → Option α} {g : α → Value}
    (h : ∀ a, f (g a) = some a) (as out : List α) :
    convertVector default f (.arr (as.map g)) out = (as, true) :=
  convertVector_of_asVector (asVector_map h as) out

end Dafeng.Msgpack
