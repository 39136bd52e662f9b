import Dafeng.Library.Utf8

/-!
# Dafeng.Library.Utf16

The UTF-16 encoding of characters as 16-bit units, and the decoding that puts the
replacement character for a surrogate without its partner.
-/

namespace Dafeng.Utf16

/-- The UTF-16 encoding of a character. -/
def encodeChar (c : Char) : List UInt16 :=
  if c.toNat < 0x10000 then [UInt16.ofNat c.toNat]
  else
    [UInt16.ofNat (0xD800 + (c.toNat - 0x10000) / 0x400),
      UInt16.ofNat (0xDC00 + (c.toNat - 0x10000) % 0x400)]

/-- The UTF-16 encoding of a text. -/
def encodeText (cs : List Char) : List UInt16 := cs.flatMap encodeChar

/-- A unit that announces a second one. -/
abbrev IsHigh (u : UInt16) : Prop := 0xD800 ≤ u.toNat ∧ u.toNat < 0xDC00

/-- A unit that completes a pair. -/
abbrev IsLow (u : UInt16) : Prop := 0xDC00 ≤ u.toNat ∧ u.toNat < 0xE000

/-- The character that a unit outside a pair stands for. -/
def single (u : UInt16) : Char :=
  if IsHigh u ∨ IsLow u then Char.ofNat 0xFFFD else Char.ofNat u.toNat

/-- The character of a pair. -/
def pair (u v : UInt16) : Char :=
  Char.ofNat (0x10000 + (u.toNat - 0xD800) * 0x400 + (v.toNat - 0xDC00))

/-- The text that units spell. -/
def decodeText : List UInt16 → List Char
  | [] => []
  | [u] => [single u]
  | u :: v :: us =>
    if IsHigh u ∧ IsLow v then pair u v :: decodeText us
    else single u :: decodeText (v :: us)

@[simp] theorem encodeText_nil : encodeText [] = [] := rfl

@[simp] theorem encodeText_cons (c : Char) (cs : List Char) :
    encodeText (c :: cs) = encodeChar c ++ encodeText cs := rfl

/-- No character has the number of a surrogate. -/
theorem toNat_valid (c : Char) :
    c.toNat < 0xD800 ∨ 0xDFFF < c.toNat ∧ c.toNat < 0x110000 := c.valid

theorem toNat_ofNat {n : Nat} (h : n < 0x10000) : (UInt16.ofNat n).toNat = n := by
  rw [UInt16.toNat_ofNat']
  exact Nat.mod_eq_of_lt h

/-- A character of the basic plane is one unit, which is no surrogate. -/
theorem encodeChar_basic {c : Char} (h : c.toNat < 0x10000) :
    ∃ u, encodeChar c = [u] ∧ u.toNat = c.toNat ∧ ¬ IsHigh u ∧ ¬ IsLow u := by
  have hu := toNat_ofNat h
  have hvalid := toNat_valid c
  refine ⟨UInt16.ofNat c.toNat, if_pos h, hu, ?_, ?_⟩
  · rw [IsHigh, hu]
    omega
  · rw [IsLow, hu]
    omega

/-- Any other character is a pair. -/
theorem encodeChar_supplementary {c : Char} (h : ¬ c.toNat < 0x10000) :
    ∃ u v, encodeChar c = [u, v] ∧ IsHigh u ∧ IsLow v ∧ pair u v = c := by
  have hvalid := toNat_valid c
  have hu := @toNat_ofNat (0xD800 + (c.toNat - 0x10000) / 0x400) (by omega)
  have hv := @toNat_ofNat (0xDC00 + (c.toNat - 0x10000) % 0x400) (by omega)
  refine ⟨_, _, if_neg h, ?_, ?_, ?_⟩
  · rw [IsHigh, hu]
    omega
  · rw [IsLow, hv]
    omega
  · have hsum : 0x10000 + (0xD800 + (c.toNat - 0x10000) / 0x400 - 0xD800) * 0x400 +
        (0xDC00 + (c.toNat - 0x10000) % 0x400 - 0xDC00) = c.toNat := by omega
    rw [pair, hu, hv, hsum, Char.ofNat_toNat]

/-- A unit that is no surrogate is decoded alone, whatever follows. -/
theorem decodeText_basic {u : UInt16} (hhigh : ¬ IsHigh u) (hlow : ¬ IsLow u)
    (us : List UInt16) : decodeText (u :: us) = Char.ofNat u.toNat :: decodeText us := by
  have hsingle : single u = Char.ofNat u.toNat := if_neg (not_or.mpr ⟨hhigh, hlow⟩)
  cases us with
  | nil => simp only [decodeText, hsingle]
  | cons v us => rw [decodeText, if_neg (fun h => hhigh h.1), hsingle]

theorem decodeText_encodeText (cs : List Char) : decodeText (encodeText cs) = cs := by
  induction cs with
  | nil => rfl
  | cons c cs ih =>
      rw [encodeText_cons]
      by_cases h : c.toNat < 0x10000
      · obtain ⟨u, hc, hu, hhigh, hlow⟩ := encodeChar_basic h
        rw [hc, List.singleton_append, decodeText_basic hhigh hlow, hu, Char.ofNat_toNat, ih]
      · obtain ⟨u, v, hc, hhigh, hlow, hpair⟩ := encodeChar_supplementary h
        rw [hc, List.cons_append, List.singleton_append, decodeText, if_pos ⟨hhigh, hlow⟩, hpair,
          ih]

/-- Only the character NUL has a zero unit. -/
theorem zero_notMem_encodeText {cs : List Char} (h : '\x00' ∉ cs) : 0 ∉ encodeText cs := by
  intro hmem
  obtain ⟨c, hc, hzero⟩ := List.mem_flatMap.mp hmem
  by_cases hbasic : c.toNat < 0x10000
  · obtain ⟨u, heq, hu, -⟩ := encodeChar_basic hbasic
    rw [heq, List.mem_singleton] at hzero
    rw [← hzero] at hu
    have hnul : c = '\x00' := Char.toNat_inj.mp hu.symm
    exact h (hnul ▸ hc)
  · -- both halves of a pair are surrogates
    obtain ⟨u, v, heq, hhigh, hlow, -⟩ := encodeChar_supplementary hbasic
    rw [heq] at hzero
    rcases List.mem_cons.mp hzero with rfl | hzero
    · exact absurd hhigh (by decide)
    · rw [← List.mem_singleton.mp hzero] at hlow
      exact absurd hlow (by decide)

end Dafeng.Utf16
