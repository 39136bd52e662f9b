import Mathlib.Data.List.Basic
import Dafeng.Library.Bytes

/-!
# Dafeng.Library.Utf8

The UTF-8 encoding of characters as byte strings: the shape of an encoded
character, where ASCII bytes come from, and unique decoding of texts.
-/

namespace Dafeng.Utf8

/-- The UTF-8 encoding of a character. -/
def encodeChar (c : Char) : Bytes := String.utf8EncodeChar c

/-- The UTF-8 encoding of a text. -/
def encodeText (cs : List Char) : Bytes := cs.flatMap encodeChar

/-- A byte `10xxxxxx`. -/
def IsContinuation (b : UInt8) : Prop := 128 ≤ b.toNat ∧ b.toNat < 192

/-- How many bytes a character has that starts with `b`; 0 if none does. -/
def leadLength (b : UInt8) : Nat :=
  if b.toNat < 128 then 1
  else if b.toNat < 192 then 0
  else if b.toNat < 224 then 2
  else if b.toNat < 240 then 3
  else if b.toNat < 248 then 4
  else 0

@[simp] theorem encodeText_nil : encodeText [] = [] := rfl

@[simp] theorem encodeText_cons (c : Char) (cs : List Char) :
    encodeText (c :: cs) = encodeChar c ++ encodeText cs := rfl

theorem encodeText_append (cs ds : List Char) :
    encodeText (cs ++ ds) = encodeText cs ++ encodeText ds := by
  simp [encodeText]

theorem toNat_val_lt (c : Char) : c.val.toNat < 1114112 := by
  have h := c.valid
  simp only [UInt32.isValidChar, Nat.isValidChar] at h
  omega

theorem isContinuation_ofNat (n : Nat) : IsContinuation (UInt8.ofNat (n % 64 + 128)) := by
  simp only [IsContinuation, UInt8.toNat_ofNat']
  omega

/-- A character is a lead byte and the continuation bytes it announces. -/
theorem encodeChar_shape (c : Char) : ∃ b conts, encodeChar c = b :: conts ∧
    leadLength b = conts.length + 1 ∧ ∀ x ∈ conts, IsContinuation x := by
  have hv := toNat_val_lt c
  have hlead : ∀ n : Nat, n < 256 → (UInt8.ofNat n).toNat = n := fun n hn => by simp; omega
  unfold encodeChar String.utf8EncodeChar
  dsimp only
  split_ifs with h₁ h₂ h₃
  · refine ⟨_, _, rfl, ?_, by simp⟩
    rw [leadLength, hlead _ (by omega), if_pos (by omega)]
    rfl
  · refine ⟨_, _, rfl, ?_, by
      simp only [List.forall_mem_cons, isContinuation_ofNat]
      simp⟩
    rw [leadLength, hlead _ (by omega), if_neg (by omega), if_neg (by omega), if_pos (by omega)]
    rfl
  · refine ⟨_, _, rfl, ?_, by
      simp only [List.forall_mem_cons, isContinuation_ofNat]
      simp⟩
    rw [leadLength, hlead _ (by omega), if_neg (by omega), if_neg (by omega), if_neg (by omega),
      if_pos (by omega)]
    rfl
  · refine ⟨_, _, rfl, ?_, by
      simp only [List.forall_mem_cons, isContinuation_ofNat]
      simp⟩
    rw [leadLength, hlead _ (by omega), if_neg (by omega), if_neg (by omega), if_neg (by omega),
      if_neg (by omega), if_pos (by omega)]
    rfl

/-- The mask that tells a byte `10xxxxxx` picks out the continuation bytes. -/
theorem and_mask_eq_iff (b : UInt8) : b &&& 0xC0 = 0x80 ↔ IsContinuation b := by
  have hmask : ∀ n < 256, n &&& 192 = 128 ↔ 128 ≤ n ∧ n < 192 := by decide +kernel
  rw [← UInt8.toNat_inj, UInt8.toNat_and]
  exact hmask b.toNat b.toNat_lt

/-- No character starts with a continuation byte. -/
theorem not_isContinuation {b : UInt8} (h : leadLength b ≠ 0) : ¬ IsContinuation b := by
  intro ⟨hle, hlt⟩
  exact h (by rw [leadLength, if_neg (by omega), if_pos hlt])

theorem encodeChar_ne_nil (c : Char) : encodeChar c ≠ [] := by
  obtain ⟨b, conts, hc, -⟩ := encodeChar_shape c
  simp [hc]

/-! ### ASCII -/

theorem encodeChar_ascii {c : Char} (h : c.toNat < 128) : encodeChar c = [UInt8.ofNat c.toNat] := by
  have hv : c.val.toNat ≤ 127 := Nat.le_of_lt_succ h
  exact if_pos hv

theorem le_of_mem_encodeChar {c : Char} (h : 128 ≤ c.toNat) {b : UInt8} (hb : b ∈ encodeChar c) :
    128 ≤ b.toNat := by
  have hv : ¬ c.val.toNat ≤ 127 := Nat.not_le.mpr h
  obtain ⟨lead, conts, hc, hlen, hconts⟩ := encodeChar_shape c
  rw [hc] at hb
  rcases List.mem_cons.mp hb with rfl | hb
  · by_contra hlt
    rw [leadLength, if_pos (by omega)] at hlen
    obtain rfl : conts = [] := List.length_eq_zero_iff.mp (by omega)
    -- only ASCII characters have one byte
    have hsize := congrArg List.length hc
    simp only [encodeChar, String.utf8EncodeChar, hv, if_false] at hsize
    split_ifs at hsize <;> simp at hsize
  · exact (hconts b hb).1

/-- Only the character NUL has a NUL byte. -/
theorem zero_notMem_encodeChar {c : Char} (h : c ≠ '\x00') : 0 ∉ encodeChar c := by
  intro hmem
  by_cases hascii : c.toNat < 128
  · rw [encodeChar_ascii hascii, List.mem_singleton] at hmem
    have hnat := congrArg UInt8.toNat hmem
    rw [UInt8.toNat_ofNat', Nat.mod_eq_of_lt (by omega)] at hnat
    exact h (Char.toNat_inj.mp hnat.symm)
  · exact absurd (le_of_mem_encodeChar (Nat.le_of_not_lt hascii) hmem) (by decide)

/-- An ASCII byte of a text is an ASCII character of it. -/
theorem mem_encodeText_ascii {cs : List Char} {c : Char} (hc : c.toNat < 128) :
    UInt8.ofNat c.toNat ∈ encodeText cs ↔ c ∈ cs := by
  have hbyte : (UInt8.ofNat c.toNat).toNat = c.toNat := by simp; omega
  constructor
  · intro h
    obtain ⟨d, hd, hmem⟩ := List.mem_flatMap.mp h
    by_cases hlt : d.toNat < 128
    · rw [encodeChar_ascii hlt, List.mem_singleton] at hmem
      have hnat := congrArg UInt8.toNat hmem
      rw [hbyte, UInt8.toNat_ofNat', Nat.mod_eq_of_lt (by omega)] at hnat
      rwa [Char.toNat_inj.mp hnat]
    · have := le_of_mem_encodeChar (Nat.le_of_not_lt hlt) hmem
      omega
  · intro h
    exact List.mem_flatMap.mpr ⟨c, h, by simp [encodeChar_ascii hc]⟩

/-- A text has only ASCII bytes when it has only ASCII characters. -/
theorem forall_mem_encodeText_ascii {cs : List Char} :
    (∀ b ∈ encodeText cs, b.toNat < 128) ↔ ∀ c ∈ cs, c.toNat < 128 := by
  constructor
  · intro h c hc
    by_contra hlt
    obtain ⟨b, conts, heq, -⟩ := encodeChar_shape c
    have hb : b ∈ encodeChar c := by simp [heq]
    have hle := le_of_mem_encodeChar (Nat.le_of_not_lt hlt) hb
    have := h b (List.mem_flatMap.mpr ⟨c, hc, hb⟩)
    omega
  · intro h b hb
    obtain ⟨c, hc, hmem⟩ := List.mem_flatMap.mp hb
    rw [encodeChar_ascii (h c hc), List.mem_singleton] at hmem
    have := h c hc
    rw [hmem, UInt8.toNat_ofNat']
    omega

/-! ### Unique decoding -/

theorem encodeText_injective {cs ds : List Char} (h : encodeText cs = encodeText ds) : cs = ds := by
  have hbytes : cs.utf8Encode = ds.utf8Encode := congrArg List.toByteArray h
  have hstring : String.ofList cs = String.ofList ds :=
    String.toByteArray_inj.mp (by simpa using hbytes)
  simpa using congrArg String.toList hstring

theorem encodeChar_injective {c d : Char} (h : encodeChar c = encodeChar d) : c = d := by
  have := @encodeText_injective [c] [d] (by simp [h])
  simpa using this

/-- A character ends where its bytes end. -/
theorem encodeChar_append_inj {c d : Char} {xs ys : Bytes}
    (h : encodeChar c ++ xs = encodeChar d ++ ys) : c = d ∧ xs = ys := by
  obtain ⟨b, conts, hc, hlen, -⟩ := encodeChar_shape c
  obtain ⟨b', conts', hd, hlen', -⟩ := encodeChar_shape d
  have hlead : b = b' := by
    rw [hc, hd] at h
    exact (List.cons.inj h).1
  have hsize : (encodeChar c).length = (encodeChar d).length := by
    rw [hc, hd, List.length_cons, List.length_cons]
    rw [hlead, hlen'] at hlen
    omega
  obtain ⟨heq, hrest⟩ := List.append_inj h hsize
  exact ⟨encodeChar_injective heq, hrest⟩

/-- What begins with two characters begins with one. -/
theorem encodeChar_prefix_inj {c d : Char} {bs : Bytes} (hc : encodeChar c <+: bs)
    (hd : encodeChar d <+: bs) : c = d := by
  obtain ⟨xs, hxs⟩ := hc
  obtain ⟨ys, hys⟩ := hd
  exact (encodeChar_append_inj (hxs.trans hys.symm)).1

/-- What begins with the bytes of a text begins with the text. -/
theorem encodeText_eq_append {xs cs : List Char} {bs : Bytes}
    (h : encodeText xs = encodeText cs ++ bs) : ∃ ys, xs = cs ++ ys ∧ encodeText ys = bs := by
  induction cs generalizing xs with
  | nil => exact ⟨xs, rfl, h⟩
  | cons c cs ih =>
      rw [encodeText_cons, List.append_assoc] at h
      cases xs with
      | nil =>
          have hnil := List.append_eq_nil_iff.mp h.symm
          exact absurd hnil.1 (encodeChar_ne_nil c)
      | cons x xs =>
          rw [encodeText_cons] at h
          obtain ⟨rfl, hrest⟩ := encodeChar_append_inj h
          obtain ⟨ys, rfl, hys⟩ := ih hrest
          exact ⟨ys, rfl, hys⟩

/-! ### Where characters start -/

/-- No continuation byte stands at `i`. -/
def IsBoundary (bs : Bytes) (i : Nat) : Prop := ∀ b, bs[i]? = some b → ¬ IsContinuation b

theorem isBoundary_encodeText_zero (cs : List Char) : IsBoundary (encodeText cs) 0 := by
  intro b hb
  cases cs with
  | nil => simp at hb
  | cons c cs =>
      obtain ⟨lead, conts, hc, hlen, -⟩ := encodeChar_shape c
      rw [encodeText_cons, hc, List.cons_append, List.getElem?_cons_zero] at hb
      obtain rfl := Option.some.inj hb
      exact not_isContinuation (by omega)

/-- The rest of a text is a text exactly from where a character starts. -/
theorem drop_encodeText_iff (cs : List Char) (i : Nat) :
    (∃ ds, encodeText ds = (encodeText cs).drop i) ↔ IsBoundary (encodeText cs) i := by
  constructor
  · intro ⟨ds, hds⟩ b hb
    refine isBoundary_encodeText_zero ds b ?_
    rw [hds, List.getElem?_drop, Nat.add_zero]
    exact hb
  · intro h
    induction cs generalizing i with
    | nil => exact ⟨[], by simp⟩
    | cons c cs ih =>
        rw [encodeText_cons] at h ⊢
        by_cases hin : (encodeChar c).length ≤ i
        · -- the cut lies behind the first character
          have hrest : IsBoundary (encodeText cs) (i - (encodeChar c).length) := by
            intro b hb
            refine h b ?_
            rw [List.getElem?_append_right hin]
            exact hb
          obtain ⟨ds, hds⟩ := ih _ hrest
          refine ⟨ds, ?_⟩
          rw [hds, List.drop_append, List.drop_eq_nil_of_le hin, List.nil_append]
        · cases i with
          | zero => exact ⟨c :: cs, rfl⟩
          | succ i =>
              -- inside the first character there are continuation bytes only
              obtain ⟨lead, conts, hc, -, hconts⟩ := encodeChar_shape c
              rw [hc, List.length_cons] at hin
              have hi : i < conts.length := by omega
              refine absurd (hconts conts[i] (List.getElem_mem hi)) (h conts[i] ?_)
              rw [hc, List.cons_append, List.getElem?_cons_succ, List.getElem?_append_left hi,
                List.getElem?_eq_getElem hi]

/-- Decode a text; invalid bytes have none. -/
def decodeText (bs : Bytes) : Option (List Char) :=
  bs.toByteArray.utf8Decode?.map Array.toList

theorem decodeText_encodeText (cs : List Char) : decodeText (encodeText cs) = some cs := by
  have hbytes : (encodeText cs).toByteArray = cs.utf8Encode := rfl
  rw [decodeText, hbytes, List.utf8Decode?_utf8Encode]
  rfl

theorem decodeText_eq_some {bs : Bytes} {cs : List Char} :
    decodeText bs = some cs ↔ encodeText cs = bs := by
  constructor
  · intro h
    obtain ⟨arr, harr, rfl⟩ := Option.map_eq_some_iff.mp h
    have hbytes := @ByteArray.utf8Encode_get_utf8Decode? bs.toByteArray (by rw [harr]; rfl)
    simp only [harr, Option.get_some] at hbytes
    have hlist : (encodeText arr.toList).toByteArray = bs.toByteArray := hbytes
    simpa using congrArg ByteArray.data hlist
  · rintro rfl
    exact decodeText_encodeText cs

theorem decodeText_append (cs : List Char) (bs : Bytes) :
    decodeText (encodeText cs ++ bs) = (decodeText bs).map (cs ++ ·) := by
  cases hdecode : decodeText bs with
  | some ds =>
      rw [← decodeText_eq_some.mp hdecode, ← encodeText_append, decodeText_encodeText]
      rfl
  | none =>
      rw [Option.map_none, Option.eq_none_iff_forall_ne_some]
      intro xs hxs
      obtain ⟨ys, -, hys⟩ := encodeText_eq_append (decodeText_eq_some.mp hxs)
      rw [decodeText_eq_some.mpr hys] at hdecode
      cases hdecode

end Dafeng.Utf8
