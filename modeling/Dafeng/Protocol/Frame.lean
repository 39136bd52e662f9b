import Dafeng.Protocol.RoundTrip

/-!
# Dafeng.Protocol.Frame

Frames in a byte stream.

`parseFrames` is what a stream means to a reader: the messages of its frames, up
to the first frame that is not acceptable. Frames written back to back are
recovered (`parseFrames_frames`), and a reader that follows a header of any
frame gets that frame's message or nothing (`frame_read`), also where the body
is too large for its header.
-/

namespace Dafeng.Protocol

open Dafeng.Msgpack

/-! ### The length field -/

theorem or_bytes {a b c d : Nat} (hb : b < 256) (hc : c < 256) (hd : d < 256) :
    2 ^ 24 * a ||| 2 ^ 16 * b ||| 2 ^ 8 * c ||| d =
      2 ^ 24 * a + 2 ^ 16 * b + 2 ^ 8 * c + d := by
  rw [← Nat.two_pow_add_eq_or_of_lt (i := 24) (by omega),
    show 2 ^ 24 * a + 2 ^ 16 * b = 2 ^ 16 * (2 ^ 8 * a + b) by omega,
    ← Nat.two_pow_add_eq_or_of_lt (i := 16) (by omega),
    show 2 ^ 16 * (2 ^ 8 * a + b) + 2 ^ 8 * c = 2 ^ 8 * (2 ^ 16 * a + 2 ^ 8 * b + c) by omega,
    ← Nat.two_pow_add_eq_or_of_lt (i := 8) (by omega)]

theorem toNat_byte (n : UInt32) {k : UInt32} (hk : k.toNat < 32) :
    ((n >>> k) &&& 0xff).toUInt8.toUInt32.toNat = n.toNat / 2 ^ k.toNat % 256 := by
  have hmask : ∀ x : Nat, x &&& 255 = x % 256 := fun x => Nat.and_two_pow_sub_one_eq_mod x 8
  simp [hmask, Nat.shiftRight_eq_div_pow, Nat.mod_eq_of_lt hk]

/-- The four bytes of a length spell it. -/
theorem frameLength_bytes (n : UInt32) :
    (((n >>> 24) &&& 0xff).toUInt8.toUInt32 <<< 24) |||
      (((n >>> 16) &&& 0xff).toUInt8.toUInt32 <<< 16) |||
      (((n >>> 8) &&& 0xff).toUInt8.toUInt32 <<< 8) ||| (n &&& 0xff).toUInt8.toUInt32 = n := by
  have hn := n.toNat_lt
  have hlast : (n &&& 0xff).toUInt8.toUInt32.toNat = n.toNat % 256 := by
    simpa using toNat_byte n (k := 0) (by decide)
  rw [← UInt32.toNat_inj]
  simp only [UInt32.toNat_or, UInt32.toNat_shiftLeft, toNat_byte n (k := 24) (by decide),
    toNat_byte n (k := 16) (by decide), toNat_byte n (k := 8) (by decide), hlast]
  simp only [UInt32.reduceToNat, Nat.shiftLeft_eq, Nat.reduceMod]
  -- no byte is shifted out of the word
  simp (disch := omega) only [Nat.mod_eq_of_lt (b := 2 ^ 32), Nat.mul_comm _ (2 ^ _)]
  rw [or_bytes (by omega) (by omega) (by omega)]
  omega

theorem writeFrameLength_length (n : UInt32) :
    (writeFrameLength n).length = kFrameHeaderBytes := rfl

theorem readFrameLength_writeFrameLength (n : UInt32) :
    readFrameLength (writeFrameLength n) =
      if n = 0 ∨ kMaxFrameBodyBytes < n.toNat then none else some n := by
  rw [writeFrameLength, readFrameLength, frameLength_bytes]

/-- An accepted length is between one and the cap. -/
theorem readFrameLength_bounds {header : Bytes} {n : UInt32}
    (h : readFrameLength header = some n) : 0 < n.toNat ∧ n.toNat ≤ kMaxFrameBodyBytes := by
  unfold readFrameLength at h
  split at h
  · dsimp only at h
    split_ifs at h with hbad
    obtain ⟨hzero, hcap⟩ := not_or.mp hbad
    rw [← Option.some.inj h]
    exact ⟨UInt32.pos_iff_ne_zero.mpr hzero, by omega⟩
  · exact absurd h (by simp)

/-! ### One frame -/

/-- The frame a message travels in. -/
def frameOf (m : Message) : Bytes := encodeFrame (encodeBody m)

/-- Frames back to back. -/
def frames (ms : List Message) : Bytes := ms.flatMap frameOf

@[simp] theorem frames_nil : frames [] = [] := rfl

@[simp] theorem frames_cons (m : Message) (ms : List Message) :
    frames (m :: ms) = frameOf m ++ frames ms := rfl

@[simp] theorem frames_append (ms ms' : List Message) :
    frames (ms ++ ms') = frames ms ++ frames ms' := by
  simp [frames]

theorem frameOf_length (m : Message) :
    (frameOf m).length = kFrameHeaderBytes + (encodeBody m).length := by
  simp [frameOf, encodeFrame, writeFrameLength_length]

theorem frameOf_ne_nil (m : Message) : frameOf m ≠ [] := by
  simp [frameOf, encodeFrame, writeFrameLength]

/-! ### The packer's check -/

theorem packableAll_map {α : Type} {g : α → Value} {xs : List α}
    (h : ∀ x ∈ xs, packable (g x)) : packableAll (xs.map g) := by
  induction xs with
  | nil => rfl
  | cons x xs ih =>
      rw [List.map_cons, packableAll, h x List.mem_cons_self,
        ih fun y hy => h y (List.mem_cons_of_mem x hy), Bool.and_true]

theorem packable_int32Value (i : Int32) : packable (int32Value i) := by
  unfold int32Value
  split_ifs <;> rfl

theorem packable_str (s : Bytes) : packable (.str s) = fits s := rfl

theorem packable_arr (xs : List Value) : packable (.arr xs) = (fits xs && packableAll xs) := rfl

/-- The check on a message is the check on the object that is written. -/
theorem packable_entries {m : Message} (h : encodable m) : packable (.map (entries m)) := by
  have hmap : ∀ {α : Type} (g : α → Value) {xs : List α}, fits xs = true →
      fits (xs.map g) = true := by
    intro α g xs hxs
    rwa [fits, List.length_map]
  have hlen : fits (entries m) = true := by
    cases m <;> rfl
  show (fits (entries m) && packableEntries (entries m)) = true
  rw [hlen, Bool.true_and]
  cases m with
  | rerankRequest m =>
      simp only [encodable, Bool.and_eq_true, List.all_eq_true] at h
      obtain ⟨⟨⟨⟨hcode, hctx⟩, hcands⟩, hall⟩, happ⟩ := h
      have hstrs : packableAll (m.candidates.map .str) := packableAll_map hall
      simp only [entries, headerEntries, fieldEntries, List.cons_append, List.nil_append,
        packableEntries, packable_str, packable_arr, hcode, hctx, hmap .str hcands, hstrs, happ]
      rfl
  | rerankResponse m =>
      simp only [encodable, Bool.and_eq_true] at h
      have hints : packableAll (m.reorderedIndices.map int32Value) :=
        packableAll_map fun i _ => packable_int32Value i
      have hfloats : packableAll (m.scores.map .f32) := packableAll_map fun _ _ => rfl
      simp only [entries, headerEntries, fieldEntries, List.cons_append, List.nil_append,
        packableEntries, packable_str, packable_arr, hmap int32Value h.1, hints, hmap .f32 h.2,
        hfloats]
      rfl
  | commitEvent m =>
      simp only [encodable, Bool.and_eq_true] at h
      simp only [entries, headerEntries, fieldEntries, List.cons_append, List.nil_append,
        packableEntries, packable_str, h]
      rfl
  | error m =>
      simp only [encodable] at h
      simp only [entries, headerEntries, fieldEntries, List.cons_append, List.nil_append,
        packableEntries, packable_str, packable_int32Value, h]
      rfl
  | ping m => rfl
  | pong m => rfl
  | statsRequest m => rfl
  | statsResponse m => rfl

/-! ### Reading frames -/

section Reading

variable (mp : Unpacker)

/-- Behind a header that is accepted, the bytes of the announced number decode
to the frame's message or to nothing: an announced length below the real one
leaves a proper prefix of the body. -/
theorem frame_read {m : Message} {header body rest tail : Bytes} {n : UInt32}
    (hm : encodable m) (hsplit : frameOf m ++ tail = header ++ (body ++ rest))
    (hheader : header.length = kFrameHeaderBytes) (hn : readFrameLength header = some n)
    (hbody : body.length = n.toNat) :
    decodeBody mp body = none ∨ (decodeBody mp body = some m ∧ rest = tail ∧
      (encodeBody m).length ≤ kMaxFrameBodyBytes) := by
  rw [frameOf, encodeFrame, List.append_assoc] at hsplit
  obtain ⟨rfl, hrest⟩ := List.append_inj hsplit hheader.symm
  have hbounds := readFrameLength_bounds hn
  rw [readFrameLength_writeFrameLength] at hn
  split_ifs at hn with hbad
  obtain rfl := Option.some.inj hn
  rw [UInt32.toNat_ofNat'] at hbody hbounds
  by_cases hcap : (encodeBody m).length ≤ kMaxFrameBodyBytes
  · -- the length is the real one
    rw [Nat.mod_eq_of_lt (Nat.lt_of_le_of_lt hcap (by decide))] at hbody
    obtain ⟨rfl, rfl⟩ := List.append_inj hrest hbody.symm
    exact .inr ⟨by rw [decodeBody_encoded mp m, if_pos hcap], rfl, hcap⟩
  · -- the length was truncated
    left
    obtain ⟨q, hq⟩ : body <+: encodeBody m :=
      List.prefix_of_prefix_length_le ⟨rest, hrest.symm⟩ (List.prefix_append _ tail) (by omega)
    have hne : q ≠ [] := by
      rintro rfl
      rw [← hq, List.append_nil] at hcap
      omega
    rw [decodeBody, unpackBody,
      mp.unpack_prefix (packable_entries hm) (by rw [← encodeBody_eq_pack, hq]) hne]
    split_ifs <;> rfl

/-- The message of the frame at the front of a stream, and what follows it. -/
def nextFrame (s : Bytes) : Option (Message × Bytes) :=
  if s.length < kFrameHeaderBytes then none
  else
    match readFrameLength (s.take kFrameHeaderBytes) with
    | none => none
    | some n =>
      let rest := s.drop kFrameHeaderBytes
      if rest.length < n.toNat then none
      else (decodeBody mp (rest.take n.toNat)).map fun m => (m, rest.drop n.toNat)

/-- A frame is a header with an acceptable length, and that many bytes that decode. -/
theorem nextFrame_eq_some_iff {s rest : Bytes} {m : Message} :
    nextFrame mp s = some (m, rest) ↔ ∃ header len body, header.length = kFrameHeaderBytes ∧
      readFrameLength header = some len ∧ body.length = len.toNat ∧
        decodeBody mp body = some m ∧ s = header ++ (body ++ rest) := by
  constructor
  · intro h
    unfold nextFrame at h
    split_ifs at h with hshort
    cases hlen : readFrameLength (s.take kFrameHeaderBytes) with
    | none =>
        rw [hlen] at h
        cases h
    | some len =>
        rw [hlen] at h
        dsimp only at h
        split_ifs at h with htail
        obtain ⟨m', hdec, he⟩ := Option.map_eq_some_iff.mp h
        obtain ⟨rfl, rfl⟩ := Prod.mk.inj he
        refine ⟨_, len, _, List.length_take_of_le (by omega), hlen,
          List.length_take_of_le (by omega), hdec, ?_⟩
        rw [List.take_append_drop, List.take_append_drop]
  · intro h
    obtain ⟨header, len, body, hheader, hlen, hbody, hdec, rfl⟩ := h
    unfold nextFrame
    rw [if_neg (by rw [List.length_append]; omega), List.take_left' hheader,
      List.drop_left' hheader, hlen]
    dsimp only
    rw [if_neg (by rw [List.length_append]; omega), List.take_left' hbody, List.drop_left' hbody,
      hdec, Option.map_some]

/-- A frame takes at least its header from the stream. -/
theorem nextFrame_length {s rest : Bytes} {m : Message}
    (h : nextFrame mp s = some (m, rest)) : rest.length + kFrameHeaderBytes ≤ s.length := by
  obtain ⟨header, len, body, hheader, -, -, -, rfl⟩ := (nextFrame_eq_some_iff mp).mp h
  simp only [List.length_append]
  omega

/-- The messages of a stream, up to the first frame with a bad length, an
undecodable body or an incomplete tail. -/
def parseFrames (s : Bytes) : List Message :=
  match _h : nextFrame mp s with
  | none => []
  | some (m, rest) => m :: parseFrames rest
  termination_by s.length
  decreasing_by
    have := nextFrame_length mp _h
    simp only [kFrameHeaderBytes] at this
    omega

theorem parseFrames_of_none {s : Bytes} (h : nextFrame mp s = none) : parseFrames mp s = [] := by
  rw [parseFrames]
  split
  · rfl
  · rename_i h'
    simp [h] at h'

theorem parseFrames_of_some {s rest : Bytes} {m : Message}
    (h : nextFrame mp s = some (m, rest)) : parseFrames mp s = m :: parseFrames mp rest := by
  rw [parseFrames]
  split
  · rename_i h'
    simp [h] at h'
  · rename_i h'
    rw [h] at h'
    obtain ⟨rfl, rfl⟩ := Prod.mk.inj (Option.some.inj h')
    rfl

/-- The header of a frame within the cap holds the length of its body. -/
theorem readFrameLength_encodeBody {m : Message}
    (hcap : (encodeBody m).length ≤ kMaxFrameBodyBytes) :
    (UInt32.ofNat (encodeBody m).length).toNat = (encodeBody m).length ∧
      readFrameLength (writeFrameLength (UInt32.ofNat (encodeBody m).length)) =
        some (UInt32.ofNat (encodeBody m).length) := by
  have hne := encodeBody_ne_nil m
  have hsize : (UInt32.ofNat (encodeBody m).length).toNat = (encodeBody m).length := by
    rw [UInt32.toNat_ofNat']
    exact Nat.mod_eq_of_lt (Nat.lt_of_le_of_lt hcap (by decide))
  refine ⟨hsize, ?_⟩
  rw [readFrameLength_writeFrameLength, if_neg]
  rw [← UInt32.toNat_inj, hsize]
  exact not_or.mpr ⟨hne, by omega⟩

/-- The frame of a message within the cap is read whole. -/
theorem nextFrame_frameOf {m : Message} (hcap : (encodeBody m).length ≤ kMaxFrameBodyBytes)
    (tail : Bytes) : nextFrame mp (frameOf m ++ tail) = some (m, tail) := by
  obtain ⟨hsize, hlen⟩ := readFrameLength_encodeBody hcap
  refine (nextFrame_eq_some_iff mp).mpr ⟨_, _, encodeBody m, writeFrameLength_length _, hlen,
    hsize.symm, ?_, ?_⟩
  · rw [decodeBody_encoded mp m, if_pos hcap]
  · rw [frameOf, encodeFrame, List.append_assoc]

/-- **Frames are recovered.** Frames of messages within the cap come back, in
order, in front of whatever follows them. -/
theorem parseFrames_frames {ms : List Message}
    (hcap : ∀ m ∈ ms, (encodeBody m).length ≤ kMaxFrameBodyBytes) (tail : Bytes) :
    parseFrames mp (frames ms ++ tail) = ms ++ parseFrames mp tail := by
  induction ms with
  | nil => rfl
  | cons m ms ih =>
      rw [frames_cons, List.append_assoc,
        parseFrames_of_some mp (nextFrame_frameOf mp (hcap m List.mem_cons_self) _),
        ih fun m' hm' => hcap m' (List.mem_cons_of_mem m hm'), List.cons_append]

end Reading

end Dafeng.Protocol
