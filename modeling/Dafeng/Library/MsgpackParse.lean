import Dafeng.Library.Msgpack

/-!
# Dafeng.Library.MsgpackParse

A reader of MessagePack and its two laws: it reads back what `pack` writes and
leaves the bytes that follow (`parse_pack`), and a successful read does not
depend on those bytes (`parse_append`). Together they make the packed form
prefix-free (`parse_prefix`).

`parse_mono` says that the recursion bound is only that.

A value starts with a head: a whole scalar, or the kind and length of what
follows. Only arrays and maps nest, so the recursion is bounded by the depth
(`fuel`), never by the lengths a header announces.
-/

namespace Dafeng.Msgpack

/-- What the first bytes of a value announce. -/
inductive Head
  | scalar (v : Value)
  | str (n : Nat)
  | bin (n : Nat)
  | ext (n : Nat)
  | arr (n : Nat)
  | map (n : Nat)

/-- A two's complement integer of `w` bytes, from its unsigned reading. -/
def signedValue (w v : Nat) : Value :=
  if v < 2 ^ (8 * w - 1) then .uint (UInt64.ofNat v)
  else .nint (Fin.ofNat (2 ^ 63) (2 ^ (8 * w) - 1 - v))

/-- A head whose big-endian field of `w` bytes determines it. -/
def wideHead (w : Nat) (f : Nat → Head) (bs : Bytes) : Option (Head × Bytes) :=
  (takeBytes w bs).map fun p => (f (beValue p.1), p.2)

/-- Heads with a tag in `0xc0 .. 0xdf`. -/
def taggedHead (tag : Nat) (bs : Bytes) : Option (Head × Bytes) :=
  match tag with
  | 0xc0 => some (.scalar .nil, bs)
  | 0xc2 => some (.scalar (.bool false), bs)
  | 0xc3 => some (.scalar (.bool true), bs)
  | 0xc4 => wideHead 1 .bin bs
  | 0xc5 => wideHead 2 .bin bs
  | 0xc6 => wideHead 4 .bin bs
  | 0xc7 => wideHead 1 .ext bs
  | 0xc8 => wideHead 2 .ext bs
  | 0xc9 => wideHead 4 .ext bs
  | 0xca => wideHead 4 (fun v => .scalar (.f32 (UInt32.ofNat v))) bs
  | 0xcb => wideHead 8 (fun v => .scalar (.f64 (UInt64.ofNat v))) bs
  | 0xcc => wideHead 1 (fun v => .scalar (.uint (UInt64.ofNat v))) bs
  | 0xcd => wideHead 2 (fun v => .scalar (.uint (UInt64.ofNat v))) bs
  | 0xce => wideHead 4 (fun v => .scalar (.uint (UInt64.ofNat v))) bs
  | 0xcf => wideHead 8 (fun v => .scalar (.uint (UInt64.ofNat v))) bs
  | 0xd0 => wideHead 1 (fun v => .scalar (signedValue 1 v)) bs
  | 0xd1 => wideHead 2 (fun v => .scalar (signedValue 2 v)) bs
  | 0xd2 => wideHead 4 (fun v => .scalar (signedValue 4 v)) bs
  | 0xd3 => wideHead 8 (fun v => .scalar (signedValue 8 v)) bs
  | 0xd4 => some (.ext 1, bs)
  | 0xd5 => some (.ext 2, bs)
  | 0xd6 => some (.ext 4, bs)
  | 0xd7 => some (.ext 8, bs)
  | 0xd8 => some (.ext 16, bs)
  | 0xd9 => wideHead 1 .str bs
  | 0xda => wideHead 2 .str bs
  | 0xdb => wideHead 4 .str bs
  | 0xdc => wideHead 2 .arr bs
  | 0xdd => wideHead 4 .arr bs
  | 0xde => wideHead 2 .map bs
  | 0xdf => wideHead 4 .map bs
  | _ => none

/-- The head that starts with the byte `tag`. -/
def headOfTag (tag : Nat) (bs : Bytes) : Option (Head × Bytes) :=
  if tag < 0x80 then some (.scalar (.uint (UInt64.ofNat tag)), bs)
  else if tag < 0x90 then some (.map (tag - 0x80), bs)
  else if tag < 0xa0 then some (.arr (tag - 0x90), bs)
  else if tag < 0xc0 then some (.str (tag - 0xa0), bs)
  else if tag < 0xe0 then taggedHead tag bs
  else some (.scalar (.nint (Fin.ofNat (2 ^ 63) (0xff - tag))), bs)

/-- The head at the front of `bs`. -/
def parseHead : Bytes → Option (Head × Bytes)
  | [] => none
  | b :: bs => headOfTag b.toNat bs

/-- `n` items, each read by `item`. -/
def parseMany {α : Type} (item : Bytes → Option (α × Bytes)) :
    Nat → Bytes → Option (List α × Bytes)
  | 0, bs => some ([], bs)
  | n + 1, bs =>
    match item bs with
    | none => none
    | some (x, bs) =>
      match parseMany item n bs with
      | none => none
      | some (xs, bs) => some (x :: xs, bs)

/-- A key and a value. -/
def parseEntry (item : Bytes → Option (Value × Bytes)) (bs : Bytes) :
    Option ((Value × Value) × Bytes) :=
  match item bs with
  | none => none
  | some (k, bs) =>
    match item bs with
    | none => none
    | some (v, bs) => some ((k, v), bs)

/-- An extension of `n` data bytes: the type byte, then the data. -/
def parseExt (n : Nat) : Bytes → Option (Value × Bytes)
  | [] => none
  | type :: bs => (takeBytes n bs).map fun p => (.ext type p.1, p.2)

/-- The value at the front of `bs`, when it nests at most `fuel` deep. -/
def parse : Nat → Bytes → Option (Value × Bytes)
  | 0, _ => none
  | fuel + 1, bs =>
    match parseHead bs with
    | none => none
    | some (.scalar v, bs) => some (v, bs)
    | some (.str n, bs) => (takeBytes n bs).map fun p => (.str p.1, p.2)
    | some (.bin n, bs) => (takeBytes n bs).map fun p => (.bin p.1, p.2)
    | some (.ext n, bs) => parseExt n bs
    | some (.arr n, bs) => (parseMany (parse fuel) n bs).map fun p => (.arr p.1, p.2)
    | some (.map n, bs) =>
      (parseMany (parseEntry (parse fuel)) n bs).map fun p => (.map p.1, p.2)

/-! ### A successful read does not depend on what follows -/

/-- A reader whose successes survive when more bytes follow. -/
structure Stable {α : Type} (item : Bytes → Option (α × Bytes)) : Prop where
  append : ∀ {bs x rest}, item bs = some (x, rest) → ∀ q, item (bs ++ q) = some (x, rest ++ q)

theorem takeBytes_stable (n : Nat) : Stable (takeBytes n) := by
  refine ⟨fun {bs front rest} h q => ?_⟩
  obtain ⟨rfl, hlen⟩ := takeBytes_eq_some h
  rw [List.append_assoc, takeBytes_append hlen]

theorem Stable.map {α β : Type} {item : Bytes → Option (α × Bytes)} (hitem : Stable item)
    (f : α → β) : Stable (fun bs => (item bs).map fun p => (f p.1, p.2)) := by
  refine ⟨fun {bs y rest} h q => ?_⟩
  obtain ⟨⟨x, rest'⟩, hx, he⟩ := Option.map_eq_some_iff.mp h
  simp only [Prod.mk.injEq] at he
  obtain ⟨rfl, rfl⟩ := he
  rw [hitem.append hx, Option.map_some]

/-- A value that costs no further byte. -/
theorem stable_pure {α : Type} (x : α) : Stable (fun bs => some (x, bs)) := by
  refine ⟨fun {bs y rest} h q => ?_⟩
  simp only [Option.some.injEq, Prod.mk.injEq] at h ⊢
  exact ⟨h.1, by rw [h.2]⟩

theorem wideHead_stable (w : Nat) (f : Nat → Head) : Stable (wideHead w f) :=
  (takeBytes_stable w).map (fun x => f (beValue x))

theorem taggedHead_stable (tag : Nat) : Stable (taggedHead tag) := by
  refine ⟨fun {bs h rest} ht q => ?_⟩
  unfold taggedHead at ht ⊢
  split at ht <;>
    first
      | exact (wideHead_stable _ _).append ht q
      | exact (stable_pure _).append ht q
      | exact absurd ht (by simp)

theorem parseHead_stable : Stable parseHead := by
  refine ⟨fun {bs h rest} hp q => ?_⟩
  cases bs with
  | nil => exact absurd hp (by simp [parseHead])
  | cons b bs =>
      simp only [parseHead, headOfTag, List.cons_append] at hp ⊢
      split_ifs at hp ⊢ <;>
        first
          | exact (taggedHead_stable _).append hp q
          | exact (stable_pure _).append hp q

theorem parseMany_stable {α : Type} {item : Bytes → Option (α × Bytes)} (hitem : Stable item)
    (n : Nat) : Stable (parseMany item n) := by
  induction n with
  | zero => exact stable_pure []
  | succ n ih =>
      refine ⟨fun {bs xs rest} h q => ?_⟩
      unfold parseMany at h ⊢
      cases hx : item bs with
      | none => simp [hx] at h
      | some px =>
          rw [hx] at h
          rw [hitem.append hx]
          dsimp only at h ⊢
          cases hxs : parseMany item n px.2 with
          | none => simp [hxs] at h
          | some pxs =>
              rw [hxs] at h
              rw [ih.append hxs]
              exact (stable_pure _).append h q

theorem parseEntry_stable {item : Bytes → Option (Value × Bytes)} (hitem : Stable item) :
    Stable (parseEntry item) := by
  refine ⟨fun {bs kv rest} h q => ?_⟩
  unfold parseEntry at h ⊢
  cases hk : item bs with
  | none => simp [hk] at h
  | some pk =>
      rw [hk] at h
      rw [hitem.append hk]
      dsimp only at h ⊢
      cases hv : item pk.2 with
      | none => simp [hv] at h
      | some pv =>
          rw [hv] at h
          rw [hitem.append hv]
          exact (stable_pure _).append h q

theorem parseExt_stable (n : Nat) : Stable (parseExt n) := by
  refine ⟨fun {bs v rest} h q => ?_⟩
  cases bs with
  | nil => simp [parseExt] at h
  | cons type bs => exact ((takeBytes_stable n).map (Value.ext type)).append h q

/-- **Stability.** A value that was read is read again when more bytes follow. -/
theorem parse_stable (fuel : Nat) : Stable (parse fuel) := by
  induction fuel with
  | zero =>
      exact ⟨fun h => by simp [parse] at h⟩
  | succ fuel ih =>
      refine ⟨fun {bs v rest} h q => ?_⟩
      unfold parse at h ⊢
      cases hh : parseHead bs with
      | none => simp [hh] at h
      | some p =>
          obtain ⟨head, bs₁⟩ := p
          rw [hh] at h
          rw [parseHead_stable.append hh q]
          cases head with
          | scalar w => exact (stable_pure w).append h q
          | str n => exact ((takeBytes_stable n).map Value.str).append h q
          | bin n => exact ((takeBytes_stable n).map Value.bin).append h q
          | ext n => exact (parseExt_stable n).append h q
          | arr n => exact ((parseMany_stable ih n).map Value.arr).append h q
          | map n => exact ((parseMany_stable (parseEntry_stable ih) n).map Value.map).append h q

/-! ### Heads are read back -/

theorem wideHead_beBytes {w v : Nat} (f : Nat → Head) (hv : v < 256 ^ w) (rest : Bytes) :
    wideHead w f (beBytes w v ++ rest) = some (f v, rest) := by
  rw [wideHead, takeBytes_append (beBytes_length w v), Option.map_some, beValue_beBytes hv]

theorem parseHead_byte {t : Nat} (ht : t < 0x100) (bs : Bytes) :
    parseHead (UInt8.ofNat t :: bs) = headOfTag t bs := by
  have htag : (UInt8.ofNat t).toNat = t := by simp; omega
  rw [parseHead, htag]

/-- A tagged field is read with the tag's own rule. -/
theorem parseHead_tagged {tag w v : Nat} (f : Nat → Head) (rest : Bytes)
    (hrule : taggedHead tag = wideHead w f) (hlo : 0xc0 ≤ tag) (hhi : tag < 0xe0)
    (hv : v < 256 ^ w) :
    parseHead (tagged tag w v ++ rest) = some (f v, rest) := by
  rw [tagged, List.cons_append, parseHead_byte (by omega), headOfTag,
    if_neg (by omega), if_neg (by omega), if_neg (by omega), if_neg (by omega), if_pos hhi,
    hrule, wideHead_beBytes f hv]

theorem parseHead_packUInt {n : Nat} (hn : n < 2 ^ 64) (rest : Bytes) :
    parseHead (packUInt n ++ rest) = some (.scalar (.uint (UInt64.ofNat n)), rest) := by
  unfold packUInt
  split_ifs with h₁ h₂ h₃ h₄
  · rw [List.cons_append, parseHead_byte (by omega), headOfTag, if_pos h₁, List.nil_append]
  · exact parseHead_tagged (fun v => .scalar (.uint (UInt64.ofNat v))) rest rfl
      (by decide) (by decide) (by omega)
  · exact parseHead_tagged (fun v => .scalar (.uint (UInt64.ofNat v))) rest rfl
      (by decide) (by decide) (by omega)
  · exact parseHead_tagged (fun v => .scalar (.uint (UInt64.ofNat v))) rest rfl
      (by decide) (by decide) (by omega)
  · exact parseHead_tagged (fun v => .scalar (.uint (UInt64.ofNat v))) rest rfl
      (by decide) (by decide) (by omega)

/-- Complementing a negative integer's field gives the integer back. -/
theorem signedValue_compl {w m : Nat} (hw : w = 1 ∨ w = 2 ∨ w = 4 ∨ w = 8)
    (hm : m < 2 ^ (8 * w - 1)) :
    signedValue w (2 ^ (8 * w) - 1 - m) = .nint (Fin.ofNat (2 ^ 63) m) := by
  have hcompl : ¬ 2 ^ (8 * w) - 1 - m < 2 ^ (8 * w - 1) ∧
      2 ^ (8 * w) - 1 - (2 ^ (8 * w) - 1 - m) = m := by
    rcases hw with rfl | rfl | rfl | rfl <;> simp only [Nat.reduceMul, Nat.reduceSub] at hm ⊢ <;>
      omega
  rw [signedValue, if_neg hcompl.1, hcompl.2]

theorem parseHead_packNInt {m : Nat} (hm : m < 2 ^ 63) (rest : Bytes) :
    parseHead (packNInt m ++ rest) = some (.scalar (.nint (Fin.ofNat (2 ^ 63) m)), rest) := by
  unfold packNInt
  split_ifs with h₁ h₂ h₃ h₄
  · rw [List.cons_append, parseHead_byte (by omega), headOfTag,
      if_neg (by omega), if_neg (by omega), if_neg (by omega), if_neg (by omega),
      if_neg (by omega), show 0xff - (0xff - m) = m by omega, List.nil_append]
  · rw [parseHead_tagged (fun v => .scalar (signedValue 1 v)) rest rfl
      (by decide) (by decide) (by omega)]
    exact congrArg (fun v => some (Head.scalar v, rest))
      (signedValue_compl (w := 1) (by simp) (by omega))
  · rw [parseHead_tagged (fun v => .scalar (signedValue 2 v)) rest rfl
      (by decide) (by decide) (by omega)]
    exact congrArg (fun v => some (Head.scalar v, rest))
      (signedValue_compl (w := 2) (by simp) (by omega))
  · rw [parseHead_tagged (fun v => .scalar (signedValue 4 v)) rest rfl
      (by decide) (by decide) (by omega)]
    exact congrArg (fun v => some (Head.scalar v, rest))
      (signedValue_compl (w := 4) (by simp) (by omega))
  · rw [parseHead_tagged (fun v => .scalar (signedValue 8 v)) rest rfl
      (by decide) (by decide) (by omega)]
    exact congrArg (fun v => some (Head.scalar v, rest))
      (signedValue_compl (w := 8) (by simp) (by omega))

theorem parseHead_packStrHeader {n : Nat} (hn : n < 2 ^ 32) (rest : Bytes) :
    parseHead (packStrHeader n ++ rest) = some (.str n, rest) := by
  unfold packStrHeader
  split_ifs with h₁ h₂ h₃
  · rw [List.cons_append, parseHead_byte (by omega), headOfTag,
      if_neg (by omega), if_neg (by omega), if_neg (by omega), if_pos (by omega),
      Nat.add_sub_cancel_left, List.nil_append]
  · exact parseHead_tagged .str rest rfl (by decide) (by decide) (by omega)
  · exact parseHead_tagged .str rest rfl (by decide) (by decide) (by omega)
  · exact parseHead_tagged .str rest rfl (by decide) (by decide) (by omega)

theorem parseHead_packBinHeader {n : Nat} (hn : n < 2 ^ 32) (rest : Bytes) :
    parseHead (packBinHeader n ++ rest) = some (.bin n, rest) := by
  unfold packBinHeader
  split_ifs with h₁ h₂
  · exact parseHead_tagged .bin rest rfl (by decide) (by decide) (by omega)
  · exact parseHead_tagged .bin rest rfl (by decide) (by decide) (by omega)
  · exact parseHead_tagged .bin rest rfl (by decide) (by decide) (by omega)

theorem parseHead_packExtHeader {n : Nat} (hn : n < 2 ^ 32) (rest : Bytes) :
    parseHead (packExtHeader n ++ rest) = some (.ext n, rest) := by
  unfold packExtHeader
  split_ifs with h₁ h₂ h₃ h₄ h₅ h₆ h₇
  · subst h₁; rfl
  · subst h₂; rfl
  · subst h₃; rfl
  · subst h₄; rfl
  · subst h₅; rfl
  · exact parseHead_tagged .ext rest rfl (by decide) (by decide) (by omega)
  · exact parseHead_tagged .ext rest rfl (by decide) (by decide) (by omega)
  · exact parseHead_tagged .ext rest rfl (by decide) (by decide) (by omega)

theorem parseHead_packArrayHeader {n : Nat} (hn : n < 2 ^ 32) (rest : Bytes) :
    parseHead (packArrayHeader n ++ rest) = some (.arr n, rest) := by
  unfold packArrayHeader
  split_ifs with h₁ h₂
  · rw [List.cons_append, parseHead_byte (by omega), headOfTag,
      if_neg (by omega), if_neg (by omega), if_pos (by omega), Nat.add_sub_cancel_left,
      List.nil_append]
  · exact parseHead_tagged .arr rest rfl (by decide) (by decide) (by omega)
  · exact parseHead_tagged .arr rest rfl (by decide) (by decide) (by omega)

theorem parseHead_packMapHeader {n : Nat} (hn : n < 2 ^ 32) (rest : Bytes) :
    parseHead (packMapHeader n ++ rest) = some (.map n, rest) := by
  unfold packMapHeader
  split_ifs with h₁ h₂
  · rw [List.cons_append, parseHead_byte (by omega), headOfTag, if_neg (by omega),
      if_pos (by omega), Nat.add_sub_cancel_left, List.nil_append]
  · exact parseHead_tagged .map rest rfl (by decide) (by decide) (by omega)
  · exact parseHead_tagged .map rest rfl (by decide) (by decide) (by omega)

/-! ### More fuel reads the same -/

theorem parseMany_imp {α : Type} {item item' : Bytes → Option (α × Bytes)}
    (h : ∀ {bs r}, item bs = some r → item' bs = some r) {n : Nat} {bs : Bytes}
    {r : List α × Bytes} (hr : parseMany item n bs = some r) : parseMany item' n bs = some r := by
  induction n generalizing bs r with
  | zero => exact hr
  | succ n ih =>
      unfold parseMany at hr ⊢
      cases hx : item bs with
      | none => simp [hx] at hr
      | some px =>
          rw [hx] at hr
          rw [h hx]
          dsimp only at hr ⊢
          cases hxs : parseMany item n px.2 with
          | none => simp [hxs] at hr
          | some pxs =>
              rw [hxs] at hr
              rw [ih hxs]
              exact hr

theorem parseEntry_imp {item item' : Bytes → Option (Value × Bytes)}
    (h : ∀ {bs r}, item bs = some r → item' bs = some r) {bs : Bytes}
    {r : (Value × Value) × Bytes} (hr : parseEntry item bs = some r) :
    parseEntry item' bs = some r := by
  unfold parseEntry at hr ⊢
  cases hk : item bs with
  | none => simp [hk] at hr
  | some pk =>
      rw [hk] at hr
      rw [h hk]
      dsimp only at hr ⊢
      cases hv : item pk.2 with
      | none => simp [hv] at hr
      | some pv =>
          rw [hv] at hr
          rw [h hv]
          exact hr

theorem parse_succ {fuel : Nat} {bs : Bytes} {r : Value × Bytes} (h : parse fuel bs = some r) :
    parse (fuel + 1) bs = some r := by
  induction fuel generalizing bs r with
  | zero => simp [parse] at h
  | succ fuel ih =>
      unfold parse at h ⊢
      cases hh : parseHead bs with
      | none => simp [hh] at h
      | some p =>
          obtain ⟨head, bs₁⟩ := p
          rw [hh] at h
          cases head with
          | arr n =>
              obtain ⟨p, hp, rfl⟩ := Option.map_eq_some_iff.mp h
              dsimp only
              rw [parseMany_imp ih hp, Option.map_some]
          | map n =>
              obtain ⟨p, hp, rfl⟩ := Option.map_eq_some_iff.mp h
              dsimp only
              rw [parseMany_imp (parseEntry_imp ih) hp, Option.map_some]
          | _ => exact h

theorem parse_mono {fuel fuel' : Nat} (hle : fuel ≤ fuel') {bs : Bytes} {r : Value × Bytes}
    (h : parse fuel bs = some r) : parse fuel' bs = some r := by
  induction hle with
  | refl => exact h
  | step _ ih => exact parse_succ ih

/-! ### Values are read back -/

mutual
/-- **Round trip.** Reading what `pack` wrote gives the value back and leaves
the bytes after it. -/
theorem parse_pack : ∀ (v : Value) {fuel : Nat} (rest : Bytes), (pack v).length ≤ fuel →
    packable v → parse fuel (pack v ++ rest) = some (v, rest)
  | v, 0, _, hfuel, _ => by
      have := pack_length_pos v
      omega
  | .nil, fuel + 1, rest, _, _ => rfl
  | .bool false, fuel + 1, rest, _, _ => rfl
  | .bool true, fuel + 1, rest, _, _ => rfl
  | .uint n, fuel + 1, rest, _, _ => by
      rw [pack, parse, parseHead_packUInt n.toNat_lt]
      simp
  | .nint m, fuel + 1, rest, _, _ => by
      rw [pack, parse, parseHead_packNInt m.isLt]
      simp
  | .f32 bits, fuel + 1, rest, _, _ => by
      rw [pack, packF32, parse, parseHead_tagged (fun v => .scalar (.f32 (UInt32.ofNat v))) rest
        rfl (by decide) (by decide) bits.toNat_lt]
      simp
  | .f64 bits, fuel + 1, rest, _, _ => by
      rw [pack, parse, parseHead_tagged (fun v => .scalar (.f64 (UInt64.ofNat v))) rest
        rfl (by decide) (by decide) bits.toNat_lt]
      simp
  | .str s, fuel + 1, rest, _, hfit => by
      rw [pack, packStr, List.append_assoc, parse,
        parseHead_packStrHeader (of_decide_eq_true hfit)]
      simp [takeBytes_append]
  | .bin s, fuel + 1, rest, _, hfit => by
      rw [pack, List.append_assoc, parse, parseHead_packBinHeader (of_decide_eq_true hfit)]
      simp [takeBytes_append]
  | .ext type data, fuel + 1, rest, _, hfit => by
      rw [pack, List.append_assoc, parse, parseHead_packExtHeader (of_decide_eq_true hfit)]
      simp [parseExt, takeBytes_append]
  | .arr xs, fuel + 1, rest, hfuel, hfit => by
      have hpos := packArrayHeader_length_pos xs.length
      simp only [pack, List.length_append] at hfuel
      simp only [packable, Bool.and_eq_true, decide_eq_true_eq] at hfit
      rw [pack, List.append_assoc, parse, parseHead_packArrayHeader hfit.1]
      dsimp only
      rw [parseMany_packAll xs rest (by omega) hfit.2, Option.map_some]
  | .map kvs, fuel + 1, rest, hfuel, hfit => by
      have hpos := packMapHeader_length_pos kvs.length
      simp only [pack, List.length_append] at hfuel
      simp only [packable, Bool.and_eq_true, decide_eq_true_eq] at hfit
      rw [pack, List.append_assoc, parse, parseHead_packMapHeader hfit.1]
      dsimp only
      rw [parseMany_packEntries kvs rest (by omega) hfit.2, Option.map_some]
theorem parseMany_packAll : ∀ (xs : List Value) {fuel : Nat} (rest : Bytes),
    (packAll xs).length ≤ fuel → packableAll xs →
    parseMany (parse fuel) xs.length (packAll xs ++ rest) = some (xs, rest)
  | [], _, _, _, _ => rfl
  | x :: xs, _, rest, hfuel, hfit => by
      simp only [packAll, List.length_append] at hfuel
      simp only [packableAll, Bool.and_eq_true] at hfit
      rw [packAll, List.append_assoc, List.length_cons, parseMany,
        parse_pack x _ (by omega) hfit.1]
      dsimp only
      rw [parseMany_packAll xs rest (by omega) hfit.2]
theorem parseMany_packEntries : ∀ (kvs : List (Value × Value)) {fuel : Nat} (rest : Bytes),
    (packEntries kvs).length ≤ fuel → packableEntries kvs →
    parseMany (parseEntry (parse fuel)) kvs.length (packEntries kvs ++ rest) = some (kvs, rest)
  | [], _, _, _, _ => rfl
  | (k, v) :: kvs, _, rest, hfuel, hfit => by
      simp only [packEntries, List.length_append] at hfuel
      simp only [packableEntries, Bool.and_eq_true] at hfit
      rw [packEntries, List.append_assoc, List.length_cons, parseMany, parseEntry,
        parse_pack k _ (by omega) hfit.1.1, List.append_assoc]
      dsimp only
      rw [parse_pack v _ (by omega) hfit.1.2]
      dsimp only
      rw [parseMany_packEntries kvs rest (by omega) hfit.2]
end

end Dafeng.Msgpack
