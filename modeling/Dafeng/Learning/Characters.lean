import Dafeng.Library.Utf8

/-!
# Dafeng.Learning.Characters

The scanner of `ngram.cc` and its copy in `new_word.cc`: how both cut a committed
text into characters, for any bytes and for well-formed UTF-8.
-/

namespace Dafeng.Learning

open Dafeng.Utf8

/-! ### The scanner -/

/-- How many bytes the first byte of a character announces; 0 if it is none. -/
def needed (c : UInt8) : Nat :=
  if c &&& 0x80 = 0 then 1
  else if c &&& 0xE0 = 0xC0 then 2
  else if c &&& 0xF0 = 0xE0 then 3
  else if c &&& 0xF8 = 0xF0 then 4
  else 0

/-- `Utf8Len`: the bytes of the next character, or 0 on invalid input. -/
def utf8Len (s : Bytes) (pos : Nat) : Nat :=
  match s[pos]? with
  | none => 0
  | some c =>
    if s.length < pos + needed c then 0
    else if ((s.drop (pos + 1)).take (needed c - 1)).all fun cc => cc &&& 0xC0 == 0x80 then needed c
    else 0

/-- The loop over a text: the offset and the length of every character, until
`Utf8Len` finds none. Each turn moves on, so the length of the text is enough
fuel. -/
def scanFrom (s : Bytes) : Nat → Nat → List (Nat × Nat)
  | 0, _ => []
  | fuel + 1, i =>
    if i < s.length then
      let n := utf8Len s i
      if n = 0 then [] else (i, n) :: scanFrom s fuel (i + n)
    else []

def scan (s : Bytes) : List (Nat × Nat) := scanFrom s s.length 0

/-- The characters that the loop of `UpdateBigramsFromHistory` visits. -/
def characters (s : Bytes) : List Bytes := (scan s).map fun p => (s.drop p.1).take p.2

/-- `CharOffsets`. -/
def charOffsets (s : Bytes) : List Nat := (scan s).map Prod.fst

/-- The texts that `entry_to_tokens` cuts out: from an offset to the next one, and
from the last one to the end of the text. -/
def tokenTexts (s : Bytes) : List Bytes :=
  let offs := charOffsets s
  offs.zipWith (fun i stop => (s.drop i).take (stop - i)) (offs.tail ++ [s.length])

/-! ### Any bytes -/

theorem needed_le (c : UInt8) : needed c ≤ 4 := by
  unfold needed
  split_ifs <;> omega

theorem utf8Len_le (s : Bytes) (pos : Nat) :
    utf8Len s pos ≤ 4 ∧ pos + utf8Len s pos ≤ max pos s.length := by
  unfold utf8Len
  cases s[pos]? with
  | none => exact ⟨Nat.zero_le _, Nat.le_max_left _ _⟩
  | some c =>
      have := needed_le c
      dsimp only
      split_ifs <;> omega

theorem scanFrom_bounds {s : Bytes} {fuel i : Nat} {p : Nat × Nat} (h : p ∈ scanFrom s fuel i) :
    0 < p.2 ∧ p.2 ≤ 4 ∧ p.1 + p.2 ≤ s.length := by
  induction fuel generalizing i with
  | zero => simp [scanFrom] at h
  | succ fuel ih =>
      rw [scanFrom] at h
      split_ifs at h with hi
      · dsimp only at h
        split_ifs at h with hn
        · simp at h
        · rcases List.mem_cons.mp h with rfl | h
          · obtain ⟨hfour, hend⟩ := utf8Len_le s i
            dsimp only
            omega
          · exact ih h
      · simp at h

/-- A character has one to four bytes. -/
theorem length_of_mem_characters {s ch : Bytes} (h : ch ∈ characters s) :
    0 < ch.length ∧ ch.length ≤ 4 := by
  obtain ⟨p, hp, rfl⟩ := List.mem_map.mp h
  obtain ⟨hpos, hfour, hend⟩ := scanFrom_bounds hp
  simp only [List.length_take, List.length_drop]
  omega

/-! ### Characters and what is left -/

/-- The bytes of one character, as `Utf8Len` recognises it. -/
def IsCharacter (c : Bytes) : Prop := c ≠ [] ∧ utf8Len c 0 = c.length

/-- A byte that goes on with a character. -/
def continues (b : UInt8) : Bool := b &&& 0xC0 == 0x80

theorem utf8Len_cons (b : UInt8) (s : Bytes) : utf8Len (b :: s) 0 =
    if s.length + 1 < needed b then 0
    else if (s.take (needed b - 1)).all continues then needed b else 0 := by
  rw [utf8Len, List.getElem?_cons_zero]
  dsimp only
  rw [Nat.zero_add]
  rfl

/-- Only what begins at a position counts there. -/
theorem utf8Len_append (front s : Bytes) : utf8Len (front ++ s) front.length = utf8Len s 0 := by
  cases s with
  | nil => simp [utf8Len]
  | cons b s =>
      have hdrop : (front ++ b :: s).drop (front.length + 1) = s := by
        rw [← List.drop_drop, List.drop_left]
        rfl
      have hlong : (front ++ b :: s).length < front.length + needed b ↔
          s.length + 1 < needed b := by
        rw [List.length_append, List.length_cons]
        omega
      rw [utf8Len_cons, utf8Len, List.getElem?_append_right (Nat.le_refl _), Nat.sub_self,
        List.getElem?_cons_zero]
      dsimp only
      rw [hdrop]
      simp only [hlong]
      rfl

theorem needed_ascii {b : UInt8} (h : b < 0x80) : needed b = 1 := by
  have hall : ∀ n : Fin 128, needed (UInt8.ofNat n) = 1 := by decide
  have hlt : b.toNat < 128 := UInt8.lt_iff_toNat_lt.mp h
  simpa using hall ⟨b.toNat, hlt⟩

/-- The first byte of a character goes on with none. -/
theorem continues_eq_false {b : UInt8} (h : needed b ≠ 0) : continues b = false := by
  have hall : ∀ n : Fin 256, needed (UInt8.ofNat n) ≠ 0 → continues (UInt8.ofNat n) = false := by
    decide +kernel
  have hb := hall ⟨b.toNat, b.toNat_lt⟩
  simp only [UInt8.ofNat_toNat] at hb
  exact hb h

theorem isCharacter_cons {b : UInt8} {conts : Bytes} : IsCharacter (b :: conts) ↔
    needed b = conts.length + 1 ∧ conts.all continues = true := by
  rw [IsCharacter, utf8Len_cons, List.length_cons]
  constructor
  · rintro ⟨-, hlen⟩
    split_ifs at hlen with hlong hconts
    rw [hlen, Nat.add_sub_cancel, List.take_length] at hconts
    exact ⟨hlen, hconts⟩
  · rintro ⟨hlen, hconts⟩
    rw [hlen, if_neg (Nat.lt_irrefl _), Nat.add_sub_cancel, List.take_length, if_pos hconts]
    exact ⟨by simp, rfl⟩

/-- What comes behind a character does not change it. -/
theorem IsCharacter.utf8Len_append {c : Bytes} (h : IsCharacter c) (s : Bytes) :
    utf8Len (c ++ s) 0 = c.length := by
  cases c with
  | nil => exact absurd rfl h.1
  | cons b conts =>
      obtain ⟨hlen, hconts⟩ := isCharacter_cons.mp h
      rw [List.cons_append, utf8Len_cons, hlen, if_neg (by simp), Nat.add_sub_cancel,
        List.take_left, if_pos hconts]
      rfl

/-- What `Utf8Len` finds is a character. -/
theorem isCharacter_take {s : Bytes} (h : utf8Len s 0 ≠ 0) :
    IsCharacter (s.take (utf8Len s 0)) := by
  cases s with
  | nil => exact absurd rfl h
  | cons b s =>
      rw [utf8Len_cons] at h ⊢
      split_ifs at h ⊢ with hlong hconts
      · exact absurd rfl h
      · obtain ⟨n, hn⟩ := Nat.exists_eq_succ_of_ne_zero h
        rw [hn] at hconts hlong ⊢
        rw [List.take_succ_cons, isCharacter_cons, hn]
        refine ⟨?_, hconts⟩
        rw [List.length_take]
        omega
      · exact absurd rfl h

/-- Malformed bytes stay malformed in front of a character. -/
theorem utf8Len_malformed_append {m t : Bytes} (hm : m ≠ []) (hmalformed : utf8Len m 0 = 0)
    (ht : t = [] ∨ utf8Len t 0 ≠ 0) : utf8Len (m ++ t) 0 = 0 := by
  rcases ht with rfl | ht
  · rwa [List.append_nil]
  obtain ⟨b, conts, rfl⟩ := List.exists_cons_of_ne_nil hm
  have htne : t ≠ [] := fun hnil => ht (by rw [hnil]; rfl)
  obtain ⟨lead, t, rfl⟩ := List.exists_cons_of_ne_nil htne
  have hlead : needed lead ≠ 0 := by
    intro hzero
    rw [utf8Len_cons, hzero] at ht
    split_ifs at ht <;> exact ht rfl
  rw [utf8Len_cons] at hmalformed
  rw [List.cons_append, utf8Len_cons]
  split_ifs with hlong hconts
  · rfl
  · split_ifs at hmalformed with hshort hfine
    · -- the character would need a byte that begins the next one
      have hmem : lead ∈ (conts ++ lead :: t).take (needed b - 1) := by
        rw [List.take_append]
        refine List.mem_append_right _ ?_
        obtain ⟨n, hn⟩ : ∃ n, needed b - 1 - conts.length = n + 1 :=
          ⟨needed b - 1 - conts.length - 1, by omega⟩
        rw [hn, List.take_succ_cons]
        exact List.mem_cons_self
      have hcontinues := List.all_eq_true.mp hconts lead hmem
      rw [continues_eq_false hlead] at hcontinues
      cases hcontinues
    · exact hmalformed
    · rw [List.take_append_of_le_length (by omega)] at hconts
      exact absurd hconts hfine
  · rfl

/-- Where characters stand that follow each other from `i` on. -/
def cuts (i : Nat) : List Bytes → List (Nat × Nat)
  | [] => []
  | c :: cs => (i, c.length) :: cuts (i + c.length) cs

section

variable {chs : List Bytes} (hchs : ∀ c ∈ chs, IsCharacter c) {rest : Bytes}
  (hrest : utf8Len rest 0 = 0)
include hchs hrest

theorem scanFrom_flatten (front : Bytes) {fuel : Nat} (h : (chs.flatten ++ rest).length ≤ fuel) :
    scanFrom (front ++ (chs.flatten ++ rest)) fuel front.length = cuts front.length chs := by
  induction chs generalizing front fuel with
  | nil =>
      cases fuel with
      | zero => rfl
      | succ fuel =>
          -- the loop ends at the rest, or at the end of the text
          rw [List.flatten_nil, List.nil_append, scanFrom, utf8Len_append, hrest]
          split_ifs <;> rfl
  | cons c cs ih =>
      have hc := hchs c (by simp)
      have hpos := List.length_pos_of_ne_nil hc.1
      rw [List.flatten_cons, List.append_assoc] at h ⊢
      rw [List.length_append] at h
      cases fuel with
      | zero => omega
      | succ fuel =>
          rw [scanFrom, if_pos (by simp; omega)]
          dsimp only
          rw [utf8Len_append, hc.utf8Len_append, if_neg (by omega), cuts, ← List.append_assoc,
            ← List.length_append, ih (fun c' hc' => hchs c' (by simp [hc'])) _ (by omega)]

theorem scan_flatten : scan (chs.flatten ++ rest) = cuts 0 chs :=
  scanFrom_flatten hchs hrest [] (Nat.le_refl _)

/-- The characters are what the walk visits before it stops. -/
theorem characters_flatten : characters (chs.flatten ++ rest) = chs := by
  have hcuts : ∀ (front : Bytes) (cs : List Bytes), (cuts front.length cs).map (fun p =>
      ((front ++ (cs.flatten ++ rest)).drop p.1).take p.2) = cs := by
    intro front cs
    induction cs generalizing front with
    | nil => rfl
    | cons c cs ih =>
        have htail := ih (front ++ c)
        rw [List.length_append, List.append_assoc, ← List.append_assoc c, ← List.flatten_cons]
          at htail
        rw [cuts, List.map_cons, htail]
        dsimp only
        rw [List.drop_left, List.flatten_cons, List.append_assoc, List.take_left]
  rw [characters, scan_flatten hchs hrest]
  exact hcuts [] chs

theorem length_charOffsets_flatten : (charOffsets (chs.flatten ++ rest)).length = chs.length := by
  have hcuts : ∀ i, (cuts i chs).length = chs.length := by
    clear hchs
    induction chs with
    | nil => exact fun _ => rfl
    | cons c cs ih => exact fun i => congrArg (· + 1) (ih _)
  rw [charOffsets, List.length_map, scan_flatten hchs hrest, hcuts]

end

/-- From an offset to the next one, and from the last one to the end. -/
theorem zipWith_cuts (front : Bytes) (cs : List Bytes) (c rest : Bytes) :
    let s := front ++ ((cs ++ [c]).flatten ++ rest)
    let offs := (cuts front.length (cs ++ [c])).map Prod.fst
    offs.zipWith (fun i stop => (s.drop i).take (stop - i)) (offs.tail ++ [s.length]) =
      cs ++ [c ++ rest] := by
  dsimp only
  induction cs generalizing front with
  | nil =>
      have hall : (c ++ rest).take (c.length + rest.length) = c ++ rest :=
        List.take_of_length_le (by simp)
      simp [cuts, hall]
  | cons d cs ih =>
      have htail := ih (front ++ d)
      rw [List.length_append, List.append_assoc, ← List.append_assoc d, ← List.flatten_cons,
        ← List.cons_append] at htail
      obtain ⟨offs, hoffs⟩ : ∃ offs, (cuts (front.length + d.length) (cs ++ [c])).map Prod.fst =
          (front.length + d.length) :: offs := by
        cases cs <;> exact ⟨_, rfl⟩
      rw [hoffs, List.tail_cons] at htail
      rw [List.cons_append, cuts, List.map_cons, List.tail_cons, hoffs, List.cons_append,
        List.zipWith_cons_cons, ← List.cons_append, htail, Nat.add_sub_cancel_left,
        List.drop_left, List.cons_append, List.flatten_cons, List.append_assoc, List.take_left]
      rfl

/-- The last character takes all that is left with it. -/
theorem tokenTexts_flatten {cs : List Bytes} {c rest : Bytes}
    (hchs : ∀ d ∈ cs ++ [c], IsCharacter d) (hrest : utf8Len rest 0 = 0) :
    tokenTexts ((cs ++ [c]).flatten ++ rest) = cs ++ [c ++ rest] := by
  rw [tokenTexts, charOffsets, scan_flatten hchs hrest]
  exact zipWith_cuts [] cs c rest

/-- Every text is characters, and what is left when no other one is found. -/
theorem exists_characters (s : Bytes) : ∃ (chs : List Bytes) (rest : Bytes),
    s = chs.flatten ++ rest ∧ (∀ c ∈ chs, IsCharacter c) ∧ utf8Len rest 0 = 0 := by
  induction hlen : s.length using Nat.strong_induction_on generalizing s with
  | _ n ih =>
      by_cases hstop : utf8Len s 0 = 0
      · exact ⟨[], s, rfl, by simp, hstop⟩
      · have hc := isCharacter_take hstop
        have hle := (utf8Len_le s 0).2
        obtain ⟨chs, rest, hs, hchs, hrest⟩ :=
          ih (s.drop (utf8Len s 0)).length (by rw [List.length_drop]; omega) _ rfl
        refine ⟨s.take (utf8Len s 0) :: chs, rest, ?_, List.forall_mem_cons.mpr ⟨hc, hchs⟩, hrest⟩
        rw [List.flatten_cons, List.append_assoc, ← hs, List.take_append_drop]

/-- The bytes behind the last character. -/
def malformedRest (s : Bytes) : Bytes := s.drop (characters s).flatten.length

theorem malformedRest_flatten {chs : List Bytes} (hchs : ∀ c ∈ chs, IsCharacter c) {rest : Bytes}
    (hrest : utf8Len rest 0 = 0) : malformedRest (chs.flatten ++ rest) = rest := by
  rw [malformedRest, characters_flatten hchs hrest, List.drop_left]

theorem malformedRest_append {c : Bytes} (hc : IsCharacter c) (s : Bytes) :
    malformedRest (c ++ s) = malformedRest s := by
  obtain ⟨chs, rest, rfl, hchs, hrest⟩ := exists_characters s
  rw [malformedRest_flatten hchs hrest, ← List.append_assoc, ← List.flatten_cons,
    malformedRest_flatten (List.forall_mem_cons.mpr ⟨hc, hchs⟩) hrest]

theorem isCharacter_of_mem_characters {s c : Bytes} (h : c ∈ characters s) : IsCharacter c := by
  obtain ⟨chs, rest, rfl, hchs, hrest⟩ := exists_characters s
  rw [characters_flatten hchs hrest] at h
  exact hchs c h

theorem utf8Len_malformedRest (s : Bytes) : utf8Len (malformedRest s) 0 = 0 := by
  obtain ⟨chs, rest, rfl, hchs, hrest⟩ := exists_characters s
  rwa [malformedRest_flatten hchs hrest]

theorem characters_append_malformedRest (s : Bytes) :
    (characters s).flatten ++ malformedRest s = s := by
  obtain ⟨chs, rest, rfl, hchs, hrest⟩ := exists_characters s
  rw [malformedRest_flatten hchs hrest, characters_flatten hchs hrest]

theorem length_charOffsets (s : Bytes) : (charOffsets s).length = (characters s).length := by
  obtain ⟨chs, rest, rfl, hchs, hrest⟩ := exists_characters s
  rw [length_charOffsets_flatten hchs hrest, characters_flatten hchs hrest]

/-! ### Well-formed text -/

theorem needed_eq_leadLength (c : UInt8) : needed c = leadLength c := by
  have hall : ∀ n : Fin 256, needed (UInt8.ofNat n) = leadLength (UInt8.ofNat n) := by
    decide +kernel
  have := hall ⟨c.toNat, c.toNat_lt⟩
  simpa using this

theorem isCharacter_encodeChar (c : Char) : IsCharacter (encodeChar c) := by
  obtain ⟨b, conts, hc, hlen, hconts⟩ := encodeChar_shape c
  rw [hc, isCharacter_cons, needed_eq_leadLength]
  refine ⟨hlen, List.all_eq_true.mpr fun x hx => ?_⟩
  exact beq_iff_eq.mpr ((and_mask_eq_iff _).mpr (hconts x hx))

theorem isCharacter_of_mem_encode (cs : List Char) : ∀ c ∈ cs.map encodeChar, IsCharacter c := by
  intro c hc
  obtain ⟨c, -, rfl⟩ := List.mem_map.mp hc
  exact isCharacter_encodeChar c

theorem encodeText_eq_flatten (cs : List Char) :
    encodeText cs = (cs.map encodeChar).flatten ++ [] := by
  rw [List.append_nil, ← List.flatMap_def]
  rfl

/-- Where the characters of a text stand when it begins at `i`. -/
def places (i : Nat) : List Char → List (Nat × Nat)
  | [] => []
  | c :: cs => (i, (encodeChar c).length) :: places (i + (encodeChar c).length) cs

theorem cuts_map_encodeChar (i : Nat) (cs : List Char) :
    cuts i (cs.map encodeChar) = places i cs := by
  induction cs generalizing i with
  | nil => rfl
  | cons c cs ih => rw [List.map_cons, cuts, ih, places]

theorem scan_encodeText (cs : List Char) : scan (encodeText cs) = places 0 cs := by
  rw [encodeText_eq_flatten, scan_flatten (isCharacter_of_mem_encode cs) rfl, cuts_map_encodeChar]

/-- `UpdateBigramsFromHistory` visits the characters of a well-formed text. -/
theorem characters_encodeText (cs : List Char) :
    characters (encodeText cs) = cs.map encodeChar := by
  rw [encodeText_eq_flatten, characters_flatten (isCharacter_of_mem_encode cs) rfl]

theorem charOffsets_length (cs : List Char) : (charOffsets (encodeText cs)).length = cs.length := by
  rw [length_charOffsets, characters_encodeText, List.length_map]

/-- `entry_to_tokens` cuts out the characters of a well-formed text. -/
theorem tokenTexts_encodeText (cs : List Char) :
    tokenTexts (encodeText cs) = cs.map encodeChar := by
  rcases List.eq_nil_or_concat' cs with rfl | ⟨front, last, rfl⟩
  · rfl
  · have hmap : (front ++ [last]).map encodeChar = front.map encodeChar ++ [encodeChar last] := by
      simp
    have hchs := isCharacter_of_mem_encode (front ++ [last])
    rw [hmap] at hchs
    rw [encodeText_eq_flatten, hmap, tokenTexts_flatten hchs rfl, List.append_nil]

end Dafeng.Learning
