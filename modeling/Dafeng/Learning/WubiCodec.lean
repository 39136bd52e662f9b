import Dafeng.Learning.Characters
import Dafeng.Library.Containers
import Dafeng.Library.Lines

/-!
# Dafeng.Learning.WubiCodec

The wubi 86 phrase encoder (`src/daemon/wubi_codec.cc`): the longest code of each
character in a dictionary file, and the code of a phrase that is put together
from those of its characters.
-/

namespace Dafeng.Learning

open Dafeng.Utf8

def tab : UInt8 := 0x09

def lineFeed : UInt8 := 0x0A

def hash : UInt8 := 0x23

namespace WubiCodec

/-! ### The scanner -/

/-- `Utf8Len` of the encoder, which does not look at the bytes behind the first. -/
def utf8Len (s : Bytes) (pos : Nat) : Nat :=
  match s[pos]? with
  | none => 0
  | some c => if s.length < pos + needed c then 0 else needed c

/-- The loop of `SplitUtf8Chars`. Each turn moves on. -/
def splitFrom (s : Bytes) : Nat → Nat → List Bytes
  | 0, _ => []
  | fuel + 1, i =>
    if i < s.length then
      let n := utf8Len s i
      if n = 0 then [] else (s.drop i).take n :: splitFrom s fuel (i + n)
    else []

/-- `SplitUtf8Chars`. -/
def splitUtf8Chars (s : Bytes) : List Bytes := splitFrom s s.length 0

theorem splitFrom_encodeText (front : Bytes) (cs : List Char) {fuel : Nat}
    (h : (encodeText cs).length ≤ fuel) :
    splitFrom (front ++ encodeText cs) fuel front.length = cs.map encodeChar := by
  induction cs generalizing front fuel with
  | nil => cases fuel <;> simp [splitFrom]
  | cons c cs ih =>
      obtain ⟨b, conts, hc, hlen, -⟩ := encodeChar_shape c
      have hpos := List.length_pos_of_ne_nil (encodeChar_ne_nil c)
      have hfirst : utf8Len (front ++ (encodeChar c ++ encodeText cs)) front.length =
          (encodeChar c).length := by
        have hget : (front ++ (encodeChar c ++ encodeText cs))[front.length]? = some b := by
          rw [hc]
          simp
        rw [utf8Len, hget]
        dsimp only
        rw [needed_eq_leadLength, hlen, hc, if_neg (by simp), List.length_cons]
      rw [encodeText_cons] at h ⊢
      rw [List.length_append] at h
      cases fuel with
      | zero => omega
      | succ fuel =>
          have hrest := ih (front ++ encodeChar c) (show (encodeText cs).length ≤ fuel by omega)
          rw [List.length_append, List.append_assoc] at hrest
          rw [splitFrom, if_pos (by rw [List.length_append, List.length_append]; omega)]
          dsimp only
          rw [hfirst, if_neg (by omega), hrest, List.drop_left, List.take_left, List.map_cons]

/-- The encoder cuts a well-formed text into its characters. -/
theorem splitUtf8Chars_encodeText (cs : List Char) :
    splitUtf8Chars (encodeText cs) = cs.map encodeChar :=
  splitFrom_encodeText [] cs (Nat.le_refl _)

/-! ### The dictionary -/

/-- The text and the code of a line; a third column is left out. -/
def dictRow (line : Bytes) : Option (Bytes × Bytes) :=
  match line.splitOn tab with
  | text :: code :: _ => if text = [] ∨ code = [] then none else some (text, code)
  | _ => none

/-- The variables of the loop over the lines. -/
structure Loading where
  pastHeader : Bool := false
  codes : Table Bytes Bytes := ∅

/-- A line of the file. Only an entry of one character gives a code. -/
def Loading.line (st : Loading) (line : Bytes) : Loading :=
  if line = [] ∨ line.head? = some hash then st
  else if !st.pastHeader && !line.contains tab then st
  else
    match dictRow line with
    | none => { st with pastHeader := true }
    | some (text, code) =>
      match splitUtf8Chars text with
      | [ch] => { pastHeader := true, codes := st.codes.modify ch [] (longer · code) }
      | _ => { st with pastHeader := true }

end WubiCodec

/-- `WubiCodec`. -/
structure WubiCodec where
  charToFullCode : Table Bytes Bytes := ∅

namespace WubiCodec

/-- `LoadFromDict`, on the contents of the file; `none` is a file that cannot be
opened. -/
def loadFromDict : Option Bytes → Bool × WubiCodec
  | none => (false, {})
  | some contents => (true, ⟨((getlines lineFeed contents).foldl Loading.line {}).codes⟩)

/-- How the codes of its characters make the code of a phrase. -/
def phraseCode : List Bytes → Bytes
  | [a, b] => a.take 2 ++ b.take 2
  | [a, b, c] => a.take 1 ++ b.take 1 ++ c.take 2
  | a :: b :: c :: d :: rest =>
    a.take 1 ++ b.take 1 ++ c.take 1 ++ ((d :: rest).getLast (by simp)).take 1
  | _ => []

/-- The code of a character, if it is known. -/
def knownCode (codec : WubiCodec) (ch : Bytes) : Option Bytes :=
  (codec.charToFullCode.lookup ch).bind fun code => if code = [] then none else some code

/-- `EncodePhrase`. -/
def encodePhrase (codec : WubiCodec) (phrase : Bytes) : Bytes :=
  let chars := splitUtf8Chars phrase
  if chars.length < 2 then []
  else
    match chars.mapM codec.knownCode with
    | none => []
    | some codes => phraseCode codes

/-! ### What the dictionary says -/

/-- The rows of a dictionary file: its lines with a text and a code, and not the
comments. -/
def dictRows (contents : Bytes) : List (Bytes × Bytes) :=
  ((getlines lineFeed contents).filter fun line => line.head? ≠ some hash).filterMap dictRow

/-- The codes of a character. -/
def codesOf (rows : List (Bytes × Bytes)) (c : Char) : List Bytes :=
  (rows.filter fun row => row.1 = encodeChar c).map Prod.snd

/-- Its longest code; of several the first. -/
def longestCode (rows : List (Bytes × Bytes)) (c : Char) : Option Bytes :=
  (codesOf rows c).argmax List.length

/-- What a row counts for. -/
def charCode (row : Bytes × Bytes) : Option (Bytes × Bytes) :=
  match splitUtf8Chars row.1 with
  | [ch] => some (ch, row.2)
  | _ => none

/-- The header is passed over for its lack of tabs alone. -/
theorem Loading.line_codes (st : Loading) (line : Bytes) : (st.line line).codes =
    ((if line.head? ≠ some hash then dictRow line else none).bind charCode).elim st.codes
      fun p => st.codes.modify p.1 [] (longer · p.2) := by
  unfold Loading.line
  by_cases hskip : line = [] ∨ line.head? = some hash
  · rw [if_pos hskip]
    rcases hskip with rfl | hhash
    · rfl
    · rw [if_neg (not_not.mpr hhash)]
      rfl
  · rw [if_neg hskip, if_pos (not_or.mp hskip).2]
    split_ifs with hheader
    · have hnone : dictRow line = none := by
        rw [dictRow, List.splitOn_eq_singleton (by simpa using (Bool.and_eq_true_iff.mp hheader).2)]
      rw [hnone]
      rfl
    · cases hrow : dictRow line with
      | none => rfl
      | some row =>
          obtain ⟨text, code⟩ := row
          dsimp only [Option.bind_some, charCode]
          split <;> rfl

/-- The table of a dictionary counts its rows of one character. -/
theorem loadFromDict_codes (contents : Bytes) :
    (loadFromDict (some contents)).2.charToFullCode =
      Table.tally Prod.fst [] (fun cur p => longer cur p.2) ∅
        ((dictRows contents).filterMap charCode) := by
  have hfold : ∀ (lines : List Bytes) (st : Loading),
      (lines.foldl Loading.line st).codes =
        Table.tally Prod.fst [] (fun cur p => longer cur p.2) st.codes
          (((lines.filter fun line => line.head? ≠ some hash).filterMap dictRow).filterMap
            charCode) := by
    intro lines
    induction lines with
    | nil => exact fun _ => rfl
    | cons line lines ih =>
        intro st
        rw [List.foldl_cons, ih, Loading.line_codes]
        by_cases hhash : line.head? = some hash
        · rw [if_neg (not_not.mpr hhash), List.filter_cons_of_neg (by simpa using hhash)]
          rfl
        · rw [if_pos hhash, List.filter_cons_of_pos (by simpa using hhash)]
          cases hrow : dictRow line with
          | none =>
              rw [List.filterMap_cons_none hrow]
              rfl
          | some row =>
              rw [List.filterMap_cons_some hrow, Option.bind_some]
              cases hcode : charCode row with
              | none =>
                  rw [List.filterMap_cons_none hcode]
                  rfl
              | some p =>
                  rw [List.filterMap_cons_some hcode]
                  rfl
  exact hfold _ {}

theorem dictRow_ne_nil {line : Bytes} {row : Bytes × Bytes} (h : dictRow line = some row) :
    row.1 ≠ [] ∧ row.2 ≠ [] := by
  unfold dictRow at h
  split at h
  · split_ifs at h with hnil
    obtain rfl := Option.some.inj h
    exact not_or.mp hnil
  · cases h

theorem mem_dictRows {contents : Bytes} {row : Bytes × Bytes} (h : row ∈ dictRows contents) :
    (row.1 ≠ [] ∧ row.2 ≠ []) ∧ tab ∉ row.2 ∧ lineFeed ∉ row.2 := by
  obtain ⟨line, hline, hrow⟩ := List.mem_filterMap.mp h
  refine ⟨dictRow_ne_nil hrow, ?_⟩
  have hlf := not_mem_of_mem_getlines (List.mem_filter.mp hline).1
  unfold dictRow at hrow
  split at hrow
  · next text code rest hsplit =>
      split_ifs at hrow
      obtain rfl := Option.some.inj hrow
      have hcode : code ∈ line.splitOn tab := by simp [hsplit]
      exact ⟨not_mem_of_mem_splitOn hcode, fun hmem => hlf (mem_of_mem_splitOn hcode hmem)⟩
  · cases hrow

theorem mem_codesOf {contents : Bytes} {c : Char} {code : Bytes}
    (h : code ∈ codesOf (dictRows contents) c) : code ≠ [] ∧ tab ∉ code ∧ lineFeed ∉ code := by
  obtain ⟨row, hrow, rfl⟩ := List.mem_map.mp h
  obtain ⟨⟨-, hne⟩, hplain⟩ := mem_dictRows (List.mem_filter.mp hrow).1
  exact ⟨hne, hplain⟩

theorem of_mem_charCode {contents : Bytes} {pair : Bytes × Bytes}
    (h : pair ∈ (dictRows contents).filterMap charCode) :
    ∃ row ∈ dictRows contents, row.2 = pair.2 := by
  obtain ⟨row, hrow, hchar⟩ := List.mem_filterMap.mp h
  refine ⟨row, hrow, ?_⟩
  unfold charCode at hchar
  split at hchar
  · obtain rfl := Option.some.inj hchar
    rfl
  · cases hchar

/-- Loading keeps the longest code of each key. -/
theorem knownCode_eq (contents ch : Bytes) : (loadFromDict (some contents)).2.knownCode ch =
    ((((dictRows contents).filterMap charCode).filter fun p => p.1 = ch).map Prod.snd).argmax
      List.length := by
  rw [knownCode, loadFromDict_codes, Table.lookup_tally]
  split_ifs with hnil
  · rw [hnil]
    rfl
  · have hfold : ∀ (ps : List (Bytes × Bytes)) (cur : Bytes),
        ps.foldl (fun cur p => longer cur p.2) cur = (ps.map Prod.snd).foldl longer cur :=
      fun ps cur => List.foldl_map.symm
    have hempty : ((∅ : Table Bytes Bytes).lookup ch).getD [] = [] := rfl
    rw [Option.bind_some, hempty, hfold, foldl_longer]
    cases hmax : List.argmax List.length _ with
    | none =>
        rw [List.argmax_eq_none, List.map_eq_nil_iff] at hmax
        exact absurd hmax hnil
    | some code =>
        obtain ⟨pair, hpair, rfl⟩ := List.mem_map.mp (List.argmax_mem hmax)
        obtain ⟨row, hrow, heq⟩ := of_mem_charCode (List.mem_filter.mp hpair).1
        exact if_neg (heq ▸ (mem_dictRows hrow).1.2)

/-- The keys of a phrase are keys of its characters. -/
theorem mem_phraseCode {codes : List Bytes} {x : UInt8} (h : x ∈ phraseCode codes) :
    ∃ code ∈ codes, x ∈ code := by
  unfold phraseCode at h
  split at h
  · rcases List.mem_append.mp h with h | h
    all_goals exact ⟨_, by simp, List.mem_of_mem_take h⟩
  · rcases List.mem_append.mp h with h | h
    · rcases List.mem_append.mp h with h | h
      all_goals exact ⟨_, by simp, List.mem_of_mem_take h⟩
    · exact ⟨_, by simp, List.mem_of_mem_take h⟩
  · next a b c d rest =>
      rcases List.mem_append.mp h with h | h
      · rcases List.mem_append.mp h with h | h
        · rcases List.mem_append.mp h with h | h
          all_goals exact ⟨_, by simp, List.mem_of_mem_take h⟩
        · exact ⟨_, by simp, List.mem_of_mem_take h⟩
      · refine ⟨_, ?_, List.mem_of_mem_take h⟩
        have hlast : (d :: rest).getLast (by simp) ∈ d :: rest := List.getLast_mem (by simp)
        simp only [List.mem_cons] at hlast ⊢
        exact .inr (.inr (.inr hlast))
  · cases h

theorem lineFeed_not_mem_encodePhrase (contents phrase : Bytes) :
    lineFeed ∉ (loadFromDict (some contents)).2.encodePhrase phrase := by
  intro hmem
  unfold encodePhrase at hmem
  dsimp only at hmem
  split_ifs at hmem
  · cases hmem
  · split at hmem
    · cases hmem
    · next codes hcodes =>
        obtain ⟨code, hcode, hlf⟩ := mem_phraseCode hmem
        obtain ⟨ch, -, hknown⟩ := (of_mapM_eq_some hcodes).2 code hcode
        rw [knownCode_eq] at hknown
        obtain ⟨pair, hpair, rfl⟩ := List.mem_map.mp (List.argmax_mem hknown)
        obtain ⟨row, hrow, heq⟩ := of_mem_charCode (List.mem_filter.mp hpair).1
        exact (mem_dictRows hrow).2.2 (heq ▸ hlf)

/-- Among rows of well-formed texts, those that count for a character are those with
its text. -/
theorem filter_charCode {rows : List (Bytes × Bytes)}
    (hrows : ∀ row ∈ rows, ∃ cs, row.1 = encodeText cs) (c : Char) :
    ((rows.filterMap charCode).filter fun p => p.1 = encodeChar c).map Prod.snd =
      codesOf rows c := by
  induction rows with
  | nil => rfl
  | cons row rows ih =>
      obtain ⟨⟨cs, hcs⟩, hrest⟩ := List.forall_mem_cons.mp hrows
      have ih := ih hrest
      rw [codesOf] at ih ⊢
      obtain ⟨text, code⟩ := row
      obtain rfl : text = encodeText cs := hcs
      have hsplit := splitUtf8Chars_encodeText cs
      have hone : encodeText cs = encodeChar c → cs = [c] := by
        have htext : encodeText [c] = encodeChar c := by simp
        rw [← htext]
        exact encodeText_injective
      match cs with
      | [d] =>
          have hcode : charCode (encodeText [d], code) = some (encodeText [d], code) := by
            rw [charCode, hsplit]
            simp
          rw [List.filterMap_cons_some hcode, List.filter_cons, List.filter_cons]
          split_ifs
          · rw [List.map_cons, List.map_cons, ih]
          · exact ih
      | [] =>
          have hcode : charCode (encodeText [], code) = none := by
            rw [charCode, hsplit]
            rfl
          have hne : ¬ encodeText [] = encodeChar c := fun h => by simpa using hone h
          rw [List.filterMap_cons_none hcode,
            List.filter_cons_of_neg (by simpa only [decide_eq_true_eq] using hne), ih]
      | d :: e :: cs =>
          have hcode : charCode (encodeText (d :: e :: cs), code) = none := by
            rw [charCode, hsplit]
            rfl
          have hne : ¬ encodeText (d :: e :: cs) = encodeChar c := fun h => by simpa using hone h
          rw [List.filterMap_cons_none hcode,
            List.filter_cons_of_neg (by simpa only [decide_eq_true_eq] using hne), ih]

section Encode

variable {contents : Bytes} (hrows : ∀ row ∈ dictRows contents, ∃ cs, row.1 = encodeText cs)
include hrows

theorem knownCode_encodeChar (c : Char) :
    (loadFromDict (some contents)).2.knownCode (encodeChar c) =
      longestCode (dictRows contents) c := by
  rw [knownCode_eq, filter_charCode hrows]
  rfl

/-- The code of a phrase, where all its characters have one. -/
theorem encodePhrase_encodeText {gram : List Char} (hlen : 2 ≤ gram.length) :
    (loadFromDict (some contents)).2.encodePhrase (encodeText gram) =
      ((gram.mapM (longestCode (dictRows contents))).map phraseCode).getD [] := by
  have hcodes : (gram.map encodeChar).mapM (loadFromDict (some contents)).2.knownCode =
      gram.mapM (longestCode (dictRows contents)) := by
    rw [List.mapM_map]
    exact congrArg (gram.mapM ·) (funext fun c => knownCode_encodeChar hrows c)
  rw [encodePhrase, splitUtf8Chars_encodeText, List.length_map, if_neg (by omega), hcodes]
  cases gram.mapM (longestCode (dictRows contents)) <;> rfl

end Encode

end WubiCodec

end Dafeng.Learning
