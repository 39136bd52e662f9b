import Dafeng.Learning.WordShape
import Dafeng.Learning.WubiCodec

/-!
# Dafeng.Learning.Walkers

The three copies of the scanner side by side. `ngram.cc` and `new_word.cc` check the
bytes that a lead byte announces; `wubi_codec.cc` only counts them.
-/

namespace Dafeng.Learning

open Dafeng.Utf8

/-! ### The walk of the encoder -/

namespace WubiCodec

theorem utf8Len_cons (b : UInt8) (s : Bytes) :
    utf8Len (b :: s) 0 = if s.length + 1 < needed b then 0 else needed b := by
  rw [utf8Len, List.getElem?_cons_zero]
  dsimp only
  rw [Nat.zero_add]
  rfl

/-- Only what begins at a position counts there. -/
theorem utf8Len_append (front s : Bytes) : utf8Len (front ++ s) front.length = utf8Len s 0 := by
  cases s with
  | nil => simp [utf8Len]
  | cons b s =>
      have hlong : (front ++ b :: s).length < front.length + needed b ↔
          s.length + 1 < needed b := by
        rw [List.length_append, List.length_cons]
        omega
      rw [utf8Len_cons, utf8Len, List.getElem?_append_right (Nat.le_refl _), Nat.sub_self,
        List.getElem?_cons_zero]
      dsimp only
      simp only [hlong]

theorem utf8Len_le_length (s : Bytes) : utf8Len s 0 ≤ s.length := by
  cases s with
  | nil => exact Nat.zero_le _
  | cons b s =>
      rw [utf8Len_cons, List.length_cons]
      split <;> omega

/-- One turn of the loop, which goes on behind the bytes that were counted. -/
theorem splitFrom_turn (front s : Bytes) (fuel : Nat) :
    splitFrom (front ++ s) (fuel + 1) front.length =
      if utf8Len s 0 = 0 then []
      else s.take (utf8Len s 0) ::
        splitFrom ((front ++ s.take (utf8Len s 0)) ++ s.drop (utf8Len s 0)) fuel
          (front ++ s.take (utf8Len s 0)).length := by
  have hle := utf8Len_le_length s
  rw [splitFrom]
  dsimp only
  rw [utf8Len_append, List.drop_left, List.append_assoc, List.take_append_drop, List.length_append,
    List.length_append, List.length_take, Nat.min_eq_left hle]
  split_ifs with hin hstop hstop
  · rfl
  · rfl
  · rfl
  · omega

/-- The loop takes no notice of what it has passed, nor of fuel to spare. -/
theorem splitFrom_append (front s : Bytes) {fuel : Nat} (h : s.length ≤ fuel) :
    splitFrom (front ++ s) fuel front.length = splitUtf8Chars s := by
  induction hlen : s.length using Nat.strong_induction_on generalizing front s fuel with
  | _ n ih =>
      cases n with
      | zero =>
          obtain rfl := List.length_eq_zero_iff.mp hlen
          cases fuel <;> simp [splitFrom, splitUtf8Chars]
      | succ n =>
          obtain ⟨fuel, rfl⟩ := Nat.exists_eq_add_one_of_ne_zero (show fuel ≠ 0 by omega)
          have hself := splitFrom_turn [] s n
          rw [List.nil_append, ← hlen] at hself
          rw [splitFrom_turn, splitUtf8Chars]
          refine Eq.trans ?_ hself.symm
          split_ifs with hstop
          · rfl
          · have hrest : (s.drop (utf8Len s 0)).length < n + 1 := by
              rw [List.length_drop]
              omega
            rw [ih _ hrest _ _ (by omega) rfl, ih _ hrest _ _ (by omega) rfl]

theorem splitUtf8Chars_eq (s : Bytes) : splitUtf8Chars s =
    if utf8Len s 0 = 0 then []
    else s.take (utf8Len s 0) :: splitUtf8Chars (s.drop (utf8Len s 0)) := by
  have hself : splitFrom ([] ++ s) (s.length + 1) [].length = splitUtf8Chars s :=
    splitFrom_append [] s (Nat.le_succ _)
  rw [← hself, splitFrom_turn, splitFrom_append _ _ (by rw [List.length_drop]; omega)]

/-- The encoder takes every character for one. -/
theorem splitUtf8Chars_append {c : Bytes} (hc : IsCharacter c) (s : Bytes) :
    splitUtf8Chars (c ++ s) = c :: splitUtf8Chars s := by
  have hlen : utf8Len (c ++ s) 0 = c.length := by
    obtain ⟨b, conts, rfl⟩ := List.exists_cons_of_ne_nil hc.1
    obtain ⟨hneeded, -⟩ := isCharacter_cons.mp hc
    rw [List.cons_append, utf8Len_cons, hneeded, List.length_append, if_neg (by omega),
      List.length_cons]
  have hpos := List.length_pos_of_ne_nil hc.1
  rw [splitUtf8Chars_eq, hlen, if_neg (by omega), List.take_left, List.drop_left]

theorem splitUtf8Chars_flatten {chs : List Bytes} (hchs : ∀ c ∈ chs, IsCharacter c)
    (rest : Bytes) : splitUtf8Chars (chs.flatten ++ rest) = chs ++ splitUtf8Chars rest := by
  induction chs with
  | nil => rfl
  | cons c cs ih =>
      obtain ⟨hc, hcs⟩ := List.forall_mem_cons.mp hchs
      rw [List.flatten_cons, List.append_assoc, splitUtf8Chars_append hc, ih hcs,
        List.cons_append]

theorem splitUtf8Chars_eq_nil {s : Bytes} : splitUtf8Chars s = [] ↔ utf8Len s 0 = 0 := by
  rw [splitUtf8Chars_eq]
  split_ifs with hstop <;> simp [hstop]

end WubiCodec

/-! ### Where the walks part -/

/-- Behind characters stands a byte that announces more bytes, these are all there, and
one of them does not go on with a character. -/
def Overreads (s : Bytes) : Prop :=
  ∃ (chs : List Bytes) (lead : UInt8) (conts rest : Bytes), (∀ c ∈ chs, IsCharacter c) ∧
    s = chs.flatten ++ (lead :: conts ++ rest) ∧ needed lead = conts.length + 1 ∧
    ∃ b ∈ conts, continues b = false

/-- The encoder counts a character where the scanner stops. -/
theorem overreads_flatten {chs : List Bytes} (hchs : ∀ c ∈ chs, IsCharacter c) {rest : Bytes}
    (hrest : utf8Len rest 0 = 0) :
    Overreads (chs.flatten ++ rest) ↔ WubiCodec.utf8Len rest 0 ≠ 0 := by
  constructor
  · rintro ⟨chs', lead, conts, rest', hchs', heq, hneeded, b, hb, hbad⟩
    have hstop : utf8Len (lead :: conts ++ rest') 0 = 0 := by
      rw [List.cons_append, utf8Len_cons, hneeded, Nat.add_sub_cancel, List.take_left]
      split_ifs with hlong hconts
      · rfl
      · rw [List.all_eq_true.mp hconts b hb] at hbad
        cases hbad
      · rfl
    -- both cut the text at the same place
    have hsame := congrArg malformedRest heq
    rw [malformedRest_flatten hchs hrest, malformedRest_flatten hchs' hstop] at hsame
    rw [hsame, List.cons_append, WubiCodec.utf8Len_cons, hneeded, List.length_append,
      if_neg (by omega)]
    omega
  · intro hcount
    obtain ⟨lead, t, rfl⟩ :=
      List.exists_cons_of_ne_nil fun hnil : rest = [] => hcount (by rw [hnil]; rfl)
    rw [WubiCodec.utf8Len_cons] at hcount
    split_ifs at hcount with hlong
    · exact absurd rfl hcount
    rw [utf8Len_cons, if_neg hlong] at hrest
    split_ifs at hrest with hconts
    · exact absurd hrest hcount
    obtain ⟨b, hb, hbad⟩ := List.all_eq_false.mp (Bool.not_eq_true _ ▸ hconts)
    refine ⟨chs, lead, t.take (needed lead - 1), t.drop (needed lead - 1), hchs, ?_, ?_, b, hb,
      by simpa using hbad⟩
    · rw [List.cons_append, List.take_append_drop]
    · rw [List.length_take]
      omega

theorem overreads_iff (s : Bytes) :
    Overreads s ↔ WubiCodec.utf8Len (malformedRest s) 0 ≠ 0 := by
  obtain ⟨chs, rest, rfl, hchs, hrest⟩ := exists_characters s
  rw [malformedRest_flatten hchs hrest, overreads_flatten hchs hrest]

instance (s : Bytes) : Decidable (Overreads s) := decidable_of_iff' _ (overreads_iff s)

example : Overreads [0xE6, 0x41, 0x42] ∧ ¬ Overreads [0xE6, 0x41] := by decide

/-- The walks over a text: the offsets are those of the characters that the counting of
bigrams visits, the encoder cuts out the same, they are the first bytes of the text, and
all of a well-formed one. -/
structure WalkersAgree (s : Bytes) : Prop where
  offsets : charOffsets s = (cuts 0 (characters s)).map Prod.fst
  split : WubiCodec.splitUtf8Chars s = characters s
  isPrefix : (characters s).flatten <+: s
  whole : ∀ cs, s = encodeText cs →
    characters s = cs.map encodeChar ∧ (characters s).flatten = s

/-- Only the encoder can part from the others. -/
theorem walkersAgree_iff (s : Bytes) : WalkersAgree s ↔ ¬ Overreads s := by
  obtain ⟨chs, rest, rfl, hchs, hrest⟩ := exists_characters s
  have hchars := characters_flatten hchs hrest
  have hsplit : WubiCodec.splitUtf8Chars (chs.flatten ++ rest) = chs ↔
      WubiCodec.utf8Len rest 0 = 0 := by
    rw [WubiCodec.splitUtf8Chars_flatten hchs, List.append_right_eq_self,
      WubiCodec.splitUtf8Chars_eq_nil]
  rw [overreads_flatten hchs hrest, not_not, ← hsplit]
  constructor
  · intro h
    rw [h.split, hchars]
  · intro h
    refine ⟨?_, by rw [h, hchars], ?_, ?_⟩
    · rw [charOffsets, scan_flatten hchs hrest, hchars]
    · rw [hchars]
      exact List.prefix_append _ _
    · intro cs hcs
      rw [hcs, characters_encodeText]
      exact ⟨rfl, (List.append_nil _).symm.trans (encodeText_eq_flatten cs).symm⟩

/-! ### The phrases of the discovery -/

/-- The encoder finds the pieces of a phrase in it if each is a character alone. -/
theorem splitUtf8Chars_spelled {w : List Piece} (hsound : ∀ p ∈ w, p.Sound) :
    WubiCodec.splitUtf8Chars (spelled w) = w.map Piece.text ↔ ∀ p ∈ w, p.rest = [] := by
  induction w with
  | nil => simp [spelled, WubiCodec.splitUtf8Chars, WubiCodec.splitFrom]
  | cons p w ih =>
      obtain ⟨hp, hw⟩ := List.forall_mem_cons.mp hsound
      have hspelled : spelled (p :: w) = p.char ++ (p.rest ++ spelled w) :=
        List.append_assoc ..
      rw [hspelled, WubiCodec.splitUtf8Chars_append hp.char, List.map_cons, List.cons.injEq,
        List.forall_mem_cons, Piece.text, List.self_eq_append_right, ← ih hw]
      refine and_congr_right fun hnil => ?_
      rw [hnil, List.nil_append]

theorem Piece.Sound.isCharacter_text {p : Piece} (hp : p.Sound) :
    IsCharacter p.text ↔ p.rest = [] := by
  rw [Piece.text]
  constructor
  · intro h
    have hlen := h.2
    rw [hp.char.utf8Len_append, List.length_append] at hlen
    exact List.length_eq_zero_iff.mp (by omega)
  · intro hnil
    rw [hnil, List.append_nil]
    exact hp.char

/-- The tokens of a commit are characters unless malformed bytes follow them. -/
theorem isCharacter_tokens_iff (e : HistoryEntry) :
    (∀ t ∈ entryToTokens e, IsCharacter t.ch) ↔
      characters e.committedText = [] ∨ malformedRest e.committedText = [] := by
  have htexts : (∀ t ∈ entryToTokens e, IsCharacter t.ch) ↔
      ∀ p ∈ pieces e.committedText, IsCharacter p.text := by
    rw [entryToTokens, List.forall_mem_map, tokenTexts_eq, List.forall_mem_map]
  have hrests : (∀ p ∈ pieces e.committedText, IsCharacter p.text) ↔
      ∀ p ∈ pieces e.committedText, p.rest = [] :=
    forall₂_congr fun p hp => (sound_of_mem_pieces hp).isCharacter_text
  rw [htexts, hrests, pieces]
  rcases List.eq_nil_or_concat' (characters e.committedText) with hnil | ⟨front, last, hchars⟩
  · simp [hnil]
  · -- only the last piece takes bytes along
    rw [hchars, List.getLast?_concat, List.dropLast_concat]
    dsimp only
    rw [List.forall_mem_append, List.forall_mem_map, List.forall_mem_singleton]
    simp

/-- No commit of the run has brought its malformed bytes into the window, with its last
character. -/
def FreeOfRests (run : List HistoryEntry) (w : List Token) : Prop :=
  ∀ e ∈ run, ∀ c ∈ (characters e.committedText).getLast?, malformedRest e.committedText ≠ [] →
    ∀ t ∈ w, t.ch ≠ c ++ malformedRest e.committedText

theorem isCharacter_window_iff {run : List HistoryEntry} {w : List Token}
    (hw : ∀ t ∈ w, t ∈ runTokens run) :
    (∀ t ∈ w, IsCharacter t.ch) ↔ FreeOfRests run w := by
  constructor
  · intro hchars e _ c hc hrest t ht htext
    have hpiece : (⟨c, malformedRest e.committedText⟩ : Piece) ∈ pieces e.committedText := by
      rw [pieces, hc]
      exact List.mem_append_right _ (List.mem_singleton_self _)
    have hchar := hchars t ht
    rw [htext] at hchar
    exact hrest ((sound_of_mem_pieces hpiece).isCharacter_text.mp hchar)
  · intro hfree t ht
    obtain ⟨e, he, htoken⟩ := List.mem_flatMap.mp (hw t ht)
    have htext : t.ch ∈ tokenTexts e.committedText := by
      obtain ⟨ch, hch, rfl⟩ := List.mem_map.mp htoken
      exact hch
    rw [tokenTexts_eq] at htext
    obtain ⟨p, hp, hptext⟩ := List.mem_map.mp htext
    rw [← hptext, (sound_of_mem_pieces hp).isCharacter_text]
    by_contra hrest
    -- the piece is the last of its commit
    unfold pieces at hp
    split at hp
    · cases hp
    · next last hlast =>
        rcases List.mem_append.mp hp with hfront | hend
        · obtain ⟨c, -, rfl⟩ := List.mem_map.mp hfront
          exact hrest rfl
        · obtain rfl := List.mem_singleton.mp hend
          exact hfree e he last hlast hrest t ht hptext.symm

/-- The configuration counts windows, and the run has tokens enough for one. -/
def Counted (cfg : DiscoveryConfig) (run : List HistoryEntry) : Prop :=
  cfg.includeBigrams = true ∧ 2 ≤ (runTokens run).length ∨
    cfg.includeTrigrams = true ∧ 3 ≤ (runTokens run).length

theorem exists_mem_grams {cfg : DiscoveryConfig} {run : List HistoryEntry}
    (hcounted : Counted cfg run) {t : Token} (ht : t ∈ runTokens run) :
    ∃ w ∈ grams cfg (runTokens run), t ∈ w := by
  rcases hcounted with ⟨htwo, hlen⟩ | ⟨hthree, hlen⟩
  · obtain ⟨w, hw, hmem⟩ := exists_mem_windows (by omega) hlen ht
    exact ⟨w, by simp [grams, htwo, hw], hmem⟩
  · obtain ⟨w, hw, hmem⟩ := exists_mem_windows (by omega) hlen ht
    exact ⟨w, by simp [grams, hthree, hw], hmem⟩

theorem mem_of_mem_grams {cfg : DiscoveryConfig} {toks w : List Token} (hw : w ∈ grams cfg toks)
    {t : Token} (ht : t ∈ w) : t ∈ toks := by
  obtain ⟨n, -, hwindow⟩ := windows_of_mem_spans (grams_eq_spans cfg toks ▸ hw)
  exact mem_of_mem_windows hwindow ht

/-- **The walkers agree** on a text if and only if it does not make the encoder read over
a byte that goes on with no character. The encoder looks at the characters of a counted
window if and only if each of its tokens is one, which is to say that no commit has brought
malformed bytes into it; and at those of all windows of a run if and only if no commit of
the run has malformed bytes behind a character. -/
theorem walkers_agree_iff (chrono : Sorter earlier) (cfg : DiscoveryConfig)
    (entries : List HistoryEntry) :
    (∀ s, WalkersAgree s ↔ ¬ Overreads s) ∧
      ∀ run ∈ chains chrono cfg entries,
        (∀ w ∈ grams cfg (runTokens run),
          (WubiCodec.splitUtf8Chars (windowText w) = w.map Token.ch ↔
            ∀ t ∈ w, IsCharacter t.ch) ∧
          (WubiCodec.splitUtf8Chars (windowText w) = w.map Token.ch ↔ FreeOfRests run w)) ∧
        (Counted cfg run →
          ((∀ w ∈ grams cfg (runTokens run),
              WubiCodec.splitUtf8Chars (windowText w) = w.map Token.ch) ↔
            ∀ e ∈ run, characters e.committedText = [] ∨
              malformedRest e.committedText = [])) := by
  refine ⟨walkersAgree_iff, fun run hrun => ?_⟩
  have hwindows : ∀ w ∈ grams cfg (runTokens run),
      (WubiCodec.splitUtf8Chars (windowText w) = w.map Token.ch ↔
        ∀ t ∈ w, IsCharacter t.ch) := by
    intro w hw
    have hmem : w.map Token.ch ∈ (pieceSpans chrono cfg entries).map (List.map Piece.text) := by
      rw [← map_ch_grams]
      exact List.mem_map_of_mem (List.mem_flatMap.mpr ⟨run, hrun, hw⟩)
    obtain ⟨ps, hps, htexts⟩ := List.mem_map.mp hmem
    have hsound : ∀ p ∈ ps, p.Sound := fun p => sound_of_mem_pieceSpans hps
    have hspelled : windowText w = spelled ps := by
      rw [windowText, spelled, List.flatMap_def, List.flatMap_def, htexts]
    rw [hspelled, ← htexts, splitUtf8Chars_spelled hsound]
    have htokens : (∀ t ∈ w, IsCharacter t.ch) ↔ ∀ p ∈ ps, IsCharacter p.text := by
      rw [← List.forall_mem_map (f := Token.ch), ← htexts, List.forall_mem_map]
    rw [htokens]
    exact forall₂_congr fun p hp => (hsound p hp).isCharacter_text.symm
  refine ⟨fun w hw => ⟨hwindows w hw, ?_⟩, fun hcounted => ?_⟩
  · rw [hwindows w hw, isCharacter_window_iff fun t => mem_of_mem_grams hw]
  · rw [forall₂_congr hwindows, ← forall₂_congr fun e _ => isCharacter_tokens_iff e]
    constructor
    · intro hall e he t ht
      obtain ⟨w, hw, hmem⟩ := exists_mem_grams hcounted (List.mem_flatMap.mpr ⟨e, he, ht⟩)
      exact hall w hw t hmem
    · intro hall w hw t ht
      obtain ⟨e, he, htoken⟩ := List.mem_flatMap.mp (mem_of_mem_grams hw ht)
      exact hall e he t htoken

/-- Two characters that were typed one by one, and what stands behind the second. -/
def typedWord (rest : Bytes) : List HistoryEntry := [
  { tsUs := 1000000, code := ascii "xu", committedText := encodeText ['弹'] },
  { tsUs := 2000000, code := ascii "pw", committedText := encodeText ['窗'] ++ rest }]

/-- A byte that begins no character parts them. -/
theorem walkers_agree_iff_typedWord :
    (∀ w ∈ grams {} (runTokens (typedWord [])),
      WubiCodec.splitUtf8Chars (windowText w) = w.map Token.ch) ∧
    ¬ ∀ w ∈ grams {} (runTokens (typedWord [0xFF])),
      WubiCodec.splitUtf8Chars (windowText w) = w.map Token.ch := by
  have hwhole := ((walkers_agree_iff byTime {} (typedWord [])).2 (typedWord []) (by decide)).2
    (.inl (by decide))
  have hspoilt := ((walkers_agree_iff byTime {} (typedWord [0xFF])).2 (typedWord [0xFF])
    (by decide)).2 (.inl (by decide))
  exact ⟨hwhole.mpr (by decide), fun hall => absurd (hspoilt.mp hall) (by decide)⟩

/-- A lead byte with two letters behind it is a character to the encoder alone. -/
theorem walkers_part : ¬ WalkersAgree [0xE6, 0x41, 0x42] := by
  intro h
  have hsplit : WubiCodec.splitUtf8Chars [0xE6, 0x41, 0x42] ≠
      characters [0xE6, 0x41, 0x42] := by decide
  exact hsplit h.split

end Dafeng.Learning
