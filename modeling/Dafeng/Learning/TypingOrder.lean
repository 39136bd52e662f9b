import Dafeng.Learning.Learnable
import Dafeng.Learning.Ngram
import Dafeng.Learning.Retention
import Mathlib.Data.List.Infix

/-!
# Dafeng.Learning.TypingOrder

The order in which the learners chain the commits. Both the query and the sorts
compare the time stamps alone, so that rows of one time stamp come in any order.
-/

namespace Dafeng.Learning

/-! ### The rows that are read -/

/-- The time stamps do not decrease, as signed and as unsigned numbers. -/
def InTimeOrder (entries : List HistoryEntry) : Prop :=
  entries.Pairwise fun a b => newer a b = false ∧ earlier b a = false

namespace InTimeOrder

variable {entries : List HistoryEntry}

theorem congr (h : InTimeOrder entries) {ys : List HistoryEntry}
    (htimes : ys.map HistoryEntry.tsUs = entries.map HistoryEntry.tsUs) : InTimeOrder ys := by
  have hmap : ∀ es : List HistoryEntry, InTimeOrder es ↔ (es.map HistoryEntry.tsUs).Pairwise
      fun s t => decide (t.toInt64 < s.toInt64) = false ∧ decide (t < s) = false := by
    intro es
    rw [List.pairwise_map]
    rfl
  rw [hmap, htimes]
  exact (hmap entries).mp h

/-- Among these rows the signed order is the unsigned one. -/
theorem agree (h : InTimeOrder entries) {a b : HistoryEntry} (ha : a ∈ entries)
    (hb : b ∈ entries) (hle : newer a b = false) : earlier b a = false := by
  refine List.Pairwise.forall_of_forall_of_flip
    (R := fun a b => newer a b = false → earlier b a = false) (fun a _ _ => by simp [earlier])
    (h.imp fun hab _ => hab.2) (h.imp fun {a b} hab hba => ?_) ha hb hle
  have hsigned := hab.1
  simp only [newer, decide_eq_false_iff_not, Int64.lt_iff_toInt_lt] at hsigned hba
  have htime : a.tsUs.toInt64 = b.tsUs.toInt64 := Int64.toInt_inj.mp (by omega)
  have hsame : a.tsUs = b.tsUs := by simpa using congrArg Int64.toUInt64 htime
  simp [earlier, hsame]

/-- By its times a list in order is determined. -/
theorem map_tsUs_eq (h : InTimeOrder entries) {ys : List HistoryEntry} (hperm : ys.Perm entries)
    (hys : ys.Pairwise fun a b => earlier b a = false) :
    ys.map HistoryEntry.tsUs = entries.map HistoryEntry.tsUs := by
  have hsorted : ∀ {es : List HistoryEntry}, (es.Pairwise fun a b => earlier b a = false) →
      (es.map HistoryEntry.tsUs).Pairwise fun s t => s.toNat ≤ t.toNat :=
    fun hes => List.pairwise_map.mpr (hes.imp fun hle => earlier_eq_false.mp hle)
  refine List.Perm.eq_of_pairwise ?_ (hsorted hys) (hsorted (h.imp fun hle => hle.2))
    (hperm.map _)
  intro s t _ _ hst hts
  exact UInt64.toNat_inj.mp (Nat.le_antisymm hst hts)

end InTimeOrder

namespace SqliteHistoryStore

/-- How many rows `RecentEntries` reads. -/
def scanned (db : SqliteHistoryStore) (limit : UInt64) : Nat :=
  if limit.toInt64 < 0 then db.rows.length else min limit.toNat db.rows.length

variable {db : SqliteHistoryStore}

theorem scanned_le (limit : UInt64) : db.scanned limit ≤ db.rows.length := by
  unfold scanned
  split_ifs <;> omega

theorem recentEntries_eq_take (orderBy : Sorter newer) (limit : UInt64) :
    db.recentEntries orderBy limit = (orderBy.sort db.rows).take (db.scanned limit) := by
  have hlen := (orderBy.perm db.rows).length_eq
  unfold recentEntries scanned
  dsimp only
  split_ifs
  · rw [← hlen, List.take_length]
  · rw [← hlen, List.take_eq_take_iff]
    omega

/-- What the sorts can make of rows in the order of time: rows of one time stamp change
places, and the last ones are chained. -/
theorem chained_iff (h : InTimeOrder db.rows) (limit : UInt64) (es : List HistoryEntry) :
    (∃ orderBy, ∃ chrono : Sorter earlier, chrono.sort (db.recentEntries orderBy limit) = es) ↔
      ∃ ys : List HistoryEntry, ys.Perm db.rows ∧
        ys.map HistoryEntry.tsUs = db.rows.map HistoryEntry.tsUs ∧
        ys.drop (db.rows.length - db.scanned limit) = es := by
  have hle := db.scanned_le limit
  constructor
  · rintro ⟨orderBy, chrono, rfl⟩
    rw [recentEntries_eq_take]
    set k := db.scanned limit
    set found := orderBy.sort db.rows with hfound
    have hperm : found.Perm db.rows := orderBy.perm db.rows
    -- the rows that are not read come first
    have hrearranged : (byTime.sort (found.drop k) ++ chrono.sort (found.take k)).Perm
        db.rows := by
      refine ((byTime.perm _).append (chrono.perm _)).trans (List.perm_append_comm.trans ?_)
      rwa [List.take_append_drop]
    refine ⟨_, hrearranged, h.map_tsUs_eq hrearranged ?_, ?_⟩
    · refine List.pairwise_append.mpr ⟨byTime.sorted _, chrono.sorted _, fun a ha b hb => ?_⟩
      rw [byTime.mem_sort] at ha
      rw [chrono.mem_sort] at hb
      have hsorted := orderBy.sorted db.rows
      rw [← hfound, ← List.take_append_drop k found, List.pairwise_append] at hsorted
      exact h.agree (hperm.mem_iff.mp (List.mem_of_mem_drop ha))
        (hperm.mem_iff.mp (List.mem_of_mem_take hb)) (hsorted.2.2 b hb a ha)
    · refine List.drop_left' ?_
      rw [(byTime.perm _).length_eq, List.length_drop, hperm.length_eq]
  · rintro ⟨ys, hperm, htimes, rfl⟩
    have hys := h.congr htimes
    have hnewest : ys.reverse.Pairwise fun a b => newer b a = false :=
      List.pairwise_reverse.mpr (hys.imp fun hle => hle.1)
    -- the query gives the rows from the last one on, and the sort turns them round
    let orderBy := newestFirst.choosing ((List.reverse_perm ys).trans hperm) hnewest
    have hread : db.recentEntries orderBy limit =
        (ys.drop (db.rows.length - db.scanned limit)).reverse := by
      rw [recentEntries_eq_take, Sorter.sort_choosing, List.take_reverse, hperm.length_eq]
    have hchain : (ys.drop (db.rows.length - db.scanned limit)).Pairwise
        fun a b => earlier b a = false :=
      (hys.imp fun hle => hle.2).sublist (List.drop_sublist _ _)
    refine ⟨orderBy, byTime.choosing (List.reverse_perm _).symm hchain, ?_⟩
    rw [hread, Sorter.sort_choosing]

end SqliteHistoryStore

/-! ### Neighbours among the rows -/

/-- One entry right behind another. -/
theorem getElem?_of_pair_infix {rows : List HistoryEntry} {a b : HistoryEntry}
    (h : [a, b] <:+: rows) : ∃ i, rows[i]? = some a ∧ rows[i + 1]? = some b := by
  obtain ⟨s, t, rfl⟩ := h
  exact ⟨s.length, by simp, by simp⟩

section

variable {rows : List HistoryEntry} (hnodup : rows.Nodup) {a b c : HistoryEntry}
include hnodup

theorem next_unique (hb : [a, b] <:+: rows) (hc : [a, c] <:+: rows) : b = c := by
  obtain ⟨i, ha, hb⟩ := getElem?_of_pair_infix hb
  obtain ⟨j, ha', hc⟩ := getElem?_of_pair_infix hc
  have hi := (List.getElem?_eq_some_iff.mp ha).1
  obtain rfl : i = j := (List.getElem?_inj hi hnodup).mp (ha.trans ha'.symm)
  exact Option.some.inj (hb.symm.trans hc)

theorem not_both_next (hab : [a, b] <:+: rows) : ¬ [b, a] <:+: rows := by
  intro hba
  obtain ⟨i, ha, hb⟩ := getElem?_of_pair_infix hab
  obtain ⟨j, hb', ha'⟩ := getElem?_of_pair_infix hba
  have hi := (List.getElem?_eq_some_iff.mp ha).1
  have hj := (List.getElem?_eq_some_iff.mp hb').1
  have hfst : i = j + 1 := (List.getElem?_inj hi hnodup).mp (ha.trans ha'.symm)
  have hsnd : j = i + 1 := (List.getElem?_inj hj hnodup).mp (hb'.trans hb.symm)
  omega

end

/-- The neighbours in a stretch of the rows. -/
theorem isChain_of_infix {rows run : List HistoryEntry} (h : run <:+: rows) :
    run.IsChain fun a b => [a, b] <:+: rows := by
  rw [List.isChain_iff_forall_rel_of_append_cons_cons]
  rintro a b l₁ l₂ rfl
  exact List.IsInfix.trans ⟨l₁, l₂, by simp⟩ h

/-! ### Ties -/

/-- The last `k` rows can be told apart by their time stamps, and so can the row before
them and the first one, if this is chained to the second. -/
structure Untied (gapUs : UInt64) (k : Nat) (rows : List HistoryEntry) : Prop where
  distinct : (rows.drop (rows.length - k)).Pairwise fun a b => a.tsUs < b.tsUs
  before : ∀ r ∈ (rows.take (rows.length - k)).getLast?, ∀ x y rest,
    rows.drop (rows.length - k) = x :: y :: rest → close gapUs x y = true → r.tsUs < x.tsUs

/-- Rows at the same time are close. -/
theorem close_congr {gapUs : UInt64} {a b : HistoryEntry} (h : a.tsUs = b.tsUs)
    (c : HistoryEntry) : close gapUs a c = close gapUs b c := by
  simp [close, h]

theorem close_of_eq (gapUs : UInt64) {a b : HistoryEntry} (h : a.tsUs = b.tsUs) :
    close gapUs a b = true := by
  simp [close, h]

section

variable {gapUs : UInt64} {k : Nat} {rows : List HistoryEntry}

/-- Every arrangement of the rows at the same times chains the last `k` of them in the
order of the rows. -/
def InOrder (gapUs : UInt64) (k : Nat) (rows : List HistoryEntry) : Prop :=
  ∀ ys : List HistoryEntry, ys.Perm rows →
    ys.map HistoryEntry.tsUs = rows.map HistoryEntry.tsUs →
    ∀ run ∈ phrases gapUs (ys.drop (rows.length - k)), run <:+: rows

/-- Neighbours that are chained in an arrangement are neighbours in the table. -/
theorem InOrder.next (h : InOrder gapUs k rows) {front l₁ l₂ : List HistoryEntry}
    {a b : HistoryEntry} (hperm : (front ++ (l₁ ++ a :: b :: l₂)).Perm rows)
    (htimes : (front ++ (l₁ ++ a :: b :: l₂)).map HistoryEntry.tsUs =
      rows.map HistoryEntry.tsUs) (hfront : front.length = rows.length - k)
    (hclose : close gapUs a b = true) : [a, b] <:+: rows := by
  have hruns := h _ hperm htimes
  rw [List.drop_left' hfront] at hruns
  have hchain := isChain_of_runs fun run hrun => isChain_of_infix (hruns run hrun)
  exact List.isChain_iff_forall_rel_of_append_cons_cons.mp hchain rfl hclose

theorem InOrder.untied (h : InOrder gapUs k rows) (hnodup : rows.Nodup)
    (hordered : InTimeOrder rows) (hk : k ≤ rows.length) : Untied gapUs k rows := by
  have hlen : (rows.take (rows.length - k)).length = rows.length - k := by
    rw [List.length_take]
    omega
  have hrows := List.take_append_drop (rows.length - k) rows
  have hnotLt : ∀ {a b : HistoryEntry}, [a, b].Sublist rows → ¬ a.tsUs < b.tsUs →
      a.tsUs = b.tsUs := by
    intro a b hsub hnot
    have hle := earlier_eq_false.mp ((List.pairwise_pair.mp (hordered.sublist hsub)).2)
    rw [UInt64.lt_iff_toNat_lt] at hnot
    exact UInt64.toNat_inj.mp (by omega)
  refine ⟨?_, fun r hr x y rest hnewest hclose => ?_⟩
  · -- two neighbours at the same time could change places
    have hneighbours : (rows.drop (rows.length - k)).IsChain fun a b => a.tsUs < b.tsUs := by
      rw [List.isChain_iff_forall_rel_of_append_cons_cons]
      intro a b l₁ l₂ hnewest
      rw [hnewest] at hrows
      have hpair : [a, b] <:+: rows := ⟨_ ++ l₁, l₂, by simpa using hrows⟩
      by_contra hnot
      have htie := hnotLt hpair.sublist hnot
      have hswapped : [b, a] <:+: rows := by
        refine h.next (((List.Perm.swap a b l₂).append_left l₁).append_left _ |>.trans
          (.of_eq hrows)) ?_ hlen (close_of_eq gapUs htie.symm)
        rw [← congrArg (List.map HistoryEntry.tsUs) hrows]
        simp [htie]
      exact not_both_next hnodup hpair hswapped
    have : IsTrans HistoryEntry fun a b => a.tsUs < b.tsUs :=
      ⟨fun _ _ _ hab hbc => UInt64.lt_trans hab hbc⟩
    exact List.isChain_iff_pairwise.mp hneighbours
  · -- the row before could take the place of the first one
    obtain ⟨old, hold⟩ := List.getLast?_eq_some_iff.mp hr
    rw [hold, hnewest] at hrows
    have hpair : [r, x] <:+: rows := ⟨old, y :: rest, by simpa using hrows⟩
    by_contra hnot
    have htie := hnotLt hpair.sublist hnot
    have hskipped : [r, y] <:+: rows := by
      have hperm : ((old ++ [x]) ++ ([] ++ r :: y :: rest)).Perm rows := by
        rw [← hrows]
        simpa using ((List.Perm.swap r x (y :: rest)).append_left old)
      have htimes : ((old ++ [x]) ++ ([] ++ r :: y :: rest)).map HistoryEntry.tsUs =
          rows.map HistoryEntry.tsUs := by
        rw [← hrows]
        simp [htie]
      have hfront : (old ++ [x]).length = rows.length - k := by
        rw [← hlen, hold]
        simp
      exact h.next hperm htimes hfront ((close_congr htie y).trans hclose)
    obtain rfl := next_unique hnodup hpair hskipped
    rw [← hrows] at hnodup
    simp [List.nodup_append] at hnodup

/-- Rows that nothing else shares its time stamp with stay where they are. -/
theorem eq_of_times {xs ys : List HistoryEntry}
    (htimes : ys.map HistoryEntry.tsUs = xs.map HistoryEntry.tsUs)
    (halone : ∀ x ∈ xs, ∀ y ∈ ys, y.tsUs = x.tsUs → y = x) : ys = xs := by
  induction xs generalizing ys with
  | nil => exact List.map_eq_nil_iff.mp htimes
  | cons x xs ih =>
      obtain ⟨y, ys, rfl, hy, hys⟩ := List.map_eq_cons_iff.mp htimes
      rw [halone x (by simp) y (by simp) hy, ih hys fun x hx y hy =>
        halone x (List.mem_cons_of_mem _ hx) y (List.mem_cons_of_mem _ hy)]

/-- Only the first of the rows that are read can be another one, at the same time. -/
theorem drop_eq_cons (hordered : InTimeOrder rows) {old tail : List HistoryEntry}
    {x : HistoryEntry} (hrows : old ++ x :: tail = rows)
    (hdistinct : (x :: tail).Pairwise fun a b => a.tsUs < b.tsUs) {ys : List HistoryEntry}
    (hperm : ys.Perm rows)
    (htimes : ys.map HistoryEntry.tsUs = rows.map HistoryEntry.tsUs) :
    ∃ c ∈ rows, ys.drop old.length = c :: tail ∧ c.tsUs = x.tsUs ∧ (c = x ∨ c ∈ old) := by
  subst hrows
  rw [List.map_append] at htimes
  obtain ⟨front, read, rfl, hfront, hread⟩ := List.map_eq_append_iff.mp htimes
  obtain ⟨c, ys, rfl, hc, hys⟩ := List.map_eq_cons_iff.mp hread
  -- behind the first row each is alone at its time
  have hlater : ∀ t ∈ tail, ∀ e ∈ old ++ x :: tail, e.tsUs = t.tsUs → e = t := by
    intro t ht e he heq
    have hxt := (List.pairwise_cons.mp hdistinct).1 t ht
    have hdown : e ∈ old → False := by
      intro hold
      have hle := ((List.pairwise_append.mp hordered).2.2 e hold x (by simp)).2
      rw [earlier_eq_false, heq] at hle
      rw [UInt64.lt_iff_toNat_lt] at hxt
      omega
    have htimes : ((x :: tail).map HistoryEntry.tsUs).Nodup :=
      List.pairwise_map.mpr (hdistinct.imp fun hlt => UInt64.ne_of_lt hlt)
    exact List.inj_on_of_nodup_map htimes ((List.mem_append.mp he).resolve_left hdown)
      (List.mem_cons_of_mem _ ht) heq
  have hmem : ∀ e ∈ c :: ys, e ∈ old ++ x :: tail := fun e he =>
    hperm.mem_iff.mp (List.mem_append_right front he)
  have htail : ys = tail := eq_of_times hys fun t ht e he =>
    hlater t ht e (hmem e (List.mem_cons_of_mem _ he))
  have hlen : front.length = old.length := by simpa using congrArg List.length hfront
  refine ⟨c, hmem c (by simp), ?_, hc, ?_⟩
  · rw [List.drop_left' hlen, htail]
  · rcases List.mem_append.mp (hmem c (by simp)) with hold | hnew
    · exact .inr hold
    · rcases List.mem_cons.mp hnew with heq | hmem
      · exact .inl heq
      · have hxc := (List.pairwise_cons.mp hdistinct).1 c hmem
        rw [hc] at hxc
        exact absurd hxc (UInt64.lt_irrefl _)

theorem infix_of_mem_phrases {es run : List HistoryEntry} (h : run ∈ phrases gapUs es) :
    run <:+: es := by
  have hflat := List.infix_of_mem_flatten h
  rwa [phrases, List.flatten_splitBy] at hflat

theorem Untied.inOrder (h : Untied gapUs k rows) (hordered : InTimeOrder rows) :
    InOrder gapUs k rows := by
  intro ys hperm htimes run hrun
  have hlen : ys.length = rows.length := hperm.length_eq
  have hold : (rows.take (rows.length - k)).length = rows.length - k := by
    rw [List.length_take]
    omega
  have hrows := List.take_append_drop (rows.length - k) rows
  have hdistinct := h.distinct
  have hbefore := h.before
  have hinfix : rows.drop (rows.length - k) <:+: rows := (List.drop_suffix _ _).isInfix
  cases hnewest : rows.drop (rows.length - k) with
  | nil =>
      have hnone : ys.drop (rows.length - k) = [] := by
        rw [List.drop_eq_nil_iff] at hnewest ⊢
        omega
      rw [hnone] at hrun
      exact absurd hrun (by simp [phrases])
  | cons x tail =>
      rw [hnewest] at hrows hdistinct hbefore hinfix
      obtain ⟨c, hc, hdrop, hsame, hplace⟩ := drop_eq_cons hordered hrows hdistinct hperm htimes
      rw [hold] at hdrop
      rw [hdrop] at hrun
      rcases hplace with rfl | hcold
      · exact (infix_of_mem_phrases hrun).trans hinfix
      · -- another row was read in the place of the first one, which is not chained
        have halone : [c] <:+: rows := (List.singleton_infix_iff c rows).mpr hc
        cases tail with
        | nil =>
            have hruns : phrases gapUs [c] = [[c]] := rfl
            rw [hruns, List.mem_singleton] at hrun
            exact hrun ▸ halone
        | cons y rest =>
            have hfar : close gapUs c y = false := by
              by_contra hclose
              rw [close_congr hsame, Bool.not_eq_false] at hclose
              obtain ⟨r, hr⟩ : ∃ r, (rows.take (rows.length - k)).getLast? = some r :=
                ⟨_, List.getLast?_eq_some_getLast (List.ne_nil_of_mem hcold)⟩
              have hlt := hbefore r hr x y rest rfl hclose
              obtain ⟨front, hfront⟩ := List.getLast?_eq_some_iff.mp hr
              have hle : c.tsUs.toNat ≤ r.tsUs.toNat := by
                rw [hfront, List.mem_append, List.mem_singleton] at hcold
                rcases hcold with hcold | rfl
                · rw [← hrows, hfront, InTimeOrder, List.append_assoc] at hordered
                  exact earlier_eq_false.mp
                    ((List.pairwise_append.mp hordered).2.2 c hcold r (by simp)).2
                · exact Nat.le_refl _
              rw [UInt64.lt_iff_toNat_lt, ← hsame] at hlt
              omega
            have hruns : phrases gapUs (c :: y :: rest) = [c] :: phrases gapUs (y :: rest) :=
              splitBy_chunk_append (by simp) (List.isChain_singleton c) rest hfar
            rw [hruns, List.mem_cons] at hrun
            rcases hrun with rfl | hrun
            · exact halone
            · exact (infix_of_mem_phrases hrun).trans
                ((List.suffix_cons x (y :: rest)).isInfix.trans hinfix)

theorem inOrder_iff (hnodup : rows.Nodup) (hordered : InTimeOrder rows) (hk : k ≤ rows.length) :
    InOrder gapUs k rows ↔ Untied gapUs k rows :=
  ⟨fun h => h.untied hnodup hordered hk, fun h => h.inOrder hordered⟩

end

/-! ### What is counted -/

/-- Commits that were inserted one right after the other, without a long pause. -/
def TypedRun (gapUs : UInt64) (rows run : List HistoryEntry) : Prop :=
  run <:+: rows ∧ run.IsChain fun a b => close gapUs a b = true

/-- `UpdateBigramsFromHistory` chains the commits in the order of their insertion, and what
it counts was typed in that order. -/
structure BigramsTyped (orderBy : Sorter newer) (chrono : Sorter earlier) (db : SqliteHistoryStore)
    (limit : UInt64) : Prop where
  chained : ∀ phrase ∈ phrases kChainGapUs (chrono.sort (db.recentEntries orderBy limit)),
    TypedRun kChainGapUs db.rows phrase
  counted : ∀ table a b,
    (updateBigramsFromHistory chrono (db.store orderBy) table limit).1.bigramCount a b ≠
      table.bigramCount a b →
    ∃ phrase, TypedRun kChainGapUs db.rows phrase ∧ (a, b) ∈ neighbours (phraseCharacters phrase)

/-- `Discover` chains the commits in the order of their insertion, and what it counts and
reports was typed in that order. -/
structure WordsTyped (orderBy : Sorter newer) (chrono : Sorter earlier) (db : SqliteHistoryStore)
    (cfg : DiscoveryConfig) : Prop where
  chained : ∀ run ∈ chains chrono cfg (db.recentEntries orderBy cfg.scanMaxEntries),
    TypedRun cfg.chainMaxGapUs db.rows run
  counted : ∀ text,
    (countNgrams chrono cfg (db.recentEntries orderBy cfg.scanMaxEntries)).lookup text ≠ none →
    ∃ run, TypedRun cfg.chainMaxGapUs db.rows run ∧ ∃ w ∈ grams cfg (runTokens run),
      windowText w = text
  reported : ∀ ranking hash, ∀ word ∈ discover chrono ranking hash (db.store orderBy) cfg,
    ∃ run, TypedRun cfg.chainMaxGapUs db.rows run ∧ ∃ w ∈ grams cfg (runTokens run),
      windowText w = word.text

section

variable {orderBy : Sorter newer} {chrono : Sorter earlier} {db : SqliteHistoryStore}
  {limit : UInt64} {cfg : DiscoveryConfig}

/-- All that the walk counts are pairs in the phrases it goes through. -/
theorem BigramsTyped.of_chained
    (h : ∀ phrase ∈ phrases kChainGapUs (chrono.sort (db.recentEntries orderBy limit)),
      TypedRun kChainGapUs db.rows phrase) : BigramsTyped orderBy chrono db limit := by
  refine ⟨h, fun table a b hcount => ?_⟩
  rw [updateBigramsFromHistory_eq, NgramTable.bigramCount_addBigrams table (bigrams_ne_nil _)]
    at hcount
  have hmem : (a, b) ∈ bigrams (chrono.sort (db.recentEntries orderBy limit)) := by
    by_contra hnot
    exact hcount (by simp [SqliteHistoryStore.store, List.count_eq_zero.mpr hnot])
  obtain ⟨phrase, hphrase, hpair⟩ := List.mem_flatMap.mp hmem
  exact ⟨phrase, h phrase hphrase, hpair⟩

theorem WordsTyped.of_chained
    (h : ∀ run ∈ chains chrono cfg (db.recentEntries orderBy cfg.scanMaxEntries),
      TypedRun cfg.chainMaxGapUs db.rows run) : WordsTyped orderBy chrono db cfg := by
  have hcounted : ∀ text,
      (countNgrams chrono cfg (db.recentEntries orderBy cfg.scanMaxEntries)).lookup text ≠ none →
      ∃ run, TypedRun cfg.chainMaxGapUs db.rows run ∧ ∃ w ∈ grams cfg (runTokens run),
        windowText w = text := by
    intro text hlookup
    obtain ⟨c, hc⟩ := Option.ne_none_iff_exists'.mp hlookup
    obtain ⟨w, hw⟩ := List.exists_mem_of_ne_nil _ (lookup_countNgrams_windowsOf.mp hc).1
    obtain ⟨hmem, htext⟩ := List.mem_filter.mp hw
    obtain ⟨run, hrun, hgram⟩ := List.mem_flatMap.mp hmem
    exact ⟨run, h run hrun, w, hgram, of_decide_eq_true htext⟩
  refine ⟨h, hcounted, fun ranking hash word hword => ?_⟩
  obtain ⟨text, c, hlookup, hword⟩ := mem_discover_lookup.mp hword
  obtain ⟨-, -, rfl⟩ := wordOf_eq_some.mp hword
  exact hcounted text (Option.ne_none_iff_exists'.mpr ⟨c, hlookup⟩)

end

section

variable {db : SqliteHistoryStore} (hkeyed : db.Keyed) (hordered : InTimeOrder db.rows)
include hkeyed hordered

/-- The runs of chained commits, for all that the sorts can do. -/
theorem all_chained_iff (gapUs limit : UInt64) :
    (∀ orderBy, ∀ chrono : Sorter earlier,
      ∀ run ∈ phrases gapUs (chrono.sort (db.recentEntries orderBy limit)),
        TypedRun gapUs db.rows run) ↔ Untied gapUs (db.scanned limit) db.rows := by
  have hnodup : db.rows.Nodup := by
    refine hkeyed.increasing.imp fun {a b} hlt heq => ?_
    rw [heq] at hlt
    exact UInt64.lt_irrefl _ hlt
  rw [← inOrder_iff hnodup hordered (db.scanned_le limit)]
  constructor
  · intro h ys hperm htimes run hrun
    obtain ⟨orderBy, chrono, hchain⟩ := (SqliteHistoryStore.chained_iff hordered limit _).mpr
      ⟨ys, hperm, htimes, rfl⟩
    rw [← hchain] at hrun
    exact (h orderBy chrono run hrun).1
  · intro h orderBy chrono run hrun
    obtain ⟨ys, hperm, htimes, hchain⟩ := (SqliteHistoryStore.chained_iff hordered limit _).mp
      ⟨orderBy, chrono, rfl⟩
    rw [← hchain] at hrun
    exact ⟨h ys hperm htimes run hrun, List.isChain_of_mem_splitBy hrun⟩

/-- **N-grams follow the order of typing**, whatever order rows of one time stamp come in,
if and only if none that are read can be taken for one another. Without a gap `Discover`
chains nothing. -/
theorem chained_in_order_iff (limit : UInt64) (cfg : DiscoveryConfig) :
    ((∀ orderBy chrono, BigramsTyped orderBy chrono db limit) ↔
      Untied kChainGapUs (db.scanned limit) db.rows) ∧
    ((∀ orderBy chrono, WordsTyped orderBy chrono db cfg) ↔
      cfg.chainMaxGapUs = 0 ∨
        Untied cfg.chainMaxGapUs (db.scanned cfg.scanMaxEntries) db.rows) := by
  constructor
  · rw [← all_chained_iff hkeyed hordered]
    exact ⟨fun h orderBy chrono => (h orderBy chrono).chained,
      fun h orderBy chrono => .of_chained (h orderBy chrono)⟩
  · by_cases hgap : cfg.chainMaxGapUs = 0
    · refine iff_of_true (fun orderBy chrono => .of_chained fun run hrun => ?_) (.inl hgap)
      rw [chains, if_pos hgap] at hrun
      obtain ⟨e, he, rfl⟩ := List.mem_map.mp hrun
      have hmem := SqliteHistoryStore.mem_of_mem_recentEntries he
      exact ⟨(List.singleton_infix_iff e db.rows).mpr hmem, List.isChain_singleton e⟩
    · have hchains : ∀ orderBy (chrono : Sorter earlier),
          chains chrono cfg (db.recentEntries orderBy cfg.scanMaxEntries) =
            phrases cfg.chainMaxGapUs
              (chrono.sort (db.recentEntries orderBy cfg.scanMaxEntries)) :=
        fun _ _ => if_neg hgap
      rw [or_iff_right hgap, ← all_chained_iff hkeyed hordered]
      constructor
      · intro h orderBy chrono
        rw [← hchains]
        exact (h orderBy chrono).chained
      · intro h orderBy chrono
        refine .of_chained ?_
        rw [hchains]
        exact h orderBy chrono

end

/-- Two characters, committed at two times. -/
def twoCommits (fst snd : UInt64) : SqliteHistoryStore :=
  let db := ({} : SqliteHistoryStore).insert fst
    { code := ascii "xu", committedText := Utf8.encodeText ['弹'] }
  db.insert snd { code := ascii "pw", committedText := Utf8.encodeText ['窗'] }

theorem keyed_twoCommits (fst snd : UInt64) : (twoCommits fst snd).Keyed where
  increasing := by simp [twoCommits, SqliteHistoryStore.insert]
  positive := by simp [twoCommits, SqliteHistoryStore.insert]
  below := by simp [twoCommits, SqliteHistoryStore.insert]
  nextId := by simp [twoCommits, SqliteHistoryStore.insert]

/-- Half a second apart, they are chained as they were typed. -/
theorem chained_in_order_iff_apart :
    (∀ orderBy chrono, BigramsTyped orderBy chrono (twoCommits 1000000 1500000) 5000) ∧
      ∀ orderBy chrono, WordsTyped orderBy chrono (twoCommits 1000000 1500000) {} := by
  have hiff := chained_in_order_iff (keyed_twoCommits 1000000 1500000)
    (by unfold InTimeOrder; decide) 5000 {}
  have huntied : ∀ gapUs, Untied gapUs 2 (twoCommits 1000000 1500000).rows := fun gapUs =>
    ⟨by decide, fun r hr => by cases hr⟩
  exact ⟨hiff.1.mpr (huntied _), hiff.2.mpr (.inr (huntied _))⟩

/-- The rows of one time stamp as they stand in the index, read from its end. -/
def lastInserted : Sorter newer where
  sort rows := newestFirst.sort rows.reverse
  perm rows := (newestFirst.perm _).trans (List.reverse_perm rows)
  sorted _ := newestFirst.sorted _

/-- Committed within one microsecond, they are chained the other way round, even by a stable
sort. -/
theorem typed_backwards : ¬ ∀ db : SqliteHistoryStore, db.Keyed → InTimeOrder db.rows →
    ∀ orderBy chrono, BigramsTyped orderBy chrono db 5000 ∧ WordsTyped orderBy chrono db {} := by
  intro h
  have htyped := (h (twoCommits 1000000 1000000) (keyed_twoCommits _ _)
    (by unfold InTimeOrder; decide) lastInserted byTime).1.chained
  have hbackwards : phrases kChainGapUs (byTime.sort
      ((twoCommits 1000000 1000000).recentEntries lastInserted 5000)) =
      [(twoCommits 1000000 1000000).rows.reverse] := by
    decide
  have hinfix := (htyped _ (hbackwards ▸ List.mem_singleton_self _)).1
  revert hinfix
  decide

end Dafeng.Learning
