import Dafeng.Inspector.ViewModel

/-!
# Dafeng.Inspector.Edits

Editing a dictionary in the Inspector. What was read from any file is written and read
again without loss: the rows that it gave are plain, and the line that ends its header
still does.
-/

namespace Dafeng.Inspector

open Dafeng.Utf8 Dafeng.Learning

variable {swift : Swift}

/-! ### Headers -/

/-- A header is empty, or its last line is the marker and no line before it is. -/
inductive IsHeader : List Char → Prop where
  | none : IsHeader []
  | marked {front : List (List Char)} {last : List Char}
      (front_ok : ∀ line ∈ front, '\n' ∉ line ∧ endsHeader line = false)
      (last_ok : '\n' ∉ last ∧ endsHeader last = true) : IsHeader (unlines '\n' (front ++ [last]))

theorem isHeader_splitHeaderBody (raw : List Char) : IsHeader (splitHeaderBody raw).1 := by
  have hclean : ∀ line ∈ raw.splitOn '\n', '\n' ∉ line := fun line => not_mem_of_mem_splitOn
  unfold splitHeaderBody
  dsimp only
  cases hdrop : (raw.splitOn '\n').dropWhile fun line => !endsHeader line with
  | nil => exact .none
  | cons last body =>
      dsimp only
      rw [intercalate_append_sep (by simp)]
      refine .marked ?_ ⟨hclean last ?_, ?_⟩
      · intro line hline
        have hmem := (List.takeWhile_sublist _).subset hline
        exact ⟨hclean line hmem, by simpa using List.mem_takeWhile_imp hline⟩
      · exact (List.dropWhile_sublist _).subset (hdrop ▸ List.mem_cons_self)
      · have hhead := List.head?_dropWhile_not (fun line => !endsHeader line) (raw.splitOn '\n')
        rw [hdrop] at hhead
        simpa using hhead

/-- The marker ends in a point or a blank. -/
theorem getLast?_ne_of_endsHeader {last : List Char} (h : endsHeader last = true) :
    last ≠ [] ∧ ∀ c, last.getLast? = some c → c ≠ '\r' := by
  have htrim : trim isWhitespace last = headerEnd := beq_iff_eq.mp h
  constructor
  · rintro rfl
    exact absurd htrim (by decide)
  · rintro c hc rfl
    have hmem := mem_trim (p := isWhitespace) (List.mem_of_getLast? hc) (by decide)
    rw [htrim] at hmem
    exact absurd hmem (by decide)

theorem hasNewlineSuffix_unlines {front : List (List Char)} {last : List Char}
    (h : endsHeader last = true) :
    hasNewlineSuffix (unlines '\n' (front ++ [last])) = true := by
  obtain ⟨hne, hlast⟩ := getLast?_ne_of_endsHeader h
  obtain ⟨c, hc⟩ := Option.ne_none_iff_exists'.mp (mt List.getLast?_eq_none_iff.mp hne)
  obtain ⟨init, rfl⟩ := List.getLast?_eq_some_iff.mp hc
  have hreverse : (unlines '\n' (front ++ [init ++ [c]])).reverse =
      '\n' :: c :: (init.reverse ++ (unlines '\n' front).reverse) := by
    rw [unlines_append]
    simp
  rw [hasNewlineSuffix, hreverse]
  split
  · next heq =>
      have hcr : c = '\r' := by simpa using (List.cons.inj (List.cons.inj heq).2).1
      exact absurd hcr (hlast c hc)
  · rfl
  · next hno => exact absurd rfl (hno _)

/-! ### Rows -/

/-- A row is not taken for the end of a header: the digit at its end is not trimmed
away. -/
theorem endsHeader_printLine (columns : Columns) : endsHeader (printLine columns) = false := by
  rw [endsHeader, beq_eq_false_iff_ne]
  intro heq
  obtain ⟨c, cs, hc⟩ := List.exists_cons_of_ne_nil (printInt_ne_nil columns.2.2)
  have hweight : c ∈ printInt columns.2.2 := by simp [hc]
  have hspace := (Bool.or_eq_false_iff.mp (isWhitespaceOrNewline_printInt hweight).1).1
  have hmem : c ∈ printLine columns := by simp [printLine, hweight]
  have htrim := mem_trim hmem hspace
  rw [heq] at htrim
  have hpoint : c = '.' := by simpa [headerEnd] using htrim
  rcases mem_printInt hweight with hminus | hdigit
  · exact absurd (hpoint.symm.trans hminus) (by decide)
  · rw [hpoint] at hdigit
    exact absurd hdigit (by decide)

theorem lineFeed_not_mem_printLine {columns : Columns} (h : Plain swift columns) :
    '\n' ∉ printLine columns := by
  intro hmem
  exact absurd (isNewline_printLine h '\n' hmem) (by decide)

/-- An empty line in front of the rows is passed over. -/
theorem parseBody_newline_cons (body : List Char) :
    parseBody swift ('\n' :: body) = parseBody swift body := by
  have hsplit : ('\n' :: body).splitOnP isNewline = [] :: body.splitOnP isNewline := by
    rw [List.splitOnP_cons_eq_if_modifyHead, if_pos (by decide)]
  rw [parseBody, parseBody, hsplit, List.filter_cons_of_neg (by simp)]

/-- Without a marker all is body. -/
theorem splitHeaderBody_of_unmarked {lines : List (List Char)}
    (h : ∀ line ∈ lines, '\n' ∉ line ∧ endsHeader line = false) :
    splitHeaderBody (unlines '\n' lines) = ([], unlines '\n' lines) := by
  have hsplit : (unlines '\n' lines).splitOn '\n' = lines ++ [[]] := by
    have happend : (unlines '\n' lines ++ []).splitOn '\n' =
        lines.flatMap (·.splitOn '\n') ++ List.splitOn '\n' [] := splitOn_unlines_append lines []
    rw [List.append_nil, flatMap_splitOn fun line hline => (h line hline).1] at happend
    exact happend
  have hnone : (lines ++ [[]]).dropWhile (fun line => !endsHeader line) = [] := by
    rw [List.dropWhile_eq_nil_iff]
    intro line hline
    rcases List.mem_append.mp hline with hline | hline
    · rw [(h line hline).2]
      rfl
    · rw [List.mem_singleton.mp hline]
      decide
  unfold splitHeaderBody
  dsimp only
  rw [hsplit, hnone]

/-- What is written is divided as it was put together. -/
theorem splitHeaderBody_saved {header : List Char} (hheader : IsHeader header)
    {entries : List LearnedEntry} (hplain : ∀ e ∈ entries, Plain swift e.columns) :
    (splitHeaderBody (saved swift header entries)).1 = header ∧
      parseBody swift (splitHeaderBody (saved swift header entries)).2 =
        (swift.sorter.sort entries).map LearnedEntry.columns := by
  have hrows : ∀ row ∈ (swift.sorter.sort entries).map LearnedEntry.columns,
      Plain swift row := by
    intro row hrow
    obtain ⟨e, he, rfl⟩ := List.mem_map.mp hrow
    exact hplain e (swift.sorter.mem_sort.mp he)
  have hread := parseBody_unlines hrows
  rw [List.map_map] at hread
  change parseBody swift
    (unlines '\n' ((swift.sorter.sort entries).map fun e => printLine e.columns)) = _ at hread
  cases hheader with
  | marked hfront hlast =>
      rw [saved, if_pos (hasNewlineSuffix_unlines hlast.2), splitHeaderBody_unlines hfront hlast]
      exact ⟨rfl, hread⟩
  | none =>
      -- the file begins with an empty line, which is not a row
      have hsaved : saved swift [] entries = unlines '\n'
          ([] :: (swift.sorter.sort entries).map fun e => printLine e.columns) := rfl
      have hclean : ∀ line ∈ [] :: (swift.sorter.sort entries).map (fun e => printLine e.columns),
          '\n' ∉ line ∧ endsHeader line = false := by
        refine List.forall_mem_cons.mpr ⟨by decide, fun line hline => ?_⟩
        obtain ⟨e, he, rfl⟩ := List.mem_map.mp hline
        exact ⟨lineFeed_not_mem_printLine (hplain e (swift.sorter.mem_sort.mp he)),
          endsHeader_printLine _⟩
      rw [hsaved, splitHeaderBody_of_unmarked hclean, unlines_cons, List.nil_append]
      exact ⟨rfl, (parseBody_newline_cons _).trans hread⟩

/-! ### Edits -/

/-- Rows in the order of the weights, and among equal ones of the codes, from the
greatest down. -/
def Descending (greater : List Char → List Char → Bool) (rows : List Columns) : Prop :=
  rows.Pairwise fun a b => b.2.2 < a.2.2 ∨ a.2.2 = b.2.2 ∧ greater b.2.1 a.2.1 = false

theorem descending_sort (swift : Swift) (entries : List LearnedEntry) :
    Descending swift.greater ((swift.sorter.sort entries).map LearnedEntry.columns) :=
  List.pairwise_map.mpr ((swift.sorter.sorted entries).imp savedBefore_eq_false.mp)

/-- What `load` gives of a file. -/
theorem of_load {next : Nat} {file : Option Bytes} {header : List Char}
    {entries : List LearnedEntry} (h : load swift next file = .ok (header, entries)) :
    IsHeader header ∧ (∀ e ∈ entries, Plain swift e.columns) ∧ entries.Nodup := by
  unfold load at h
  split at h
  · cases h
  · split at h
    · cases h
    · next raw hraw =>
        dsimp only at h
        obtain ⟨rfl, rfl⟩ := Prod.mk.inj (Except.ok.inj h)
        exact ⟨isHeader_splitHeaderBody raw,
          fun e he => plain_of_mem_parseBody (mem_makeEntries he), nodup_makeEntries _ _⟩

/-- Plain entries are written and read again, in the order of `save`. -/
theorem read_saved {header : List Char} (hheader : IsHeader header) {entries : List LearnedEntry}
    (hplain : ∀ e ∈ entries, Plain swift e.columns) (next : Nat) :
    load swift next (some (encodeText (saved swift header entries))) =
      .ok (header, makeEntries next
        ((swift.sorter.sort entries).map LearnedEntry.columns)) := by
  obtain ⟨hhead, hbody⟩ := splitHeaderBody_saved hheader hplain
  rw [load, decodeText_encodeText]
  dsimp only
  rw [hhead, hbody]

/-- **Edits keep the dictionary.** Any part of the entries that were read of a file comes
back when it is saved and loaded again: the header is the same and the rows are the same,
from the greatest down. So a deletion takes away the row that was chosen, and no other. -/
theorem edits_keep_rows (swift : Swift) (next : Nat) (file : Option Bytes) (header : List Char)
    (entries : List LearnedEntry) (hload : load swift next file = .ok (header, entries)) :
    (∀ part : List LearnedEntry, part.Sublist entries → ∀ next' before, ∃ reread,
      load swift next' (save swift true header part before).2 = .ok (header, reread) ∧
      (reread.map LearnedEntry.columns).Perm (part.map LearnedEntry.columns) ∧
      Descending swift.greater (reread.map LearnedEntry.columns)) ∧
    ∀ (vm : LearnedDictViewModel), ∀ e ∈ entries, ∀ next', ∃ reread,
      load swift next' ((vm.refresh (load swift next file)).delete swift true e file).2 =
        .ok (header, reread) ∧
      (entries.map LearnedEntry.columns).Perm (e.columns :: reread.map LearnedEntry.columns) := by
  obtain ⟨hheader, hplain, hnodup⟩ := of_load hload
  have hreload : ∀ part : List LearnedEntry, part ⊆ entries → ∀ next',
      load swift next' (some (encodeText (saved swift header part))) =
        .ok (header, makeEntries next' ((swift.sorter.sort part).map LearnedEntry.columns)) :=
    fun part hpart => read_saved hheader fun e he => hplain e (hpart he)
  have hsort : ∀ part : List LearnedEntry,
      ((swift.sorter.sort part).map LearnedEntry.columns).Perm
        (part.map LearnedEntry.columns) := fun part => (swift.sorter.perm part).map _
  constructor
  · intro part hpart next' before
    refine ⟨_, hreload part hpart.subset next', ?_⟩
    rw [map_columns_makeEntries]
    exact ⟨hsort part, descending_sort swift part⟩
  · intro vm e he next'
    -- the view model writes all other entries
    have hdelete : ((vm.refresh (load swift next file)).delete swift true e file).2 =
        some (encodeText (saved swift header (entries.filter (· ≠ e)))) := by
      rw [hload]
      rfl
    refine ⟨_, hdelete ▸ hreload _ List.filter_sublist.subset next', ?_⟩
    rw [map_columns_makeEntries]
    have hrest := (perm_filter_ne hnodup he).map LearnedEntry.columns
    exact hrest.trans ((hsort _).symm.cons _)

/-- A file with a header and three rows, the last of them the first once more. -/
def threeRows : List Char :=
  ['.', '.', '.', '\n', '你', '\t', 'w', '\t', '5', '\n', '好', '\t', 'v', '\n',
    '你', '\t', 'w', '\t', '5', '\n']

/-- Of two equal rows one goes, and the other stays with the rest. -/
theorem edits_keep_rows_twin : ∃ reread,
    load .scalars 3 ((({} : LearnedDictViewModel).refresh (load .scalars 0
      (some (encodeText threeRows)))).delete .scalars true
        { id := 0, text := ['你'], code := ['w'], weight := 5 } (some (encodeText threeRows))).2 =
      .ok (['.', '.', '.', '\n'], reread) ∧
    [(['你'], ['w'], 5), (['好'], ['v'], 1), (['你'], ['w'], 5)].Perm
      ((['你'], ['w'], 5) :: reread.map LearnedEntry.columns) :=
  (edits_keep_rows .scalars 0 (some (encodeText threeRows)) ['.', '.', '.', '\n']
    [{ id := 0, text := ['你'], code := ['w'], weight := 5 },
      { id := 1, text := ['好'], code := ['v'], weight := 1 },
      { id := 2, text := ['你'], code := ['w'], weight := 5 }] rfl).2 {} _
    List.mem_cons_self 3

end Dafeng.Inspector
