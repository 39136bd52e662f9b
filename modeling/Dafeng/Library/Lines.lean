import Mathlib.Data.List.DropRight

/-!
# Dafeng.Library.Lines

Text files of lines. A line ends at a separator; a reader that stops at the last
separator reads back the lines that a writer ended with one. A header is what
stands up to a marker line, and the table is what stands behind it.
-/

namespace Dafeng

section Lines

variable {α : Type} {sep : α} {rows : List (List α)} {s : List α}

/-! ### Writing lines -/

/-- Lines with the separators that end them. -/
def unlines (sep : α) (rows : List (List α)) : List α := rows.flatMap fun row => row ++ [sep]

@[simp] theorem unlines_nil : unlines sep [] = [] := rfl

@[simp] theorem unlines_cons (row : List α) :
    unlines sep (row :: rows) = row ++ sep :: unlines sep rows := by
  simp [unlines]

theorem unlines_append (rows' : List (List α)) :
    unlines sep (rows ++ rows') = unlines sep rows ++ unlines sep rows' :=
  List.flatMap_append

theorem intercalate_append_sep (h : rows ≠ []) :
    [sep].intercalate rows ++ [sep] = unlines sep rows := by
  induction rows with
  | nil => exact absurd rfl h
  | cons row rows ih =>
      cases rows with
      | nil => simp
      | cons row' rows =>
          rw [List.intercalate_cons_cons, List.append_assoc, List.append_assoc, ih (by simp),
            unlines_cons]
          simp

/-! ### What the parts of a split contain -/

/-- No part has a separator, and each is taken from the whole. -/
theorem of_mem_splitOnP {p : α → Bool} {part : List α} (h : part ∈ s.splitOnP p) :
    (∀ a ∈ part, p a = false) ∧ part.Sublist s := by
  induction s generalizing part with
  | nil =>
      obtain rfl : part = [] := by simpa using h
      simp
  | cons x s ih =>
      rw [List.splitOnP_cons_eq_if_modifyHead] at h
      split_ifs at h with hx
      · rcases List.mem_cons.mp h with rfl | h
        · simp
        · exact ⟨(ih h).1, (ih h).2.cons x⟩
      · obtain ⟨first, parts, hparts⟩ := List.exists_cons_of_ne_nil (List.splitOnP_ne_nil p s)
        rw [hparts, List.modifyHead_cons] at h
        rw [hparts] at ih
        rcases List.mem_cons.mp h with rfl | h
        · obtain ⟨hfirst, hsub⟩ := ih List.mem_cons_self
          refine ⟨fun a ha => ?_, hsub.cons_cons x⟩
          rcases List.mem_cons.mp ha with rfl | ha
          · simpa using hx
          · exact hfirst a ha
        · obtain ⟨hpart, hsub⟩ := ih (List.mem_cons_of_mem _ h)
          exact ⟨hpart, hsub.cons x⟩

/-- A separator inside a row splits it. -/
theorem splitOnP_unlines_append {p : α → Bool} (hsep : p sep = true) (rows : List (List α))
    (s : List α) :
    (unlines sep rows ++ s).splitOnP p = rows.flatMap (·.splitOnP p) ++ s.splitOnP p := by
  induction rows with
  | nil => rfl
  | cons row rows ih =>
      rw [unlines_cons, List.append_assoc, List.cons_append, List.splitOnP_append_cons _ _ hsep, ih,
        List.flatMap_cons, List.append_assoc]

theorem flatMap_splitOnP {p : α → Bool} (h : ∀ row ∈ rows, ∀ a ∈ row, p a = false) :
    rows.flatMap (·.splitOnP p) = rows := by
  have hsingle := List.flatMap_congr fun row hrow => List.splitOnP_eq_singleton (h row hrow)
  rw [hsingle]
  simp

/-! ### Trimming -/

/-- Without what `p` picks at both ends. -/
def trim (p : α → Bool) (s : List α) : List α := (s.dropWhile p).rdropWhile p

theorem trim_subset (p : α → Bool) (s : List α) : trim p s ⊆ s := fun _ h =>
  (List.dropWhile_sublist p).subset ((List.rdropWhile_prefix p _).subset h)

theorem not_of_head_trim {p : α → Bool} {a : α} (h : (trim p s).head? = some a) : p a = false := by
  have hprefix := List.rdropWhile_prefix p (s.dropWhile p)
  cases hdrop : s.dropWhile p with
  | nil =>
      rw [trim, hdrop] at h
      simp at h
  | cons b rest =>
      have hb : p b = false := by
        have hne : s.dropWhile p ≠ [] := by simp [hdrop]
        simpa [hdrop] using List.head_dropWhile_not p hne
      rw [trim] at h
      rw [hdrop] at h hprefix
      cases htrim : (b :: rest).rdropWhile p with
      | nil => simp [htrim] at h
      | cons b' rest' =>
          rw [htrim] at h hprefix
          obtain rfl : b' = b := (List.cons_prefix_cons.mp hprefix).1
          obtain rfl : b' = a := by simpa using h
          exact hb

/-- Trimming takes away only what `p` picks. -/
theorem mem_trim {p : α → Bool} {a : α} (ha : a ∈ s) (hp : p a = false) : a ∈ trim p s := by
  have hdrop : a ∈ s.dropWhile p := by
    rw [← List.takeWhile_append_dropWhile (p := p) (l := s)] at ha
    refine (List.mem_append.mp ha).resolve_left fun htake => ?_
    simp [List.mem_takeWhile_imp htake] at hp
  rw [← List.rdropWhile_append_rtakeWhile (p := p) (l := s.dropWhile p)] at hdrop
  refine (List.mem_append.mp hdrop).resolve_right fun htake => ?_
  simp [List.mem_rtakeWhile_imp htake] at hp

theorem trim_eq_self {p : α → Bool} (hhead : ∀ a ∈ s.head?, p a = false)
    (hlast : ∀ a ∈ s.getLast?, p a = false) : trim p s = s := by
  have hdrop : s.dropWhile p = s := by
    cases s with
    | nil => rfl
    | cons a s => exact List.dropWhile_cons_of_neg (by simp [hhead a rfl])
  rw [trim, hdrop, List.rdropWhile_eq_self_iff]
  intro hne
  simp [hlast _ (List.getLast?_eq_some_getLast hne)]

/-! ### A table behind a header -/

/-- The lines behind the first marker. -/
def tableLines (isMarker : List α → Bool) (lines : List (List α)) : List (List α) :=
  (lines.dropWhile fun line => !isMarker line).drop 1

/-- The lines up to the first marker. -/
def headerLines (isMarker : List α → Bool) (lines : List (List α)) : List (List α) :=
  lines.take ((lines.takeWhile fun line => !isMarker line).length + 1)

variable {isMarker : List α → Bool} {header : List (List α)} {marker : List α}

theorem tableLines_append (hheader : ∀ line ∈ header, isMarker line = false)
    (hmarker : isMarker marker = true) (lines : List (List α)) :
    tableLines isMarker (header ++ marker :: lines) = lines := by
  rw [tableLines, List.dropWhile_append_of_pos (by simpa using hheader),
    List.dropWhile_cons_of_neg (by simpa using hmarker), List.drop_one, List.tail_cons]

theorem headerLines_append (hheader : ∀ line ∈ header, isMarker line = false)
    (hmarker : isMarker marker = true) (lines : List (List α)) :
    headerLines isMarker (header ++ marker :: lines) = header ++ [marker] := by
  rw [headerLines, List.takeWhile_append_of_pos (by simpa using hheader),
    List.takeWhile_cons_of_neg (by simpa using hmarker), List.append_nil, List.take_append,
    List.take_of_length_le (by omega), Nat.add_sub_cancel_left]
  rfl

/-! ### Reading lines -/

variable [DecidableEq α]

theorem not_mem_of_mem_splitOn {part : List α} (h : part ∈ s.splitOn sep) : sep ∉ part := by
  rw [List.splitOn_eq_splitOnP] at h
  intro hmem
  simpa using (of_mem_splitOnP h).1 sep hmem

theorem mem_of_mem_splitOn {part : List α} (h : part ∈ s.splitOn sep) {a : α} (ha : a ∈ part) :
    a ∈ s := by
  rw [List.splitOn_eq_splitOnP] at h
  exact (of_mem_splitOnP h).2.subset ha

/-- What has no separator goes before the first part. -/
theorem splitOn_append_of_not_mem {xs : List α} (h : sep ∉ xs) (s : List α) :
    (xs ++ s).splitOn sep = (s.splitOn sep).modifyHead (xs ++ ·) := by
  induction xs with
  | nil =>
      rw [List.nil_append]
      cases s.splitOn sep <;> rfl
  | cons x xs ih =>
      obtain ⟨hx, hxs⟩ := not_or.mp (mt List.mem_cons.mpr h)
      rw [List.cons_append, List.splitOn_cons_eq_if_modifyHead,
        if_neg (by simpa using Ne.symm hx), ih hxs, List.modifyHead_modifyHead]
      rfl

/-- The lines that `std::getline` reads: none begins behind a separator at the end. -/
def getlines (sep : α) (s : List α) : List (List α) :=
  let parts := s.splitOn sep
  if parts.getLast? = some [] then parts.dropLast else parts

theorem not_mem_of_mem_getlines {line : List α} (h : line ∈ getlines sep s) : sep ∉ line := by
  unfold getlines at h
  dsimp only at h
  split_ifs at h
  · exact not_mem_of_mem_splitOn (List.dropLast_subset _ h)
  · exact not_mem_of_mem_splitOn h

theorem splitOn_unlines_append (rows : List (List α)) (s : List α) :
    (unlines sep rows ++ s).splitOn sep = rows.flatMap (·.splitOn sep) ++ s.splitOn sep := by
  simp only [List.splitOn_eq_splitOnP]
  exact splitOnP_unlines_append (by simp) rows s

theorem flatMap_splitOn (h : ∀ row ∈ rows, sep ∉ row) : rows.flatMap (·.splitOn sep) = rows := by
  simp only [List.splitOn_eq_splitOnP]
  refine flatMap_splitOnP fun row hrow a ha => beq_eq_false_iff_ne.mpr ?_
  rintro rfl
  exact h row hrow ha

/-- The first of several columns stands before a separator. -/
theorem splitOn_eq_cons_cons {first second : List α} {rest : List (List α)}
    (h : s.splitOn sep = first :: second :: rest) :
    ∃ s', s = first ++ sep :: s' ∧ s'.splitOn sep = second :: rest := by
  refine ⟨[sep].intercalate (second :: rest), ?_, ?_⟩
  · have hs : [sep].intercalate (s.splitOn sep) = s := List.intercalate_splitOn sep
    rw [h, List.intercalate_cons_cons, List.append_assoc] at hs
    exact hs.symm
  · refine List.splitOn_intercalate sep (fun part hpart => ?_) (by simp)
    exact not_mem_of_mem_splitOn (h ▸ List.mem_cons_of_mem first hpart)

theorem getlines_unlines_append (rows : List (List α)) (s : List α) :
    getlines sep (unlines sep rows ++ s) = rows.flatMap (·.splitOn sep) ++ getlines sep s := by
  have hne : s.splitOn sep ≠ [] := List.splitOn_ne_nil sep s
  unfold getlines
  dsimp only
  rw [splitOn_unlines_append, List.getLast?_append_of_ne_nil _ hne]
  split_ifs
  · exact List.dropLast_append_of_ne_nil hne
  · rfl

/-- Written once more, the parts of the rows are what was written. -/
theorem unlines_flatMap_splitOn (rows : List (List α)) :
    unlines sep (rows.flatMap (·.splitOn sep)) = unlines sep rows := by
  induction rows with
  | nil => rfl
  | cons row rows ih =>
      rw [List.flatMap_cons, unlines_append, ih,
        ← intercalate_append_sep (List.splitOn_ne_nil sep row), List.intercalate_splitOn,
        unlines_cons, List.append_assoc]
      rfl

theorem getlines_nil : getlines sep [] = [] := by
  simp [getlines]

theorem getlines_unlines (rows : List (List α)) :
    getlines sep (unlines sep rows) = rows.flatMap (·.splitOn sep) := by
  rw [← List.append_nil (unlines sep rows), getlines_unlines_append, getlines_nil, List.append_nil]

end Lines

end Dafeng
