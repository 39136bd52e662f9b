import Dafeng.Learning.RimeDict
import Dafeng.Library.Directory

/-!
# Dafeng.Learning.Replace

How the files of a learning round are replaced (`NgramTable::Save` of
`src/daemon/ngram.cc`, `YamlGenerator::Generate` and `WriteRimeDictYaml` of
`src/daemon/user_dict.cc`): each is written under a temporary name and renamed. The
stream remembers a failure; it is looked at once, behind `close`.
-/

namespace Dafeng.Learning

open Dafeng.Utf8

/-! ### The stream -/

/-- A path, and the path with `.tmp` behind it. -/
inductive FileName (φ : Type) where
  | file (path : φ)
  | temp (path : φ)
  deriving DecidableEq, Repr

/-- What the file system answers. A write that fails, or a `close`, gets the first bytes
out and no more. -/
structure Faults where
  opens : Bool := true
  write : Nat → Option Nat := fun _ => none
  close : Option Nat := none
  renames : Bool := true

/-- A `std::ofstream` on a file that was opened: whether it is good, and how far it is. -/
structure Stream where
  fd : Nat
  offset : Nat := 0
  good : Bool := true
  deriving DecidableEq, Repr

section

variable {φ : Type}

/-- A file system as a learning round sees it. -/
abbrev Disk (φ : Type) := Directory (FileName φ) UInt8

/-- An insertion. A stream that failed takes nothing. -/
def Stream.put (st : Stream) (d : Disk φ) (data : Bytes) (answer : Option Nat) :
    Disk φ × Stream :=
  if st.good then
    answer.elim (d.writeAt 0 st.fd st.offset data, { st with offset := st.offset + data.length })
      fun n => (d.writeAt 0 st.fd st.offset (data.take n), { st with good := false })
  else (d, st)

/-- The insertions of a function, of which the first is number `k`. -/
def writeAll (write : Nat → Option Nat) : Nat → List Bytes → Disk φ → Stream → Disk φ × Stream
  | _, [], d, st => (d, st)
  | k, data :: rest, d, st =>
    let (d, st) := st.put d data (write k)
    writeAll write (k + 1) rest d st

/-- `close`; what it cannot flush is lost. -/
def Stream.close (st : Stream) (d : Disk φ) : Option Nat → Disk φ × Stream
  | none => (d, st)
  | some n => (d.put st.fd ((d.bytes st.fd).take n), { st with good := false })

/-- The temporary file from `open` to `close`. -/
def writeTemp [DecidableEq φ] (faults : Faults) (path : φ) (pieces : List Bytes) (d : Disk φ) :
    Disk φ × Stream :=
  let opened := d.openTruncate (.temp path)
  let wrote := writeAll faults.write 0 pieces opened.1 { fd := opened.2 }
  wrote.2.close wrote.1 faults.close

/-- The body that the three functions share: the result, and the disk afterwards. -/
def replaceFile [DecidableEq φ] (faults : Faults) (path : φ) (pieces : List Bytes) (d : Disk φ) :
    Bool × Disk φ :=
  if !faults.opens then (false, d)
  else
    let (d, st) := writeTemp faults path pieces d
    if !st.good then (false, d)
    else if !faults.renames then (false, d)
    else
      match d.rename (.temp path) (.file path) with
      | none => (false, d)
      | some d => (true, d)

end

/-! ### What is written -/

/-- The writes for a record of `personal_ngram.bin`. -/
def recordPieces (a b : Bytes) (cnt : UInt32) : List Bytes :=
  if uint16Max < a.length ∨ uint16Max < b.length then []
  else [leBytes 2 a.length, a, leBytes 2 b.length, b, leBytes 4 cnt.toNat]

/-- The writes of `Save`. -/
def NgramTable.pieces (hash : Visit) (table : NgramTable) : List Bytes :=
  [kMagic, leBytes 4 kVersion.toNat, leBytes 4 (UInt32.ofNat table.size).toNat] ++
    (table.records hash).flatMap fun r => recordPieces r.1.1 r.1.2 r.2

/-- A byte of a double-quoted string. -/
def escapeByte (c : UInt8) : Bytes :=
  if c = 0x5C ∨ c = 0x22 then [0x5C, c]
  else if c = 0x0A then ascii "\\n"
  else if c = 0x0D then ascii "\\r"
  else if c = 0x09 then ascii "\\t"
  else if c < 0x20 then
    ascii "\\x" ++ (if c.toNat < 16 then ascii "0" else []) ++
      (Nat.toDigits 16 c.toNat).map fun d => UInt8.ofNat d.toNat
  else [c]

/-- `EscapeYamlString`. -/
def escapeYamlString (s : Bytes) : Bytes := 0x22 :: s.flatMap escapeByte ++ [0x22]

/-- A number as it is inserted. -/
def decimal (n : Nat) : Bytes := encodeText (Nat.toDigits 10 n)

/-- The writes for a word of `learned_words.yaml`. -/
def wordPieces (w : DiscoveredWord) : List Bytes :=
  [ascii "  - text: ", escapeYamlString w.text, ascii "\n"] ++
    (if w.code ≠ [] then [ascii "    code: ", escapeYamlString w.code, ascii "\n"] else []) ++
    [ascii "    frequency: ", decimal w.frequency.toNat, ascii "\n",
      ascii "    first_seen_us: ", decimal w.firstSeenUs.toNat, ascii "\n",
      ascii "    last_seen_us: ", decimal w.lastSeenUs.toNat, ascii "\n"]

/-- The writes of `Generate`. -/
def generatePieces (generated : IsoTimestamp) (words : List DiscoveredWord) : List Bytes :=
  [ascii "# Dafeng learned words.\n", ascii "# Generated at: ", encodeText generated.chars,
    ascii "\n", ascii "# Total entries: ", decimal words.length, ascii "\n",
    ascii "# DO NOT EDIT BY HAND. Regenerated each learning round.\n", ascii "---\n",
    ascii "schema:\n", ascii "  schema_id: dafeng_learned\n", ascii "  version: \"1\"\n\n",
    ascii "words:\n"] ++ words.flatMap wordPieces

/-- The writes for a row of `dafeng_learned.dict.yaml`. -/
def rowPieces (w : DiscoveredWord) : List Bytes :=
  if w.code = [] then []
  else [w.text, ascii "\t", w.code, ascii "\t", decimal w.frequency.toNat, ascii "\n"]

/-- The writes of `WriteRimeDictYaml`. -/
def rimePieces (dictName : Bytes) (generated version : IsoTimestamp)
    (words : List DiscoveredWord) : List Bytes :=
  [encodeText "# Rime dictionary — generated by dafeng-daemon\n".toList, ascii "# Generated at: ",
    encodeText generated.chars, ascii "\n", ascii "---\n", ascii "name: ", dictName, ascii "\n",
    ascii "version: \"", encodeText version.chars, ascii "\"\n", ascii "sort: by_weight\n",
    ascii "use_preset_vocabulary: false\n", ascii "columns:\n", ascii "  - text\n",
    ascii "  - code\n", ascii "  - weight\n", ascii "...\n"] ++ words.flatMap rowPieces

section

variable {φ : Type} [DecidableEq φ]

/-- `NgramTable::Save`. -/
def NgramTable.saveTo (hash : Visit) (faults : Faults) (table : NgramTable) (path : φ)
    (d : Disk φ) : Bool × Disk φ :=
  replaceFile faults path (table.pieces hash) d

/-- `YamlGenerator::Generate`. -/
def generate (faults : Faults) (generated : IsoTimestamp) (words : List DiscoveredWord)
    (outPath : φ) (d : Disk φ) : Bool × Disk φ :=
  replaceFile faults outPath (generatePieces generated words) d

/-- `WriteRimeDictYaml`. -/
def writeRimeDictTo (faults : Faults) (generated version : IsoTimestamp)
    (words : List DiscoveredWord) (outPath : φ) (dictName : Bytes) (d : Disk φ) :
    Bool × Disk φ :=
  replaceFile faults outPath (rimePieces dictName generated version words) d

end

/-- The writes of `Save` make the contents of its file. -/
theorem flatten_pieces (hash : Visit) (table : NgramTable) :
    (table.pieces hash).flatten = table.contents hash := by
  have hrecord : ∀ a b cnt, (recordPieces a b cnt).flatten = NgramTable.record a b cnt := by
    intro a b cnt
    unfold recordPieces NgramTable.record
    split_ifs <;> rfl
  have hrecords : ∀ rs : List ((Bytes × Bytes) × UInt32),
      (rs.flatMap fun r => recordPieces r.1.1 r.1.2 r.2).flatten =
        rs.flatMap fun r => NgramTable.record r.1.1 r.1.2 r.2 := by
    intro rs
    induction rs with
    | nil => rfl
    | cons r rs ih =>
        rw [List.flatMap_cons, List.flatten_append, ih, hrecord, List.flatMap_cons]
  rw [NgramTable.pieces, List.flatten_append, hrecords, NgramTable.contents]
  simp

/-- The rows of the dictionary. -/
theorem flatten_rowPieces (words : List DiscoveredWord) :
    (words.flatMap rowPieces).flatten = unlines lineFeed (words.filterMap wordRow) := by
  have hlf : ascii "\n" = [lineFeed] := by decide
  have htab : ascii "\t" = [tab] := by decide
  induction words with
  | nil => rfl
  | cons w words ih =>
      rw [List.flatMap_cons, List.flatten_append, ih, List.filterMap_cons, rowPieces, wordRow]
      split_ifs with hcode
      · rfl
      · simp [hlf, htab, tableRow, decimal]

/-- The writes of `WriteRimeDictYaml` make the dictionary. -/
theorem flatten_rimePieces (rw : RimeWrite) (words : List DiscoveredWord) :
    (rimePieces (ascii "dafeng_learned") rw.generated rw.version words).flatten =
      rimeDictYaml rw words := by
  have htitle : encodeText "# Rime dictionary — generated by dafeng-daemon\n".toList =
      encodeText "# Rime dictionary — generated by dafeng-daemon".toList ++ [lineFeed] := by decide
  have hgenerated : ascii "# Generated at: " = encodeText "# Generated at: ".toList := by decide
  have hlf : ascii "\n" = [lineFeed] := by decide
  have hname : [ascii "---\n", ascii "name: ", ascii "dafeng_learned", ascii "\n"].flatten =
      unlines lineFeed (["---".toList, "name: dafeng_learned".toList].map encodeText) := by decide
  have hversion : ascii "version: \"" = encodeText "version: \"".toList := by decide
  have hquote : ascii "\"\n" = encodeText ['"'] ++ [lineFeed] := by decide
  have hcolumns : [ascii "sort: by_weight\n", ascii "use_preset_vocabulary: false\n",
      ascii "columns:\n", ascii "  - text\n", ascii "  - code\n", ascii "  - weight\n",
      ascii "...\n"].flatten = unlines lineFeed (["sort: by_weight".toList,
        "use_preset_vocabulary: false".toList, "columns:".toList, "  - text".toList,
        "  - code".toList, "  - weight".toList, headerEnd].map encodeText) := by decide
  -- the two times stand between parts that are always the same
  have hpieces : rimePieces (ascii "dafeng_learned") rw.generated rw.version words =
      [encodeText "# Rime dictionary — generated by dafeng-daemon\n".toList] ++
        [ascii "# Generated at: ", encodeText rw.generated.chars, ascii "\n"] ++
        [ascii "---\n", ascii "name: ", ascii "dafeng_learned", ascii "\n"] ++
        [ascii "version: \"", encodeText rw.version.chars, ascii "\"\n"] ++
        [ascii "sort: by_weight\n", ascii "use_preset_vocabulary: false\n",
          ascii "columns:\n", ascii "  - text\n", ascii "  - code\n", ascii "  - weight\n",
          ascii "...\n"] ++ words.flatMap rowPieces := rfl
  have hheader : rimeHeader rw.generated rw.version ++ [headerEnd] =
      ["# Rime dictionary — generated by dafeng-daemon".toList] ++
        ["# Generated at: ".toList ++ rw.generated.chars] ++
        ["---".toList, "name: dafeng_learned".toList] ++
        ["version: \"".toList ++ rw.version.chars ++ ['"']] ++
        ["sort: by_weight".toList, "use_preset_vocabulary: false".toList, "columns:".toList,
          "  - text".toList, "  - code".toList, "  - weight".toList, headerEnd] := rfl
  rw [hpieces, rimeDictYaml, hheader]
  simp only [List.flatten_append, List.map_append, unlines_append, hname, hcolumns,
    flatten_rowPieces]
  simp only [List.flatten_cons, List.flatten_nil, List.map_cons, List.map_nil, unlines_cons,
    unlines_nil, htitle, hgenerated, hlf, hversion, hquote, encodeText_append, List.append_assoc,
    List.cons_append, List.nil_append, List.append_nil]

/-! ### Replacement -/

section

variable {φ : Type}

/-- What the insertions leave: only the open file changes, and if the stream is still good
then all of the data is behind what was there. -/
structure Appended (d d' : Disk φ) (st st' : Stream) (data : Bytes) : Prop where
  inode : d'.inode = d.inode
  others : ∀ j, j ≠ st.fd → d'.bytes j = d.bytes j
  fd : st'.fd = st.fd
  written : st'.good = true → st.good = true ∧ d'.bytes st.fd = d.bytes st.fd ++ data ∧
    st'.offset = st.offset + data.length

theorem appended_put {st : Stream} {d : Disk φ} (data : Bytes) (answer : Option Nat)
    (hend : st.good = true → st.offset = (d.bytes st.fd).length) :
    Appended d (st.put d data answer).1 st (st.put d data answer).2 data := by
  have hothers : ∀ bs j, j ≠ st.fd → (d.writeAt 0 st.fd st.offset bs).bytes j = d.bytes j := by
    intro bs j hj
    rw [Directory.writeAt, Directory.bytes_put, if_neg hj]
  by_cases hgood : st.good = true
  · cases answer with
    | none =>
        rw [Stream.put, if_pos hgood]
        refine ⟨rfl, hothers data, rfl, fun _ => ⟨hgood, ?_, rfl⟩⟩
        rw [Option.elim_none, Directory.writeAt, Directory.bytes_put, if_pos rfl, hend hgood,
          overwrite_length]
    | some n =>
        rw [Stream.put, if_pos hgood]
        exact ⟨rfl, hothers _, rfl, fun hbad => by cases hbad⟩
  · have hsame : st.put d data answer = (d, st) := if_neg hgood
    rw [hsame]
    exact ⟨rfl, fun _ _ => rfl, rfl, fun hst => absurd hst hgood⟩

theorem Appended.trans {d d₁ d₂ : Disk φ} {st st₁ st₂ : Stream} {data data' : Bytes}
    (h : Appended d d₁ st st₁ data) (h' : Appended d₁ d₂ st₁ st₂ data') :
    Appended d d₂ st st₂ (data ++ data') := by
  refine ⟨h'.inode.trans h.inode, fun j hj => ?_, h'.fd.trans h.fd, fun hgood => ?_⟩
  · rw [h'.others j (h.fd.symm ▸ hj), h.others j hj]
  · obtain ⟨hmid, hbytes', hoffset'⟩ := h'.written hgood
    obtain ⟨hst, hbytes, hoffset⟩ := h.written hmid
    rw [h.fd, hbytes] at hbytes'
    rw [hoffset] at hoffset'
    exact ⟨hst, by rw [hbytes', List.append_assoc], by rw [hoffset', List.length_append]; omega⟩

/-- A good stream stays at the end of its file. -/
theorem Appended.atEnd {d d' : Disk φ} {st st' : Stream} {data : Bytes}
    (h : Appended d d' st st' data) (hend : st.good = true → st.offset = (d.bytes st.fd).length)
    (hgood : st'.good = true) : st'.offset = (d'.bytes st'.fd).length := by
  obtain ⟨hst, hbytes, hoffset⟩ := h.written hgood
  rw [h.fd, hbytes, hoffset, hend hst, List.length_append]

theorem appended_writeAll (write : Nat → Option Nat) (k : Nat) (pieces : List Bytes)
    {d : Disk φ} {st : Stream} (hend : st.good = true → st.offset = (d.bytes st.fd).length) :
    Appended d (writeAll write k pieces d st).1 st (writeAll write k pieces d st).2
      pieces.flatten := by
  induction pieces generalizing k d st with
  | nil => exact ⟨rfl, fun _ _ => rfl, rfl, fun hgood => ⟨hgood, by simp [writeAll], rfl⟩⟩
  | cons data rest ih =>
      have hput := appended_put data (write k) hend
      exact hput.trans (ih (k + 1) (hput.atEnd hend))

theorem Appended.close {d d' : Disk φ} {st st' : Stream} {data : Bytes}
    (h : Appended d d' st st' data) (answer : Option Nat) :
    Appended d (st'.close d' answer).1 st (st'.close d' answer).2 data := by
  cases answer with
  | none => exact h
  | some n =>
      refine ⟨h.inode, fun j hj => ?_, h.fd, fun hbad => by cases hbad⟩
      rw [Stream.close]
      dsimp only
      rw [Directory.bytes_put, if_neg (h.fd.symm ▸ hj), h.others j hj]

/-- Where no write fails the stream stays good. -/
theorem good_writeAll (k : Nat) (pieces : List Bytes) {d : Disk φ} {st : Stream}
    (hgood : st.good = true) : (writeAll (fun _ => none) k pieces d st).2.good = true := by
  induction pieces generalizing k d st with
  | nil => exact hgood
  | cons data rest ih =>
      have hput : (st.put d data none).2.good = true := by
        rw [Stream.put, if_pos hgood]
        exact hgood
      exact ih (k + 1) hput

variable [DecidableEq φ]

/-- Up to `close` nothing but the temporary file changes; a good stream wrote all of it. -/
theorem writeTemp_spec (faults : Faults) (path : φ) (pieces : List Bytes) (d : Disk φ) :
    (∀ p, (writeTemp faults path pieces d).1.read (.file p) = d.read (.file p)) ∧
    ∃ fd, (writeTemp faults path pieces d).1.inode (.temp path) = some fd ∧
      ((writeTemp faults path pieces d).2.good = true →
        (writeTemp faults path pieces d).1.bytes fd = pieces.flatten) := by
  obtain ⟨hinode, hnames, hempty, -⟩ := Directory.openTruncate_spec d (.temp path)
  have hend : (d.openTruncate (.temp path)).1.bytes (d.openTruncate (.temp path)).2 = [] := hempty
  have hwrote : Appended (d.openTruncate (.temp path)).1 (writeTemp faults path pieces d).1
      { fd := (d.openTruncate (.temp path)).2 } (writeTemp faults path pieces d).2
      pieces.flatten := by
    refine (appended_writeAll faults.write 0 pieces fun _ => ?_).close faults.close
    exact (congrArg List.length hend).symm
  constructor
  · intro p
    have hother : (FileName.file p) ≠ .temp path := by simp
    rw [← Directory.read_openTruncate_of_ne (d := d) hother]
    refine Directory.read_congr (congrFun hwrote.inode _) fun i hp => hwrote.others i fun heq => ?_
    rw [(hnames _ hother).1] at hp
    exact (hnames _ hother).2 (hp.trans (congrArg some heq))
  · refine ⟨(d.openTruncate (.temp path)).2, ?_, fun hgood => ?_⟩
    · rw [hwrote.inode, hinode]
    · rw [(hwrote.written hgood).2.1, hend, List.nil_append]

/-- The two ways a replacement can go: it replaces the file, or leaves it as it was. -/
def Replaced (path : φ) (new : Bytes) (d : Disk φ) (r : Bool × Disk φ) : Prop :=
  r.1 = true ∧ r.2.read (.file path) = some new ∨
    r.1 = false ∧ r.2.read (.file path) = d.read (.file path)

/-- Whatever fails, a file is replaced as a whole or not at all, and no other one is. -/
theorem replaceFile_spec (faults : Faults) (path : φ) (pieces : List Bytes) (d : Disk φ) :
    Replaced path pieces.flatten d (replaceFile faults path pieces d) ∧
      ∀ other, other ≠ path →
        (replaceFile faults path pieces d).2.read (.file other) = d.read (.file other) := by
  obtain ⟨hkept, fd, htemp, hwritten⟩ := writeTemp_spec faults path pieces d
  have hfailed : Replaced path pieces.flatten d (false, (writeTemp faults path pieces d).1) :=
    .inr ⟨rfl, hkept path⟩
  obtain ⟨d', hrename, hfile, -, hothers, hbytes⟩ :=
    Directory.rename_spec htemp (show FileName.temp path ≠ .file path by simp)
  unfold replaceFile
  dsimp only
  rw [hrename]
  split_ifs with hopens hgood hrenames
  · -- the temporary file was not opened
    exact ⟨.inr ⟨rfl, rfl⟩, fun _ _ => rfl⟩
  · -- a write or the close failed
    exact ⟨hfailed, fun other _ => hkept other⟩
  · -- the rename failed
    exact ⟨hfailed, fun other _ => hkept other⟩
  · refine ⟨.inl ⟨rfl, ?_⟩, fun other hother => ?_⟩
    · dsimp only
      rw [Directory.read, hfile, Option.map_some, hbytes, hwritten (by simpa using hgood)]
    · dsimp only
      rw [← hkept other]
      exact Directory.read_congr (hothers _ (by simp) (by simpa using hother)) fun i _ =>
        congrFun hbytes i

/-! ### The three files -/

/-- Where nothing fails the file is replaced. -/
theorem replaceFile_succeeds (path : φ) (pieces : List Bytes) (d : Disk φ) :
    (replaceFile {} path pieces d).1 = true := by
  obtain ⟨-, fd, htemp, -⟩ := writeTemp_spec {} path pieces d
  obtain ⟨d', hrename, -⟩ :=
    Directory.rename_spec htemp (show FileName.temp path ≠ .file path by simp)
  have hgood : (writeTemp {} path pieces d).2.good = true := good_writeAll 0 pieces rfl
  unfold replaceFile
  dsimp only
  rw [hrename, hgood]
  rfl

omit [DecidableEq φ] in
theorem Replaced.eq_ite {path : φ} {new : Bytes} {d : Disk φ} {r : Bool × Disk φ}
    (h : Replaced path new d r) : (r.1, r.2.read (.file path)) =
      if r.1 then (true, some new) else (false, d.read (.file path)) := by
  rcases h with ⟨hresult, hread⟩ | ⟨hresult, hread⟩
  · rw [hresult, hread]
    rfl
  · rw [hresult, hread]
    rfl

/-- What `Save` is taken for elsewhere: one write, which happens or does not. -/
theorem saveTo_eq_save (hash : Visit) (faults : Faults) (table : NgramTable) (path : φ)
    (d : Disk φ) : ((table.saveTo hash faults path d).1,
      (table.saveTo hash faults path d).2.read (.file path)) =
      table.save hash (table.saveTo hash faults path d).1 (d.read (.file path)) := by
  have hspec := (replaceFile_spec faults path (table.pieces hash) d).1
  rw [flatten_pieces] at hspec
  exact hspec.eq_ite

theorem writeRimeDictTo_eq (faults : Faults) (rw : RimeWrite) (words : List DiscoveredWord)
    (path : φ) (d : Disk φ) {r : Bool × Disk φ}
    (hr : r = writeRimeDictTo faults rw.generated rw.version words path (ascii "dafeng_learned")
      d) : (r.1, r.2.read (.file path)) =
      writeRimeDictYaml { rw with written := r.1 } words (d.read (.file path)) := by
  have hspec := (replaceFile_spec faults path
    (rimePieces (ascii "dafeng_learned") rw.generated rw.version words) d).1
  rw [flatten_rimePieces] at hspec
  rw [hr]
  exact hspec.eq_ite

/-- **Atomic replacement by one writer.** Whatever fails of the open, the writes, the close
and the rename, each of the three functions leaves its file as it was and returns false, or
with the whole new content and returns true. So where the content is to change, it returns
true if and only if the file has the new content. -/
theorem atomic_replacement (hash : Visit) (faults : Faults) (table : NgramTable)
    (words : List DiscoveredWord) (dictName : Bytes) (generated version : IsoTimestamp) (path : φ)
    (d : Disk φ) :
    (Replaced path (table.contents hash) d (table.saveTo hash faults path d) ∧
      Replaced path (generatePieces generated words).flatten d
        (generate faults generated words path d) ∧
      Replaced path (rimePieces dictName generated version words).flatten d
        (writeRimeDictTo faults generated version words path dictName d)) ∧
    ∀ new r, Replaced path new d r → d.read (.file path) ≠ some new →
      (r.1 = true ↔ r.2.read (.file path) = some new) := by
  refine ⟨⟨?_, (replaceFile_spec ..).1, (replaceFile_spec ..).1⟩, ?_⟩
  · rw [← flatten_pieces]
    exact (replaceFile_spec ..).1
  · intro new r hr hchange
    rcases hr with ⟨hresult, hread⟩ | ⟨hresult, hread⟩
    · exact iff_of_true hresult hread
    · refine iff_of_false (by simp [hresult]) ?_
      rw [hread]
      exact hchange

end

/-- A disk with the file of an empty table, and nothing else. -/
def savedEmpty : Disk Unit where
  inode n := if n = .file () then some 0 else none
  bytes _ := NgramTable.contents .stored ∅
  next := 1
  below n i h := by
    split_ifs at h
    obtain rfl := Option.some.inj h
    exact Nat.one_pos
  distinct m n i h h' := by
    split_ifs at h h' with hm hn
    rw [hm, hn]

/-- The empty table is saved again, and the temporary file cannot be opened: the result is
false, and the file has the new content all the same. -/
theorem unchanged_content_refused :
    ¬ (((∅ : NgramTable).saveTo .stored { opens := false } () savedEmpty).1 = true ↔
      ((∅ : NgramTable).saveTo .stored { opens := false } () savedEmpty).2.read (.file ()) =
        some (NgramTable.contents .stored ∅)) := by
  intro h
  exact absurd (h.mpr rfl) (by decide)

end Dafeng.Learning
