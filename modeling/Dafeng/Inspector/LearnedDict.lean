import Dafeng.Learning.RimeDict

/-!
# Dafeng.Inspector.LearnedDict

How the Inspector reads and writes the dictionary of learned words
(`apps/inspector/Sources/DafengInspector/LearnedDict.swift`). A string is the list
of its Unicode scalars. Where the Swift library looks at whole characters, this
makes a difference in two places only: a `#` or a line feed that a neighbouring
scalar joins is not one.
-/

namespace Dafeng.Inspector

open Dafeng.Utf8 Dafeng.Learning

/-! ### Strings -/

/-- `Character.isNewline`. -/
def isNewline (c : Char) : Bool :=
  (0x0A ≤ c.toNat && c.toNat ≤ 0x0D) || c.toNat == 0x85 || c.toNat == 0x2028 || c.toNat == 0x2029

/-- `CharacterSet.whitespaces`: the space separators and the tab. -/
def isWhitespace (c : Char) : Bool :=
  c.toNat == 0x09 || c.toNat == 0x20 || c.toNat == 0xA0 || c.toNat == 0x1680 ||
    (0x2000 ≤ c.toNat && c.toNat ≤ 0x200A) || c.toNat == 0x202F || c.toNat == 0x205F ||
    c.toNat == 0x3000

/-- `CharacterSet.whitespacesAndNewlines`. -/
def isWhitespaceOrNewline (c : Char) : Bool := isWhitespace c || isNewline c

/-- ASCII digits as a 64-bit integer. -/
def parseDigits (negative : Bool) (digits : List Char) : Option Int :=
  if digits ≠ [] ∧ digits.all Char.isDigit then
    let magnitude : Int := Nat.ofDigitChars 10 digits 0
    let value := if negative then -magnitude else magnitude
    if -2 ^ 63 ≤ value ∧ value < 2 ^ 63 then some value else none
  else none

/-- `Int.init?(_: String)`: digits behind an optional sign. -/
def parseInt : List Char → Option Int
  | '-' :: digits => parseDigits true digits
  | '+' :: digits => parseDigits false digits
  | digits => parseDigits false digits

/-- How an integer is interpolated. -/
def printInt (n : Int) : List Char :=
  if n < 0 then '-' :: Nat.toDigits 10 n.natAbs else Nat.toDigits 10 n.natAbs

/-! ### Entries -/

/-- Text, code and weight. -/
abbrev Columns := List Char × List Char × Int

/-- `LearnedEntry`. The id stands for the UUID that each entry is made with. -/
structure LearnedEntry where
  id : Nat
  text : List Char
  code : List Char
  weight : Int
  deriving DecidableEq, Repr

/-- `LearnedDictError`, without the messages. -/
inductive LearnedDictError where
  | fileMissing
  | readFailed
  | writeFailed
  | parseFailed
  deriving DecidableEq, Repr

/-- The comparison of `save`, `($0.weight, $0.code) > ($1.weight, $1.code)`. -/
def savedBefore (greater : List Char → List Char → Bool) (a b : LearnedEntry) : Bool :=
  if a.weight ≠ b.weight then b.weight < a.weight else greater a.code b.code

/-- What the Swift library leaves open here: which scalars join the one before them
in one character, the order of strings, and what a sort does to equal elements. -/
structure Swift where
  joins : Char → Bool
  greater : List Char → List Char → Bool
  sorter : Sorter (savedBefore greater)

theorem savedBefore_eq_false {greater : List Char → List Char → Bool} {a b : LearnedEntry} :
    savedBefore greater b a = false ↔
      b.weight < a.weight ∨ a.weight = b.weight ∧ greater b.code a.code = false := by
  unfold savedBefore
  split_ifs with h
  · rw [decide_eq_false_iff_not]
    omega
  · rw [not_not.mp h]
    simp

/-- Combining marks join, strings are in the order of their scalars, and the sort is
stable. -/
def Swift.scalars : Swift where
  joins c := 0x300 ≤ c.toNat && c.toNat ≤ 0x36F || c.toNat == 0x200D
  greater a b := decide (b < a)
  sorter := .insertion _
    (fun a b => by
      rw [savedBefore_eq_false, savedBefore_eq_false, decide_eq_false_iff_not,
        decide_eq_false_iff_not]
      rcases Int.lt_trichotomy a.weight b.weight with h | h | h
      · exact .inr (.inl h)
      · by_cases hlt : a.code < b.code
        · exact .inr (.inr ⟨h.symm, List.lt_asymm hlt⟩)
        · exact .inl (.inr ⟨h, hlt⟩)
      · exact .inl (.inl h))
    fun a b c => by
      rw [savedBefore_eq_false, savedBefore_eq_false, savedBefore_eq_false,
        decide_eq_false_iff_not, decide_eq_false_iff_not, decide_eq_false_iff_not]
      rintro (hab | ⟨hab, hcode⟩) (hbc | ⟨hbc, hcode'⟩)
      · exact .inl (by omega)
      · exact .inl (by omega)
      · exact .inl (by omega)
      · have hle := Std.le_trans (Std.not_lt.mp hcode') (Std.not_lt.mp hcode)
        exact .inr ⟨by omega, Std.not_lt.mpr hle⟩

/-- `hasPrefix("#")`. -/
def hasHashPrefix (swift : Swift) : List Char → Bool
  | '#' :: rest => !rest.head?.any swift.joins
  | _ => false

/-- `hasSuffix("\n")`. A line feed behind a carriage return is one character with
it. -/
def hasNewlineSuffix (s : List Char) : Bool :=
  match s.reverse with
  | '\n' :: '\r' :: _ => false
  | '\n' :: _ => true
  | _ => false

/-! ### Load -/

/-- The columns of a line of the body, if it is an entry. -/
def parseLine (swift : Swift) (raw : List Char) : Option Columns :=
  let line := trim isWhitespaceOrNewline raw
  if line = [] ∨ hasHashPrefix swift line then none
  else
    match line.splitOn '\t' with
    | text :: code :: rest => some (text, code, (rest.head?.bind parseInt).getD 1)
    | _ => none

/-- Whether a line ends the header. -/
def endsHeader (line : List Char) : Bool := trim isWhitespace line == headerEnd

/-- `splitHeaderBody`. -/
def splitHeaderBody (raw : List Char) : List Char × List Char :=
  let lines := raw.splitOn '\n'
  match lines.dropWhile fun line => !endsHeader line with
  | [] => ([], raw)
  | last :: body =>
    (['\n'].intercalate ((lines.takeWhile fun line => !endsHeader line) ++ [last]) ++ ['\n'],
      ['\n'].intercalate body)

/-- The entries of a body, as columns. -/
def parseBody (swift : Swift) (body : List Char) : List Columns :=
  ((body.splitOnP isNewline).filter (· ≠ [])).filterMap (parseLine swift)

/-- Entries with ids from `next` on. -/
def makeEntries (next : Nat) (columns : List Columns) : List LearnedEntry :=
  columns.zipIdx.map fun p =>
    { id := next + p.2, text := p.1.1, code := p.1.2.1, weight := p.1.2.2 }

/-- `LearnedDict.load`, on the contents of the file. -/
def load (swift : Swift) (next : Nat) :
    Option Bytes → Except LearnedDictError (List Char × List LearnedEntry)
  | none => .error .fileMissing
  | some contents =>
    match decodeText contents with
    | none => .error .readFailed
    | some raw =>
      let (header, body) := splitHeaderBody raw
      .ok (header, makeEntries next (parseBody swift body))

/-! ### Save -/

/-- The columns of an entry. -/
def LearnedEntry.columns (e : LearnedEntry) : Columns :=
  (e.text, e.code, e.weight)

/-- A line of `save`. -/
def printLine (columns : Columns) : List Char :=
  columns.1 ++ '\t' :: columns.2.1 ++ '\t' :: printInt columns.2.2

/-- What `save` writes. -/
def saved (swift : Swift) (header : List Char) (entries : List LearnedEntry) : List Char :=
  (if hasNewlineSuffix header then header else header ++ ['\n']) ++
    unlines '\n' ((swift.sorter.sort entries).map fun e => printLine e.columns)

/-- `LearnedDict.save`: its error, and the file afterwards. -/
def save (swift : Swift) (written : Bool) (header : List Char) (entries : List LearnedEntry)
    (file : Option Bytes) : Option LearnedDictError × Option Bytes :=
  if written then (none, some (encodeText (saved swift header entries)))
  else (some .writeFailed, file)

end Dafeng.Inspector
