import Mathlib.Data.List.TakeWhile
import Dafeng.Library.Bytes

/-!
# Dafeng.Library.Shell

How a POSIX shell reads a command text. The lexer goes through the text byte by
byte, with the quoting rules as its states, and gives the tokens; a simple
command is put together from them: assignments, words and redirections.

A text is read only where its meaning does not depend on the environment: an
unquoted `$` or backquote, a tilde that expands and an unquoted pattern
character give no reading, and neither do an unterminated quote and a control
operator (a second command). Bytes are the shell's characters, as in the POSIX
locale.
-/

namespace Dafeng.Shell

/-- A byte of a word, and whether it was quoted. -/
structure Letter where
  byte : UInt8
  quoted : Bool
  deriving DecidableEq

/-- A token. The digits in front of `<` or `>` are a token of their own. -/
inductive Token
  | word (letters : List Letter)
  | ioNumber (digits : Bytes)
  | operator (symbol : Bytes)
  deriving DecidableEq

/-- What is under way outside of quotes. -/
inductive Place
  | between
  | word (letters : List Letter)
  | operator (symbol : Bytes)
  deriving DecidableEq

/-- The quoting states. `escaped` says that a backslash was read just before. -/
inductive Mode
  | plain (place : Place) (escaped : Bool)
  | single (letters : List Letter)
  | double (letters : List Letter) (escaped : Bool)
  | comment
  | expansion
  deriving DecidableEq

/-- The tokens that ended, and the state. -/
structure Lexer where
  tokens : List Token := []
  mode : Mode := .plain .between false
  deriving DecidableEq

/-! ### The lexer -/

/-- The control and redirection operators. -/
def operators : List Bytes :=
  ["|", "&", ";", "<", ">", "(", ")", "\n", "&&", "||", ";;", "<<", ">>", "<&", ">&", "<>", "<<-",
    ">|"].map ascii

/-- The operators that redirect, here-documents apart. -/
def redirectors : List Bytes := ["<", ">", ">>", "<&", ">&", "<>", ">|"].map ascii

/-- The bytes that begin an operator. -/
def operatorBytes : Bytes := ascii "|&;<>()\n"

def blanks : Bytes := ascii " \t"

/-- The bytes that begin an expansion: `$` and the backquote. -/
def expanders : Bytes := [0x24, 0x60]

/-- The letters of the word under way. -/
def Place.letters : Place → List Letter
  | .word letters => letters
  | _ => []

def Place.isWord : Place → Bool
  | .word _ => true
  | _ => false

/-- The token that ends where a word begins or goes on. -/
def Place.before : Place → List Token
  | .operator symbol => [.operator symbol]
  | _ => []

/-- The token that ends at a blank or at the end of the text. -/
def Place.ended : Place → List Token
  | .word letters => [.word letters]
  | place => place.before

def isDigit (c : UInt8) : Bool := decide (0x30 ≤ c ∧ c ≤ 0x39)

/-- The token that ends where the operator byte `c` begins an operator. -/
def Place.endedBy (place : Place) (c : UInt8) : List Token :=
  if place.letters ≠ [] ∧ place.letters.all (fun l => !l.quoted && isDigit l.byte) = true ∧
      c ∈ ascii "<>" then [.ioNumber (place.letters.map (·.byte))]
  else place.ended

/-- The longer operator that `c` makes of the one under way. -/
def Place.extended (place : Place) (c : UInt8) : Option Bytes :=
  match place with
  | .operator symbol => if symbol ++ [c] ∈ operators then some (symbol ++ [c]) else none
  | _ => none

/-- A byte outside of quotes, not escaped. -/
def stepPlain (tokens : List Token) (place : Place) (c : UInt8) : Lexer :=
  if (place.extended c).isSome then
    ⟨tokens, .plain (.operator ((place.extended c).getD [])) false⟩
  else if c = 0x5C then ⟨tokens, .plain place true⟩
  else if c = 0x27 then ⟨tokens ++ place.before, .single place.letters⟩
  else if c = 0x22 then ⟨tokens ++ place.before, .double place.letters false⟩
  else if c ∈ expanders then ⟨tokens, .expansion⟩
  else if c ∈ operatorBytes then ⟨tokens ++ place.endedBy c, .plain (.operator [c]) false⟩
  else if c ∈ blanks then ⟨tokens ++ place.ended, .plain .between false⟩
  else if c = 0x23 ∧ place.isWord = false then ⟨tokens ++ place.ended, .comment⟩
  else ⟨tokens ++ place.before, .plain (.word (place.letters ++ [⟨c, false⟩])) false⟩

/-- One byte. -/
def Lexer.step (l : Lexer) (c : UInt8) : Lexer :=
  match l.mode with
  | .plain place false => stepPlain l.tokens place c
  | .plain place true =>
      -- A line continuation leaves nothing behind, not even the end of a token.
      if c = 0x0A then ⟨l.tokens, .plain place false⟩
      else ⟨l.tokens ++ place.before, .plain (.word (place.letters ++ [⟨c, true⟩])) false⟩
  | .single letters =>
      if c = 0x27 then ⟨l.tokens, .plain (.word letters) false⟩
      else ⟨l.tokens, .single (letters ++ [⟨c, true⟩])⟩
  | .double letters false =>
      if c = 0x22 then ⟨l.tokens, .plain (.word letters) false⟩
      else if c = 0x5C then ⟨l.tokens, .double letters true⟩
      else if c ∈ expanders then ⟨l.tokens, .expansion⟩
      else ⟨l.tokens, .double (letters ++ [⟨c, true⟩]) false⟩
  | .double letters true =>
      if c = 0x0A then ⟨l.tokens, .double letters false⟩
      else if c = 0x22 ∨ c = 0x5C ∨ c ∈ expanders then
        ⟨l.tokens, .double (letters ++ [⟨c, true⟩]) false⟩
      else ⟨l.tokens, .double (letters ++ [⟨0x5C, true⟩, ⟨c, true⟩]) false⟩
  | .comment => if c = 0x0A then ⟨l.tokens, .plain (.operator [c]) false⟩ else l
  | .expansion => l

def Lexer.run (l : Lexer) (text : Bytes) : Lexer := text.foldl Lexer.step l

/-- The end of the text. -/
def Lexer.finish (l : Lexer) : Option (List Token) :=
  match l.mode with
  | .plain place false => some (l.tokens ++ place.ended)
  | .comment => some l.tokens
  | _ => none

/-- The tokens of a text. -/
def tokenize (text : Bytes) : Option (List Token) := (Lexer.run {} text).finish

/-! ### Simple commands -/

/-- The bytes of a word once its quotes are removed. -/
def bytesOf (letters : List Letter) : Bytes := letters.map (·.byte)

/-- A redirection: the number in front, the operator, the target. -/
structure Redirection where
  number : Option Bytes
  operator : Bytes
  target : Bytes
  deriving DecidableEq

/-- A simple command. -/
structure Command where
  assignments : List (Bytes × Bytes) := []
  words : List Bytes := []
  redirections : List Redirection := []
  deriving DecidableEq

def isNameByte (c : UInt8) : Bool :=
  decide (0x61 ≤ c ∧ c ≤ 0x7A ∨ 0x41 ≤ c ∧ c ≤ 0x5A ∨ c = 0x5F)

/-- The letters are an unquoted name. -/
def isName (letters : List Letter) : Bool :=
  letters.all (fun l => !l.quoted && (isNameByte l.byte || isDigit l.byte)) &&
    (letters.head?.map fun l => isNameByte l.byte).getD false

def equalsSign : Letter := ⟨0x3D, false⟩

/-- What stands in front of the first unquoted equals sign. -/
def nameOf (letters : List Letter) : List Letter := letters.takeWhile (· ≠ equalsSign)

/-- What stands behind the equals sign. -/
def valueOf (letters : List Letter) : List Letter := (letters.dropWhile (· ≠ equalsSign)).tail

/-- The word is an assignment: a name, and an unquoted equals sign behind it. -/
def isAssignment (letters : List Letter) : Bool :=
  decide (equalsSign ∈ letters) && isName (nameOf letters)

/-- The letters begin with a tilde that expands: all is unquoted up to the end of its prefix. -/
def startsTilde (ends : Bytes) (letters : List Letter) : Bool :=
  letters.head? = some ⟨0x7E, false⟩ &&
    (letters.takeWhile fun l => l.quoted || l.byte ∉ ends).all fun l => !l.quoted

/-- A tilde behind an unquoted colon expands. -/
def colonTilde : List Letter → Bool
  | [] => false
  | l :: rest => l = ⟨0x3A, false⟩ && startsTilde (ascii "/:") rest || colonTilde rest

/-- A tilde expands at the beginning of a value, or behind a colon. -/
def hasTilde (value : List Letter) : Bool :=
  startsTilde (ascii "/:") value || colonTilde value

/-- The text of an assignment's value. -/
def valueText (value : List Letter) : Option Bytes :=
  if hasTilde value then none else some (bytesOf value)

/-- The text of a word. -/
def wordText (letters : List Letter) : Option Bytes :=
  if startsTilde (ascii "/") letters ||
      letters.any (fun l => !l.quoted && l.byte ∈ ascii "*?[") then none
  else some (bytesOf letters)

/-- The reserved words. -/
def reserved : List Bytes :=
  ["!", "\x7b", "\x7d", "case", "do", "done", "elif", "else", "esac", "fi", "for", "if", "in",
    "then", "until", "while"].map ascii

def isReserved (letters : List Letter) : Bool :=
  letters.all (fun l => !l.quoted) && decide (bytesOf letters ∈ reserved)

/-- A word: an assignment in front of the command's name, else one of its words. -/
def Command.addWord (c : Command) (letters : List Letter) : Option Command :=
  if c.words = [] ∧ isAssignment letters = true then
    (valueText (valueOf letters)).map fun value =>
      { c with assignments := c.assignments ++ [(bytesOf (nameOf letters), value)] }
  else if c = {} ∧ isReserved letters = true then none
  else (wordText letters).map fun text => { c with words := c.words ++ [text] }

/-- A redirection. -/
def Command.redirect (c : Command) (number : Option Bytes) (operator : Bytes)
    (target : List Letter) : Option Command :=
  if operator ∈ redirectors then
    (wordText target).map fun text =>
      { c with redirections := c.redirections ++ [⟨number, operator, text⟩] }
  else none

/-- The tokens as one simple command, behind what was read of it. -/
def simpleCommand (c : Command) : List Token → Option Command
  | [] => some c
  | .word letters :: rest => (c.addWord letters).bind fun c => simpleCommand c rest
  | .ioNumber digits :: .operator symbol :: .word target :: rest =>
      (c.redirect (some digits) symbol target).bind fun c => simpleCommand c rest
  | .operator symbol :: .word target :: rest =>
      (c.redirect none symbol target).bind fun c => simpleCommand c rest
  | _ => none

/-- The simple command that a text is, if it is one. -/
def readCommand (text : Bytes) : Option Command := (tokenize text).bind (simpleCommand {})

/-- What `std::system` hands to the shell: a C string ends at its first NUL. -/
def commandLine (text : Bytes) : Bytes := text.takeWhile (· != 0)

theorem commandLine_eq {text : Bytes} (h : 0 ∉ text) : commandLine text = text :=
  List.takeWhile_eq_self_iff.mpr fun c hc => by simpa using ne_of_mem_of_not_mem hc h

/-! ### Texts that stand for themselves -/

section Runs

variable {tokens : List Token} {place : Place} {w : List Letter} {text : Bytes} {c : UInt8}

/-- Letters without quotes. -/
def unquoted (text : Bytes) : List Letter := text.map fun c => ⟨c, false⟩

/-- Letters inside quotes. -/
def quoted (text : Bytes) : List Letter := text.map fun c => ⟨c, true⟩

@[simp] theorem bytesOf_nil : bytesOf [] = [] := rfl

@[simp] theorem bytesOf_append (w w' : List Letter) :
    bytesOf (w ++ w') = bytesOf w ++ bytesOf w' :=
  List.map_append

@[simp] theorem length_bytesOf (w : List Letter) : (bytesOf w).length = w.length := by
  simp [bytesOf]

@[simp] theorem bytesOf_unquoted (text : Bytes) : bytesOf (unquoted text) = text := by
  simp [bytesOf, unquoted, Function.comp_def]

@[simp] theorem bytesOf_quoted (text : Bytes) : bytesOf (quoted text) = text := by
  simp [bytesOf, quoted, Function.comp_def]

@[simp] theorem length_unquoted (text : Bytes) : (unquoted text).length = text.length := by
  simp [unquoted]

@[simp] theorem length_quoted (text : Bytes) : (quoted text).length = text.length := by
  simp [quoted]

/-- The shell reads the byte as itself in an unquoted word. -/
def isPlain (c : UInt8) : Bool :=
  decide (c ∉ [0x5C, 0x27, 0x22] ++ expanders ++ operatorBytes ++ blanks)

/-- The lexer behind tokens that ended before. -/
def Lexer.behind (l : Lexer) (tokens : List Token) : Lexer := ⟨tokens ++ l.tokens, l.mode⟩

@[simp] theorem run_nil (l : Lexer) : l.run [] = l := rfl

@[simp] theorem run_cons (l : Lexer) (c : UInt8) (text : Bytes) :
    l.run (c :: text) = (l.step c).run text := rfl

theorem run_append (l : Lexer) (text text' : Bytes) :
    l.run (text ++ text') = (l.run text).run text' :=
  List.foldl_append

theorem step_behind (tokens : List Token) (l : Lexer) (c : UInt8) :
    (l.behind tokens).step c = (l.step c).behind tokens := by
  obtain ⟨tokens', mode⟩ := l
  cases mode with
  | plain place escaped =>
      cases escaped <;> simp only [Lexer.behind, Lexer.step, stepPlain] <;> split_ifs <;> simp
  | double w escaped =>
      cases escaped <;> simp only [Lexer.behind, Lexer.step] <;> split_ifs <;> rfl
  | expansion => rfl
  | _ =>
      simp only [Lexer.behind, Lexer.step]
      split_ifs <;> rfl

/-- Tokens that ended play no part in what follows. -/
theorem run_behind (tokens : List Token) (l : Lexer) (text : Bytes) :
    (l.behind tokens).run text = (l.run text).behind tokens := by
  induction text generalizing l with
  | nil => rfl
  | cons c text ih => rw [run_cons, run_cons, step_behind, ih]

/-- What ended stays. -/
theorem tokens_run (l : Lexer) (text : Bytes) : l.tokens <+: (l.run text).tokens := by
  have hl : l = (Lexer.mk [] l.mode).behind l.tokens := by simp [Lexer.behind]
  have hrun := run_behind l.tokens (Lexer.mk [] l.mode) text
  rw [← hl] at hrun
  rw [hrun]
  exact List.prefix_append _ _

@[simp] theorem step_blank (tokens : List Token) (w : List Letter) :
    (Lexer.mk tokens (.plain (.word w) false)).step 0x20 =
      ⟨tokens ++ [.word w], .plain .between false⟩ :=
  rfl

theorem isPlain_iff : isPlain c = true ↔
    c ≠ 0x5C ∧ c ≠ 0x27 ∧ c ≠ 0x22 ∧ c ∉ expanders ∧ c ∉ operatorBytes ∧ c ∉ blanks := by
  simp [isPlain]

/-- A byte that does not go on with an operator, past the first guard of the lexer. -/
theorem stepPlain_of_not_extended (h : place.extended c = none) :
    stepPlain tokens place c =
      if c = 0x5C then ⟨tokens, .plain place true⟩
      else if c = 0x27 then ⟨tokens ++ place.before, .single place.letters⟩
      else if c = 0x22 then ⟨tokens ++ place.before, .double place.letters false⟩
      else if c ∈ expanders then ⟨tokens, .expansion⟩
      else if c ∈ operatorBytes then ⟨tokens ++ place.endedBy c, .plain (.operator [c]) false⟩
      else if c ∈ blanks then ⟨tokens ++ place.ended, .plain .between false⟩
      else if c = 0x23 ∧ place.isWord = false then ⟨tokens ++ place.ended, .comment⟩
      else ⟨tokens ++ place.before, .plain (.word (place.letters ++ [⟨c, false⟩])) false⟩ := by
  have hsome : ¬(place.extended c).isSome = true := by simp [h]
  rw [stepPlain, if_neg hsome]

/-- A plain byte goes on with a word, or begins one. -/
theorem stepPlain_plain (h : isPlain c = true) (hext : place.extended c = none)
    (hc : ¬(c = 0x23 ∧ place.isWord = false)) : stepPlain tokens place c =
      ⟨tokens ++ place.before, .plain (.word (place.letters ++ [⟨c, false⟩])) false⟩ := by
  obtain ⟨hb, hq, hd, he, ho, hbl⟩ := isPlain_iff.mp h
  rw [stepPlain_of_not_extended hext, if_neg hb, if_neg hq, if_neg hd, if_neg he, if_neg ho,
    if_neg hbl, if_neg hc]

theorem step_word (h : isPlain c = true) :
    (Lexer.mk tokens (.plain (.word w) false)).step c =
      ⟨tokens, .plain (.word (w ++ unquoted [c])) false⟩ := by
  show stepPlain tokens (.word w) c = _
  rw [stepPlain_plain h rfl (fun hc => Bool.noConfusion hc.2)]
  simp only [Place.before, Place.letters, List.append_nil]
  rfl

theorem step_between (h : isPlain c = true) (hc : c ≠ 0x23) :
    (Lexer.mk tokens (.plain .between false)).step c =
      ⟨tokens, .plain (.word (unquoted [c])) false⟩ := by
  show stepPlain tokens .between c = _
  rw [stepPlain_plain h rfl (fun hcomment => hc hcomment.1)]
  simp only [Place.before, Place.letters, List.append_nil, List.nil_append]
  rfl

/-- Plain bytes go on with a word. -/
theorem run_word (h : ∀ c ∈ text, isPlain c = true) :
    (Lexer.mk tokens (.plain (.word w) false)).run text =
      ⟨tokens, .plain (.word (w ++ unquoted text)) false⟩ := by
  induction text generalizing w with
  | nil => simp [unquoted]
  | cons c text ih =>
      rw [run_cons, step_word (h c List.mem_cons_self),
        ih fun c hc => h c (List.mem_cons_of_mem _ hc)]
      simp [unquoted]

/-- Plain bytes begin a word, where the first does not begin a comment. -/
def beginsWord (text : Bytes) : Bool :=
  text.all isPlain && text != [] && text.head? != some 0x23

theorem beginsWord_iff : beginsWord text = true ↔
    (∀ c ∈ text, isPlain c = true) ∧ text ≠ [] ∧ text.head? ≠ some 0x23 := by
  simp [beginsWord, and_assoc]

theorem run_between (h : beginsWord text = true) :
    (Lexer.mk tokens (.plain .between false)).run text =
      ⟨tokens, .plain (.word (unquoted text)) false⟩ := by
  obtain ⟨h, hne, hc⟩ := beginsWord_iff.mp h
  cases text with
  | nil => exact absurd rfl hne
  | cons c text =>
      rw [run_cons, step_between (h c List.mem_cons_self) (by simpa using hc),
        run_word fun c hc => h c (List.mem_cons_of_mem _ hc)]
      rfl

/-- Inside single quotes every byte but the quote stands for itself. -/
theorem run_single (h : 0x27 ∉ text) :
    (Lexer.mk tokens (.single w)).run text = ⟨tokens, .single (w ++ quoted text)⟩ := by
  induction text generalizing w with
  | nil => simp [quoted]
  | cons c text ih =>
      obtain ⟨hc, htext⟩ := not_or.mp (mt List.mem_cons.mpr h)
      rw [run_cons]
      simp only [Lexer.step, if_neg (Ne.symm hc)]
      rw [ih htext]
      simp [quoted]

/-- Inside double quotes too, the bytes that escape or expand apart. -/
theorem run_double (h : ∀ c ∈ text, c ≠ 0x22 ∧ c ≠ 0x5C ∧ c ∉ expanders) :
    (Lexer.mk tokens (.double w false)).run text = ⟨tokens, .double (w ++ quoted text) false⟩ := by
  induction text generalizing w with
  | nil => simp [quoted]
  | cons c text ih =>
      obtain ⟨hd, hb, he⟩ := h c List.mem_cons_self
      rw [run_cons]
      simp only [Lexer.step, if_neg hd, if_neg hb, if_neg he]
      rw [ih fun c hc => h c (List.mem_cons_of_mem _ hc)]
      simp [quoted]

/-- A comment goes on to the end of the line. -/
theorem run_comment (h : 0x0A ∉ text) :
    (Lexer.mk tokens .comment).run text = ⟨tokens, .comment⟩ := by
  induction text with
  | nil => rfl
  | cons c text ih =>
      obtain ⟨hc, htext⟩ := not_or.mp (mt List.mem_cons.mpr h)
      rw [run_cons]
      simp only [Lexer.step, if_neg (Ne.symm hc)]
      exact ih htext

theorem run_expansion (tokens : List Token) (text : Bytes) :
    (Lexer.mk tokens .expansion).run text = ⟨tokens, .expansion⟩ := by
  induction text with
  | nil => rfl
  | cons c text ih => exact ih

/-- Only a byte that ends some operator goes on with one. -/
theorem extended_eq_none (h : ∀ op ∈ operators, op.getLast? ≠ some c) :
    place.extended c = none := by
  cases place with
  | operator symbol =>
      have hno : symbol ++ [c] ∉ operators := fun hmem => h _ hmem (by simp)
      simp [Place.extended, hno]
  | _ => rfl

/-- A single quote opens a quoted text. -/
theorem step_quote (tokens : List Token) (place : Place) :
    (Lexer.mk tokens (.plain place false)).step 0x27 =
      ⟨tokens ++ place.before, .single place.letters⟩ := by
  have hext : place.extended 0x27 = none := extended_eq_none (by decide)
  show stepPlain tokens place 0x27 = _
  rw [stepPlain_of_not_extended hext]
  rfl

/-- A text between single quotes goes on with a word, or begins one. -/
theorem run_singleQuoted (h : 0x27 ∉ text) :
    (Lexer.mk tokens (.plain place false)).run (0x27 :: text ++ [0x27]) =
      ⟨tokens ++ place.before, .plain (.word (place.letters ++ quoted text)) false⟩ := by
  rw [List.cons_append, run_cons, step_quote, run_append, run_single h]
  simp [Lexer.step]

end Runs

/-! ### How much a text can give -/

/-- The text of a word. -/
def Token.text : Token → Option Bytes
  | .word letters => some (bytesOf letters)
  | _ => none

/-- The bytes of a token, and the blank or the first byte of the operator that ends it. -/
def Token.size : Token → Nat
  | .word letters => letters.length + 1
  | .ioNumber digits => digits.length + 1
  | .operator symbol => symbol.length - 1

def Place.size : Place → Nat
  | .between => 0
  | .word letters => letters.length
  | .operator symbol => symbol.length - 1

@[simp] theorem size_between : Place.between.size = 0 := rfl

@[simp] theorem size_word (letters : List Letter) : (Place.word letters).size = letters.length :=
  rfl

@[simp] theorem size_operator (symbol : Bytes) :
    (Place.operator symbol).size = symbol.length - 1 :=
  rfl

def Mode.size : Mode → Nat
  | .plain place _ => place.size
  | .single letters | .double letters _ => letters.length
  | .comment | .expansion => 0

/-- The bytes that the state has made something of. -/
def Lexer.size (l : Lexer) : Nat := (l.tokens.map Token.size).sum + l.mode.size

/-- A double quote that has not ended takes one more byte. -/
def Mode.owed : Mode → Nat
  | .double _ false => 1
  | _ => 0

/-- What a quoting state has cost without giving anything yet. -/
def Mode.lost : Mode → Nat
  | .single _ | .double _ false | .comment => 1
  | .double _ true => 2
  | _ => 0

theorem owed_le_lost (mode : Mode) : mode.owed ≤ mode.lost := by
  cases mode with
  | double w escaped => cases escaped <;> simp [Mode.owed, Mode.lost]
  | _ => simp [Mode.owed]

section Sizes

/-- Words take their bytes, and the blank behind them. -/
theorem sum_size_of_text {tokens : List Token} {texts : List Bytes}
    (h : tokens.map Token.text = texts.map some) :
    (tokens.map Token.size).sum = (texts.map fun t => t.length + 1).sum := by
  induction tokens generalizing texts with
  | nil =>
      obtain rfl : texts = [] := by simpa using h.symm
      rfl
  | cons token tokens ih =>
      cases texts with
      | nil => simp at h
      | cons text texts =>
          obtain ⟨hhead, htail⟩ := List.cons.inj h
          cases token with
          | word letters =>
              obtain rfl : bytesOf letters = text := Option.some.inj hhead
              simp [Token.size, ih htail]
          | ioNumber digits => simp [Token.text] at hhead
          | operator symbol => simp [Token.text] at hhead

variable {tokens : List Token} {place : Place} {w : List Letter} {text : Bytes} {c : UInt8}

theorem size_before (place : Place) :
    (place.before.map Token.size).sum + place.letters.length = place.size := by
  cases place <;> simp [Place.before, Place.letters, Place.size, Token.size]

theorem size_ended (place : Place) : (place.ended.map Token.size).sum ≤ place.size + 1 := by
  cases place <;> simp [Place.ended, Place.before, Place.size, Token.size]

theorem size_ended_of_not_word (h : place.isWord = false) :
    (place.ended.map Token.size).sum = place.size := by
  cases place with
  | word letters => simp [Place.isWord] at h
  | _ => simp [Place.ended, Place.before, Place.size, Token.size]

theorem size_endedBy (place : Place) (c : UInt8) :
    ((place.endedBy c).map Token.size).sum ≤ place.size + 1 := by
  unfold Place.endedBy
  split_ifs
  · cases place <;> simp [Place.letters, Place.size, Token.size]
  · exact size_ended place

theorem size_extended {symbol : Bytes} (h : place.extended c = some symbol) :
    symbol.length - 1 ≤ place.size + 1 := by
  cases place with
  | operator s =>
      simp only [Place.extended, Option.ite_none_right_eq_some, Option.some.injEq] at h
      obtain ⟨-, rfl⟩ := h
      simp [Place.size]
      omega
  | _ => simp [Place.extended] at h

/-- What a step gives for its byte: at most one byte, what a double quote owes apart, and
less by what its quoting costs. -/
structure StepCost (l l' : Lexer) : Prop where
  gain : l'.size + l.mode.owed ≤ l.size + 1 + l'.mode.owed
  cost : l'.size + l'.mode.lost ≤ l.size + l.mode.lost + 1

/-- A step that ends the tokens `ts`. -/
theorem StepCost.of_ended {tokens ts : List Token} {mode mode' : Mode}
    (hgain : (ts.map Token.size).sum + mode'.size + mode.owed ≤ mode.size + 1 + mode'.owed)
    (hcost : (ts.map Token.size).sum + mode'.size + mode'.lost ≤ mode.size + mode.lost + 1) :
    StepCost ⟨tokens, mode⟩ ⟨tokens ++ ts, mode'⟩ := by
  constructor
  · simp only [Lexer.size, List.map_append, List.sum_append]
    omega
  · simp only [Lexer.size, List.map_append, List.sum_append]
    omega

/-- A step that ends no token. -/
theorem StepCost.of_mode {tokens : List Token} {mode mode' : Mode}
    (hgain : mode'.size + mode.owed ≤ mode.size + 1 + mode'.owed)
    (hcost : mode'.size + mode'.lost ≤ mode.size + mode.lost + 1) :
    StepCost ⟨tokens, mode⟩ ⟨tokens, mode'⟩ := by
  constructor
  · simp only [Lexer.size]
    omega
  · simp only [Lexer.size]
    omega

theorem stepCost_plain (tokens : List Token) (place : Place) (c : UInt8) :
    StepCost ⟨tokens, .plain place false⟩ (stepPlain tokens place c) := by
  have hb := size_before place
  have he := size_ended place
  have hby := size_endedBy place c
  unfold stepPlain
  split_ifs with hext _ _ _ _ _ _ hhash
  · obtain ⟨symbol, hsymbol⟩ := Option.isSome_iff_exists.mp hext
    have hx := size_extended hsymbol
    rw [hsymbol, Option.getD_some]
    refine .of_mode ?_ ?_ <;> simp only [Mode.size, Mode.owed, Mode.lost, size_operator] <;> omega
  · refine .of_mode ?_ ?_ <;> simp only [Mode.size, Mode.owed, Mode.lost] <;> omega
  · refine .of_ended ?_ ?_ <;> simp only [Mode.size, Mode.owed, Mode.lost] <;> omega
  · refine .of_ended ?_ ?_ <;> simp only [Mode.size, Mode.owed, Mode.lost] <;> omega
  · refine .of_mode ?_ ?_ <;> simp only [Mode.size, Mode.owed, Mode.lost] <;> omega
  · refine .of_ended ?_ ?_ <;>
      simp only [Mode.size, Mode.owed, Mode.lost, size_operator, List.length_singleton] <;> omega
  · refine .of_ended ?_ ?_ <;> simp only [Mode.size, Mode.owed, Mode.lost, size_between] <;> omega
  · -- a comment costs its first byte, since no word ends there
    have hn := size_ended_of_not_word hhash.2
    refine .of_ended ?_ ?_ <;> simp only [Mode.size, Mode.owed, Mode.lost] <;> omega
  · refine .of_ended ?_ ?_ <;>
      simp only [Mode.size, Mode.owed, Mode.lost, size_word, List.length_append,
        List.length_singleton] <;> omega

theorem stepCost_step (l : Lexer) (c : UInt8) : StepCost l (l.step c) := by
  obtain ⟨tokens, mode⟩ := l
  cases mode with
  | plain place escaped =>
      cases escaped with
      | false => exact stepCost_plain tokens place c
      | true =>
          have hb := size_before place
          simp only [Lexer.step]
          split_ifs
          · refine .of_mode ?_ ?_ <;> simp only [Mode.size, Mode.owed, Mode.lost] <;> omega
          · refine .of_ended ?_ ?_ <;>
              simp only [Mode.size, Mode.owed, Mode.lost, size_word, List.length_append,
                List.length_singleton] <;> omega
  | single w =>
      simp only [Lexer.step]
      split_ifs <;> refine .of_mode ?_ ?_ <;>
        simp only [Mode.size, Mode.owed, Mode.lost, size_word, List.length_append,
          List.length_singleton] <;> omega
  | double w escaped =>
      cases escaped <;> simp only [Lexer.step] <;> split_ifs <;> refine .of_mode ?_ ?_ <;>
        simp only [Mode.size, Mode.owed, Mode.lost, size_word, List.length_append,
          List.length_cons, List.length_nil] <;> omega
  | comment =>
      simp only [Lexer.step]
      split_ifs <;> refine .of_mode ?_ ?_ <;>
        simp only [Mode.size, Mode.owed, Mode.lost, size_operator, List.length_singleton] <;> omega
  | expansion => exact .of_mode (by simp [Mode.owed]) (by simp [Mode.lost])

/-- A text gives at most its length. -/
theorem size_run (l : Lexer) (text : Bytes) :
    (l.run text).size + l.mode.owed ≤ l.size + text.length + (l.run text).mode.owed := by
  induction text generalizing l with
  | nil => simp
  | cons c text ih =>
      have hstep := (stepCost_step l c).gain
      have hrun := ih (l.step c)
      rw [run_cons, List.length_cons]
      omega

/-- A text gives less than its length by what its quoting has cost. -/
theorem size_add_lost_run (l : Lexer) (text : Bytes) :
    (l.run text).size + (l.run text).mode.lost ≤ l.size + l.mode.lost + text.length := by
  induction text generalizing l with
  | nil => simp
  | cons c text ih =>
      have hstep := (stepCost_step l c).cost
      have hrun := ih (l.step c)
      rw [run_cons, List.length_cons]
      omega

/-- A backslash was read just before. -/
def Mode.isEscaped : Mode → Bool
  | .plain _ escaped | .double _ escaped => escaped
  | _ => false

theorem eq_backslash_of_isEscaped {l : Lexer} (h : (l.step c).mode.isEscaped = true) :
    c = 0x5C := by
  obtain ⟨tokens, mode⟩ := l
  by_contra hc
  cases mode with
  | plain place escaped =>
      cases escaped <;> simp only [Lexer.step, stepPlain, if_neg hc] at h <;> split_ifs at h <;>
        simp [Mode.isEscaped] at h
  | double w escaped =>
      cases escaped <;> simp only [Lexer.step, if_neg hc] at h <;> split_ifs at h <;>
        simp [Mode.isEscaped] at h
  | _ =>
      simp only [Lexer.step] at h
      (try split_ifs at h) <;> simp [Mode.isEscaped] at h

/-- A single quote gives nothing, where it is not taken for itself. -/
theorem size_step_quote {l : Lexer} (he : l.mode.isEscaped = false) (ho : l.mode.owed = 0) :
    (l.step 0x27).size = l.size ∧ (l.step 0x27).mode.owed = 0 := by
  obtain ⟨tokens, mode⟩ := l
  cases mode with
  | plain place escaped =>
      obtain rfl : escaped = false := he
      have hb := size_before place
      have hq := step_quote tokens place
      rw [hq]
      simp [Lexer.size, Mode.size, Mode.owed]
      omega
  | double w escaped =>
      obtain rfl : escaped = false := he
      simp [Mode.owed] at ho
  | _ => simp [Lexer.step, Lexer.size, Mode.size, Mode.owed]

theorem head?_tokens_run {l : Lexer} {token : Token} (h : l.tokens = [token]) (text : Bytes) :
    (l.run text).tokens.head? = some token := by
  obtain ⟨rest, hrest⟩ := tokens_run l text
  rw [← hrest, h]
  rfl

/-- A byte that is not plain ends a word, begins an expansion, or gives nothing. -/
theorem step_word_of_not_plain (h : ¬isPlain c = true) (w : List Letter) :
    ((Lexer.mk [] (.plain (.word w) false)).step c).mode = .expansion ∨
      (∃ token, ((Lexer.mk [] (.plain (.word w) false)).step c).tokens = [token] ∧
        token.size = w.length + 1) ∨
      ((Lexer.mk [] (.plain (.word w) false)).step c).size = w.length := by
  have hstep : (Lexer.mk [] (.plain (.word w) false)).step c = stepPlain [] (.word w) c := rfl
  rw [hstep, stepPlain_of_not_extended rfl]
  split_ifs with hb hq hd he ho hbl hcomment
  · exact .inr (.inr (by simp [Lexer.size, Mode.size]))
  · exact .inr (.inr (by simp [Lexer.size, Mode.size, Place.before, Place.letters]))
  · exact .inr (.inr (by simp [Lexer.size, Mode.size, Place.before, Place.letters]))
  · exact .inl rfl
  · refine .inr (.inl ?_)
    unfold Place.endedBy
    split_ifs
    · exact ⟨_, rfl, by simp [Token.size, Place.letters]⟩
    · exact ⟨_, rfl, rfl⟩
  · exact .inr (.inl ⟨_, rfl, rfl⟩)
  · exact Bool.noConfusion hcomment.2
  · exact absurd (isPlain_iff.mpr ⟨hb, hq, hd, he, ho, hbl⟩) h

/-- A word that is not plain to its end is no word of its own bytes: it stops before its end, it
has an expansion, or its quoting costs. -/
theorem run_word_of_not_plain (h : ¬∀ c ∈ text, isPlain c = true) :
    ((Lexer.mk [] (.plain (.word w) false)).run text).mode = .expansion ∨
      (∃ token, ((Lexer.mk [] (.plain (.word w) false)).run text).tokens.head? = some token ∧
        token.size ≤ w.length + text.length) ∨
      ((Lexer.mk [] (.plain (.word w) false)).run text).size + 1 ≤
        w.length + text.length +
          ((Lexer.mk [] (.plain (.word w) false)).run text).mode.owed := by
  induction text generalizing w with
  | nil => simp at h
  | cons c text ih =>
      rw [run_cons]
      by_cases hc : isPlain c = true
      · have htext : ¬∀ c ∈ text, isPlain c = true := fun hall =>
          h fun d hd => (List.mem_cons.mp hd).elim (fun heq => heq ▸ hc) (hall d)
        have hlen : (w ++ unquoted [c]).length + text.length = w.length + (c :: text).length := by
          simp [unquoted]
          omega
        rw [step_word hc, ← hlen]
        exact ih htext
      · rcases step_word_of_not_plain hc w with hexp | ⟨token, htoken, hsize⟩ | hsize
        · have hrun := run_expansion ((Lexer.mk [] (.plain (.word w) false)).step c).tokens text
          rw [← hexp] at hrun
          exact .inl (by rw [hrun, hexp])
        · refine .inr (.inl ⟨token, head?_tokens_run htoken text, ?_⟩)
          rw [hsize, List.length_cons]
          omega
        · have hrun := size_run ((Lexer.mk [] (.plain (.word w) false)).step c) text
          refine .inr (.inr ?_)
          rw [List.length_cons]
          omega

end Sizes

/-! ### The words of a command -/

section Words

variable {c c' : Command} {w : List Letter} {text : Bytes}

/-- The words of a command with its assignments, as texts. -/
def Command.texts (c : Command) : List Bytes :=
  c.assignments.map (fun a => a.1 ++ 0x3D :: a.2) ++ c.words

theorem nameOf_append_valueOf (h : equalsSign ∈ w) : nameOf w ++ equalsSign :: valueOf w = w := by
  induction w with
  | nil => simp at h
  | cons l w ih =>
      by_cases hl : l = equalsSign
      · simp [nameOf, valueOf, hl]
      · have hw : equalsSign ∈ w := (List.mem_cons.mp h).resolve_left (Ne.symm hl)
        have hn : nameOf (l :: w) = l :: nameOf w := by simp [nameOf, hl]
        have hv : valueOf (l :: w) = valueOf w := by simp [valueOf, hl]
        rw [hn, hv, List.cons_append, ih hw]

theorem bytesOf_assignment (h : isAssignment w = true) :
    bytesOf (nameOf w) ++ 0x3D :: bytesOf (valueOf w) = bytesOf w := by
  have hmem : equalsSign ∈ w := by simpa using (Bool.and_eq_true_iff.mp h).1
  calc bytesOf (nameOf w) ++ 0x3D :: bytesOf (valueOf w)
      = bytesOf (nameOf w ++ equalsSign :: valueOf w) := by rw [bytesOf_append]; rfl
    _ = bytesOf w := by rw [nameOf_append_valueOf hmem]

/-- A word adds its text, whatever it is. -/
theorem texts_addWord (h : c.addWord w = some c') :
    c'.texts = c.texts ++ [bytesOf w] ∧ c'.redirections = c.redirections := by
  unfold Command.addWord at h
  split_ifs at h with hassign hres
  · obtain ⟨value, hvalue, rfl⟩ := Option.map_eq_some_iff.mp h
    have hbytes : value = bytesOf (valueOf w) := by
      unfold valueText at hvalue
      split_ifs at hvalue
      exact (Option.some.inj hvalue).symm
    simp [Command.texts, hassign.1, hbytes, bytesOf_assignment hassign.2]
  · obtain ⟨text, htext, rfl⟩ := Option.map_eq_some_iff.mp h
    have hbytes : text = bytesOf w := by
      unfold wordText at htext
      split_ifs at htext
      exact (Option.some.inj htext).symm
    simp [Command.texts, hbytes]

theorem redirections_redirect {number : Option Bytes} {operator : Bytes}
    (h : c.redirect number operator w = some c') :
    c'.redirections.length = c.redirections.length + 1 := by
  unfold Command.redirect at h
  split_ifs at h
  obtain ⟨text, -, rfl⟩ := Option.map_eq_some_iff.mp h
  simp

theorem redirections_simpleCommand {tokens : List Token} (h : simpleCommand c tokens = some c') :
    c.redirections.length ≤ c'.redirections.length := by
  fun_induction simpleCommand c tokens with
  | case1 c => simp_all
  | case2 c letters rest ih =>
      obtain ⟨next, hnext, hrest⟩ := Option.bind_eq_some_iff.mp h
      have hle := ih next hrest
      rwa [(texts_addWord hnext).2] at hle
  | case3 c digits symbol target rest ih =>
      obtain ⟨next, hnext, hrest⟩ := Option.bind_eq_some_iff.mp h
      have hle := ih next hrest
      have hlen := redirections_redirect hnext
      omega
  | case4 c symbol target rest ih =>
      obtain ⟨next, hnext, hrest⟩ := Option.bind_eq_some_iff.mp h
      have hle := ih next hrest
      have hlen := redirections_redirect hnext
      omega
  | case5 => simp at h

/-- A command without redirections has a word for each of its texts. -/
theorem texts_simpleCommand {tokens : List Token} (h : simpleCommand c tokens = some c')
    (hr : c'.redirections = []) :
    c'.texts.map some = c.texts.map some ++ tokens.map Token.text := by
  fun_induction simpleCommand c tokens with
  | case1 c => simp_all
  | case2 c letters rest ih =>
      obtain ⟨next, hnext, hrest⟩ := Option.bind_eq_some_iff.mp h
      rw [ih next hrest, (texts_addWord hnext).1]
      simp [Token.text]
  | case3 c digits symbol target rest ih =>
      obtain ⟨next, hnext, hrest⟩ := Option.bind_eq_some_iff.mp h
      have hle := redirections_simpleCommand hrest
      rw [redirections_redirect hnext, hr] at hle
      simp at hle
  | case4 c symbol target rest ih =>
      obtain ⟨next, hnext, hrest⟩ := Option.bind_eq_some_iff.mp h
      have hle := redirections_simpleCommand hrest
      rw [redirections_redirect hnext, hr] at hle
      simp at hle
  | case5 => simp at h

theorem nameOf_append {n v : List Letter} (h : equalsSign ∉ n) :
    nameOf (n ++ equalsSign :: v) = n ∧ valueOf (n ++ equalsSign :: v) = v := by
  have hall : ∀ l ∈ n, decide (l ≠ equalsSign) = true := fun l hl => by
    simpa using ne_of_mem_of_not_mem hl h
  constructor
  · rw [nameOf, List.takeWhile_append_of_pos hall]
    simp
  · rw [valueOf, List.dropWhile_append_of_pos hall]
    simp

/-- An assignment in front of the command's name. -/
theorem addWord_assignment {n v : List Letter} (h : equalsSign ∉ n) (hn : isName n = true)
    (hc : c.words = []) :
    c.addWord (n ++ equalsSign :: v) = (valueText v).map fun value =>
      { c with assignments := c.assignments ++ [(bytesOf n, value)] } := by
  obtain ⟨hname, hvalue⟩ := nameOf_append (v := v) h
  have hassign : isAssignment (n ++ equalsSign :: v) = true := by
    simp [isAssignment, hname, hn]
  simp [Command.addWord, hassign, hc, hname, hvalue]

/-- A word that is no assignment and not reserved. -/
theorem addWord_of_text (h : isAssignment w = false) (hr : isReserved w = false)
    (ht : wordText w = some text) (c : Command) :
    c.addWord w = some { c with words := c.words ++ [text] } := by
  simp [Command.addWord, h, hr, ht]

/-- A quoted text is a word of the command as it stands. -/
theorem addWord_quoted (c : Command) (text : Bytes) :
    c.addWord (quoted text) = some { c with words := c.words ++ [text] } := by
  have hassign : isAssignment (quoted text) = false := by
    simp [isAssignment, quoted, equalsSign]
  have hres : isReserved (quoted text) = false := by
    cases text with
    | nil => decide
    | cons b text => simp [isReserved, quoted]
  have hword : wordText (quoted text) = some text := by
    have htilde : startsTilde (ascii "/") (quoted text) = false := by
      cases text <;> simp [startsTilde, quoted]
    rw [wordText, htilde, Bool.false_or, bytesOf_quoted]
    simp [quoted]
  exact addWord_of_text hassign hres hword c

/-! ### Tildes -/

/-- The text as an unquoted value has a tilde that expands. -/
def HasTilde (text : Bytes) : Prop := text.head? = some 0x7E ∨ [0x3A, 0x7E] <:+: text

/-- A text that may stand bare behind an equals sign. -/
structure IsBare (text : Bytes) : Prop where
  plain : ∀ c ∈ text, isPlain c = true
  tilde : ¬HasTilde text

theorem startsTilde_unquoted (ends text : Bytes) :
    startsTilde ends (unquoted text) = decide (text.head? = some 0x7E) := by
  have hall : ((unquoted text).takeWhile fun l => l.quoted || l.byte ∉ ends).all
      (fun l => !l.quoted) = true := by
    refine List.all_eq_true.mpr fun l hl => ?_
    obtain ⟨c, -, rfl⟩ := List.mem_map.mp (List.takeWhile_subset _ hl)
    rfl
  cases text with
  | nil => rfl
  | cons c text => rw [startsTilde, hall]; simp [unquoted]

theorem colonTilde_unquoted (text : Bytes) :
    colonTilde (unquoted text) = true ↔ [0x3A, 0x7E] <:+: text := by
  induction text with
  | nil => simp [unquoted, colonTilde]
  | cons c text ih =>
      have hcons : unquoted (c :: text) = ⟨c, false⟩ :: unquoted text := rfl
      have hprefix : [0x3A, 0x7E] <+: c :: text ↔ c = 0x3A ∧ text.head? = some 0x7E := by
        cases text <;> simp [List.cons_prefix_cons, eq_comm]
      rw [hcons, colonTilde, List.infix_cons_iff, hprefix, startsTilde_unquoted]
      simp [ih]

theorem hasTilde_unquoted (text : Bytes) : hasTilde (unquoted text) = true ↔ HasTilde text := by
  simp [hasTilde, HasTilde, startsTilde_unquoted, colonTilde_unquoted]

theorem hasTilde_quoted (text : Bytes) : hasTilde (quoted text) = false := by
  have hstart : ∀ text, startsTilde (ascii "/:") (quoted text) = false := by
    intro text
    cases text <;> simp [startsTilde, quoted]
  have hcolon : colonTilde (quoted text) = false := by
    induction text with
    | nil => rfl
    | cons c text ih =>
        have hcons : quoted (c :: text) = ⟨c, true⟩ :: quoted text := rfl
        rw [hcons, colonTilde, ih]
        simp
  rw [hasTilde, hstart, hcolon]
  rfl

/-- A bare value is read as its bytes. -/
theorem valueText_unquoted (text : Bytes) :
    valueText (unquoted text) = if hasTilde (unquoted text) then none else some text := by
  rw [valueText, bytesOf_unquoted]

theorem valueText_quoted (text : Bytes) : valueText (quoted text) = some text := by
  simp [valueText, hasTilde_quoted]

end Words

end Dafeng.Shell
