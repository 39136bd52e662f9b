import Dafeng.Library.Shell

/-!
# Dafeng.Learning.Redeploy

The redeploy hook of the learning thread (`src/daemon/auto_learn.cc`): the
deployer is looked for in its standard places and run through `std::system`,
with the RIME directory as its argument. Both paths are quoted for the shell.
-/

namespace Dafeng.Learning

open Dafeng.Shell

/-- The places where Squirrel keeps its deployer. -/
def deployerCandidates : List Bytes :=
  [ascii "/Library/Input Methods/Squirrel.app/Contents/MacOS/rime_deployer",
    ascii "/Applications/Squirrel.app/Contents/MacOS/rime_deployer"]

/-- `FindRimeDeployer`; the empty path says that there is none. -/
def findRimeDeployer (present : Bytes → Bool) : Bytes :=
  (deployerCandidates.find? present).getD []

/-- A byte of a text in single quotes. -/
def shellQuoteByte (c : UInt8) : Bytes := if c = 0x27 then [0x27, 0x5C, 0x27, 0x27] else [c]

/-- `ShellQuote`. -/
def shellQuote (s : Bytes) : Bytes := 0x27 :: s.flatMap shellQuoteByte ++ [0x27]

/-- The command of `DefaultRimeRedeploy`. -/
def redeployCommand (deployer rimeDir : Bytes) : Bytes :=
  shellQuote deployer ++ ascii " --build " ++ shellQuote rimeDir ++ ascii " >/dev/null 2>&1"

/-- `DefaultRimeRedeploy`: the texts that the shell is given, and the answer. `system` is the
exit code of a text. -/
def defaultRimeRedeploy (present : Bytes → Bool) (system : Bytes → Int) (rimeDir : Bytes) :
    List Bytes × Bool :=
  if findRimeDeployer present = [] then ([], false)
  else
    let cmd := commandLine (redeployCommand (findRimeDeployer present) rimeDir)
    ([cmd], decide (system cmd = 0))

/-! ### A quoted text in a command -/

section Quoting

variable {tokens : List Token} {place : Place} {w : List Letter} {s : Bytes}

/-- A quoted byte leaves the shell where it was, inside the quotes: a single quote closes them,
stands escaped, and opens them again. -/
theorem run_shellQuoteByte (c : UInt8) :
    (Lexer.mk tokens (.single w)).run (shellQuoteByte c) =
      ⟨tokens, .single (w ++ quoted [c])⟩ := by
  unfold shellQuoteByte
  split_ifs with hc
  · subst hc
    simp [Lexer.step, stepPlain, Place.extended, Place.before, Place.letters, quoted]
  · exact run_single (by simpa using Ne.symm hc)

theorem run_shellQuoteBytes (s : Bytes) :
    (Lexer.mk tokens (.single w)).run (s.flatMap shellQuoteByte) =
      ⟨tokens, .single (w ++ quoted s)⟩ := by
  induction s generalizing w with
  | nil => simp [quoted]
  | cons c s ih =>
      rw [List.flatMap_cons, run_append, run_shellQuoteByte, ih]
      simp [quoted]

/-- A quoted text is read as its own bytes, joined to what stands in front. -/
theorem run_shellQuote (s : Bytes) :
    (Lexer.mk tokens (.plain place false)).run (shellQuote s) =
      ⟨tokens ++ place.before, .plain (.word (place.letters ++ quoted s)) false⟩ := by
  rw [shellQuote, List.cons_append, run_cons, step_quote, run_append, run_shellQuoteBytes]
  rfl

theorem not_mem_shellQuote (h : 0 ∉ s) : 0 ∉ shellQuote s := by
  have hbytes : 0 ∉ s.flatMap shellQuoteByte := by
    rw [List.mem_flatMap]
    rintro ⟨c, hc, hmem⟩
    unfold shellQuoteByte at hmem
    split_ifs at hmem
    · exact absurd hmem (by decide)
    · exact h (List.mem_singleton.mp hmem ▸ hc)
  simp [shellQuote, hbytes]

end Quoting

/-! ### The command -/

section Command

variable {deployer rimeDir : Bytes}

/-- What the shell makes of the command. -/
def redeployTokens (deployer rimeDir : Bytes) : List Token :=
  [.word (quoted deployer), .word (unquoted (ascii "--build")), .word (quoted rimeDir),
    .operator (ascii ">"), .word (unquoted (ascii "/dev/null")), .ioNumber (ascii "2"),
    .operator (ascii ">&"), .word (unquoted (ascii "1"))]

theorem run_build (tokens : List Token) (w : List Letter) :
    (Lexer.mk tokens (.plain (.word w) false)).run (ascii " --build ") =
      ⟨tokens ++ [.word w, .word (unquoted (ascii "--build"))], .plain .between false⟩ := by
  have htext : ascii " --build " = 0x20 :: (ascii "--build" ++ [0x20]) := by decide
  rw [htext, run_cons, step_blank, run_append,
    run_between (by decide)]
  simp

theorem run_redirections (tokens : List Token) (w : List Letter) :
    (Lexer.mk tokens (.plain (.word w) false)).run (ascii " >/dev/null 2>&1") =
      ⟨tokens ++ [.word w, .operator (ascii ">"), .word (unquoted (ascii "/dev/null")),
        .ioNumber (ascii "2"), .operator (ascii ">&")],
        .plain (.word (unquoted (ascii "1"))) false⟩ := by
  have htext : ascii " >/dev/null 2>&1" = 0x20 :: ascii ">/dev/null 2>&1" := by decide
  have hrun : (Lexer.mk [] (.plain .between false)).run (ascii ">/dev/null 2>&1") =
      ⟨[.operator (ascii ">"), .word (unquoted (ascii "/dev/null")), .ioNumber (ascii "2"),
        .operator (ascii ">&")], .plain (.word (unquoted (ascii "1"))) false⟩ := by
    decide
  have hbehind := run_behind (tokens ++ [.word w]) (Lexer.mk [] (.plain .between false))
    (ascii ">/dev/null 2>&1")
  rw [htext, run_cons, step_blank]
  simpa [Lexer.behind, hrun] using hbehind

theorem tokenize_redeployCommand (deployer rimeDir : Bytes) :
    tokenize (redeployCommand deployer rimeDir) = some (redeployTokens deployer rimeDir) := by
  simp [tokenize, redeployCommand, run_append, run_shellQuote, run_build, run_redirections,
    Place.before, Place.letters, Lexer.finish, Place.ended, redeployTokens]

/-- The command as the shell sees it: three words, and the two redirections. -/
def redeployReading (deployer rimeDir : Bytes) : Shell.Command where
  words := [deployer, ascii "--build", rimeDir]
  redirections := [⟨none, ascii ">", ascii "/dev/null"⟩, ⟨some (ascii "2"), ascii ">&", ascii "1"⟩]

theorem read_redeployCommand (deployer rimeDir : Bytes) :
    readCommand (redeployCommand deployer rimeDir) = some (redeployReading deployer rimeDir) := by
  have hbuild : ∀ c : Shell.Command, c.addWord (unquoted (ascii "--build")) =
      some { c with words := c.words ++ [ascii "--build"] } :=
    addWord_of_text (by decide) (by decide) (by decide)
  have hnull : wordText (unquoted (ascii "/dev/null")) = some (ascii "/dev/null") := by
    decide
  have hone : wordText (unquoted (ascii "1")) = some (ascii "1") := by decide
  have hwrite : ascii ">" ∈ redirectors := by decide
  have hdup : ascii ">&" ∈ redirectors := by decide
  simp [readCommand, tokenize_redeployCommand, redeployTokens, simpleCommand, addWord_quoted,
    hbuild, Command.redirect, hnull, hone, hwrite, hdup, redeployReading]

theorem not_mem_redeployCommand (hd : 0 ∉ deployer) (hr : 0 ∉ rimeDir) :
    0 ∉ redeployCommand deployer rimeDir := by
  have hbuild : 0 ∉ ascii " --build " := by decide
  have hnull : 0 ∉ ascii " >/dev/null 2>&1" := by decide
  simp [redeployCommand, not_mem_shellQuote hd, not_mem_shellQuote hr, hbuild, hnull]

/-- Where there is no deployer the hook runs nothing, and else this one line. -/
theorem defaultRimeRedeploy_lines (present : Bytes → Bool) (system : Bytes → Int) :
    (defaultRimeRedeploy present system rimeDir).1 =
      if findRimeDeployer present = [] then []
      else [commandLine (redeployCommand (findRimeDeployer present) rimeDir)] := by
  unfold defaultRimeRedeploy
  split_ifs <;> rfl

/-- The shell reads the redeploy command as the deployer, `--build` and the directory, byte for
byte, and the two fixed redirections. The hook runs exactly this line where it finds a deployer,
and nothing where it finds none. -/
theorem redeploy_command_reads_back (hd : 0 ∉ deployer) (hr : 0 ∉ rimeDir) :
    readCommand (commandLine (redeployCommand deployer rimeDir)) =
        some (redeployReading deployer rimeDir) ∧
      ∀ present system, findRimeDeployer present = deployer →
        (defaultRimeRedeploy present system rimeDir).1 =
          if deployer = [] then [] else [commandLine (redeployCommand deployer rimeDir)] := by
  refine ⟨?_, fun present system hfind => ?_⟩
  · rw [commandLine_eq (not_mem_redeployCommand hd hr), read_redeployCommand]
  · rw [defaultRimeRedeploy_lines, hfind]

/-- A directory with what a shell would take for its own. -/
def oddDir : Bytes := ascii "/Users/o'neil/`rm`\n\\ "

/-- A deployer of such a name, and the second of the standard places where the first is empty. -/
theorem redeploy_command_reads_back_hostile :
    readCommand (commandLine (redeployCommand (ascii "/Library/Input Methods/it's; $x") oddDir)) =
        some (redeployReading (ascii "/Library/Input Methods/it's; $x") oddDir) ∧
      (defaultRimeRedeploy
          (· = ascii "/Applications/Squirrel.app/Contents/MacOS/rime_deployer") (fun _ => 0)
          oddDir).1.map readCommand =
        [some (redeployReading
          (ascii "/Applications/Squirrel.app/Contents/MacOS/rime_deployer") oddDir)] := by
  refine ⟨(redeploy_command_reads_back (by decide) (by decide)).1, ?_⟩
  obtain ⟨hread, hline⟩ := @redeploy_command_reads_back
    (ascii "/Applications/Squirrel.app/Contents/MacOS/rime_deployer") oddDir (by decide) (by decide)
  rw [hline _ _ (by decide), if_neg (by decide), List.map_singleton, hread]

end Command

end Dafeng.Learning
