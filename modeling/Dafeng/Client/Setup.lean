import Dafeng.Library.Shell

/-!
# Dafeng.Client.Setup

`dafeng-cli setup` (`src/cli/main.cc`): the share directory is looked for, its
`deploy.sh` is run, and then `install_launchagent.sh`, with the backend and the
model as environment assignments in front. The command line is glued together:
the backend stands bare, and the model path between single quotes that nothing
escapes.
-/

namespace Dafeng.Client

open Dafeng.Shell

/-- What the command finds around it: the files that exist before `deploy.sh` has run and after
it, the home directory, and the exit code of a command text. -/
structure SetupWorld where
  before : Bytes → Bool
  after : Bytes → Bool
  home : Option Bytes
  system : Bytes → Int
  home_nul : ∀ dir ∈ home, 0 ∉ dir

def shareCandidates : List Bytes :=
  [ascii "/usr/local/share/dafeng", ascii "/opt/homebrew/share/dafeng",
    ascii "/opt/homebrew/opt/dafeng-wubi/share/dafeng"]

/-- `FindShareDir`; the default is a guess for the diagnostics. -/
def findShareDir (present : Bytes → Bool) : Bytes :=
  (shareCandidates.find? fun p => present (p ++ ascii "/deploy.sh")).getD
    (ascii "/usr/local/share/dafeng")

/-- The daemon that the launch agent is to start. -/
def daemonBin (present : Bytes → Bool) : Bytes :=
  if present (ascii "/usr/local/bin/dafeng-daemon") then ascii "/usr/local/bin/dafeng-daemon"
  else ascii "/opt/homebrew/bin/dafeng-daemon"

def llamaCpp : Bytes := ascii "llama_cpp"

def deterministic : Bytes := ascii "deterministic"

/-- The model of the `llama_cpp` backend: the path given, else the one under the home directory. -/
def llamaModel (home : Option Bytes) (modelPath : Bytes) : Bytes :=
  if modelPath = [] then
    home.elim [] fun dir => dir ++ ascii ("/Library/Application Support/Dafeng/models/" ++
      "Qwen2.5-0.5B-Instruct-GGUF/qwen2.5-0.5b-instruct-q4_k_m.gguf")
  else modelPath

/-- `env_prefix`. -/
def envPrefix (home : Option Bytes) (backend modelPath : Bytes) : Bytes :=
  if backend = llamaCpp then
    ascii "DAFENG_BACKEND=llama_cpp DAFENG_MODEL_PATH='" ++ llamaModel home modelPath ++ ascii "' "
  else if backend ≠ [] ∧ backend ≠ deterministic then
    ascii "DAFENG_BACKEND=" ++ backend ++ ascii " " ++
      if modelPath ≠ [] then ascii "DAFENG_MODEL_PATH='" ++ modelPath ++ ascii "' " else []
  else []

/-- `la_cmd`. -/
def launchAgentCommand (env shareDir daemon : Bytes) : Bytes :=
  env ++ shareDir ++ ascii "/install_launchagent.sh '" ++ daemon ++ ascii "'"

/-- `CmdSetup`: the texts that the shell is given, and the exit code. -/
def cmdSetup (w : SetupWorld) (backend modelPath : Bytes) : List Bytes × Int :=
  let shareDir := findShareDir w.before
  let deployCmd := shareDir ++ ascii "/deploy.sh"
  if w.before deployCmd = false then ([], 1)
  else if w.system deployCmd ≠ 0 then ([deployCmd], w.system deployCmd)
  else if backend = llamaCpp ∧ w.after (llamaModel w.home modelPath) = false then ([deployCmd], 2)
  else
    let laCmd := commandLine
      (launchAgentCommand (envPrefix w.home backend modelPath) shareDir (daemonBin w.after))
    ([deployCmd, laCmd], w.system laCmd)

/-- The model path that the launch-agent command is to carry, if there is one. -/
def setupModel (home : Option Bytes) (backend modelPath : Bytes) : Option Bytes :=
  if backend = llamaCpp then some (llamaModel home modelPath)
  else if modelPath = [] then none
  else some modelPath

/-- The launch-agent command as it is meant: the backend and the model in the environment, one
word with the daemon. -/
def setupReading (w : SetupWorld) (backend modelPath : Bytes) : Shell.Command where
  assignments := (ascii "DAFENG_BACKEND", backend) ::
    (setupModel w.home backend modelPath).toList.map fun m => (ascii "DAFENG_MODEL_PATH", m)
  words := [findShareDir w.before ++ ascii "/install_launchagent.sh", daemonBin w.after]

/-! ### The end of the command line -/

/-- The script, and the daemon in quotes. -/
def commandTail (program daemon : Bytes) : Bytes :=
  0x20 :: (program ++ 0x20 :: (0x27 :: daemon ++ [0x27]))

/-- The paths of the program and the daemon need no quotes. -/
structure BarePaths (program daemon : Bytes) : Prop where
  program_begins : beginsWord program = true
  program_word : ∀ c : Shell.Command, c.addWord (unquoted program) =
    some { c with words := c.words ++ [program] }
  daemon_plain : ∀ c ∈ daemon, isPlain c = true

theorem BarePaths.program_plain {program daemon : Bytes} (h : BarePaths program daemon) :
    ∀ c ∈ program, isPlain c = true :=
  (beginsWord_iff.mp h.program_begins).1

section Tail

variable {tokens ts : List Token} {l : Lexer} {w : List Letter} {program daemon : Bytes}

theorem quote_not_mem {text : Bytes} (h : ∀ c ∈ text, isPlain c = true) : 0x27 ∉ text :=
  fun hc => absurd (h _ hc) (by decide)

theorem newline_not_mem {text : Bytes} (h : ∀ c ∈ text, isPlain c = true) : 0x0A ∉ text :=
  fun hc => absurd (h _ hc) (by decide)

theorem run_daemon (h : BarePaths program daemon) :
    (Lexer.mk tokens (.plain (.word w) false)).run (0x20 :: (0x27 :: daemon ++ [0x27])) =
      ⟨tokens ++ [.word w], .plain (.word (quoted daemon)) false⟩ := by
  rw [run_cons, step_blank, run_singleQuoted (quote_not_mem h.daemon_plain)]
  simp [Place.before, Place.letters]

/-- Inside quotes the tail closes them, and its last quote opens some that nothing ends. -/
theorem run_tail_single (h : BarePaths program daemon) :
    (Lexer.mk tokens (.single w)).run (commandTail program daemon) =
      ⟨tokens, .single (w ++ quoted (0x20 :: program ++ [0x20]) ++ unquoted daemon)⟩ := by
  have htail : commandTail program daemon =
      (0x20 :: program ++ [0x20]) ++ 0x27 :: (daemon ++ [0x27]) := by
    simp [commandTail]
  have hq : 0x27 ∉ 0x20 :: program ++ [0x20] := by
    simpa using quote_not_mem h.program_plain
  rw [htail, run_append, run_single hq, run_cons]
  have hclose : (Lexer.mk tokens (.single (w ++ quoted (0x20 :: program ++ [0x20])))).step 0x27 =
      ⟨tokens, .plain (.word (w ++ quoted (0x20 :: program ++ [0x20]))) false⟩ := rfl
  rw [hclose, run_append, run_word h.daemon_plain, run_cons, step_quote]
  simp [Place.before, Place.letters]

/-- Double quotes take the whole tail for text. -/
theorem commandTail_literal (h : BarePaths program daemon) :
    ∀ c ∈ commandTail program daemon, c ≠ 0x22 ∧ c ≠ 0x5C ∧ c ∉ expanders := by
  have hplain : ∀ c, isPlain c = true → c ≠ 0x22 ∧ c ≠ 0x5C ∧ c ∉ expanders := by
    intro c hplain
    obtain ⟨hb, -, hd, he, -, -⟩ := isPlain_iff.mp hplain
    exact ⟨hd, hb, he⟩
  intro c hc
  simp only [commandTail, List.cons_append, List.mem_cons, List.mem_append, List.not_mem_nil,
    or_false] at hc
  rcases hc with rfl | hc | rfl | rfl | hc | rfl
  · decide
  · exact hplain c (h.program_plain c hc)
  · decide
  · decide
  · exact hplain c (h.daemon_plain c hc)
  · decide

theorem finish_tail_double (h : BarePaths program daemon) (w : List Letter) (escaped : Bool) :
    ((Lexer.mk tokens (.double w escaped)).run (commandTail program daemon)).finish = none := by
  have hlit := commandTail_literal h
  cases escaped with
  | false =>
      rw [run_double hlit]
      rfl
  | true =>
      have hblank : (Lexer.mk tokens (.double w true)).step 0x20 =
          ⟨tokens, .double (w ++ [⟨0x5C, true⟩, ⟨0x20, true⟩]) false⟩ := rfl
      rw [commandTail, run_cons, hblank,
        run_double fun c hc => hlit c (List.mem_cons_of_mem _ hc)]
      rfl

theorem newline_not_mem_commandTail (h : BarePaths program daemon) :
    0x0A ∉ commandTail program daemon := by
  simp [commandTail, newline_not_mem h.program_plain, newline_not_mem h.daemon_plain]

/-- Behind a word, or where none is under way, the tail gives two words. -/
theorem run_tail_plain (h : BarePaths program daemon) (place : Place) :
    (Lexer.mk tokens (.plain place false)).run (commandTail program daemon) =
      ⟨tokens ++ place.ended ++ [.word (unquoted program)],
        .plain (.word (quoted daemon)) false⟩ := by
  have hblank : (Lexer.mk tokens (.plain place false)).step 0x20 =
      ⟨tokens ++ place.ended, .plain .between false⟩ := by
    have hext : place.extended 0x20 = none := extended_eq_none (by decide)
    show stepPlain tokens place 0x20 = _
    rw [stepPlain_of_not_extended hext]
    rfl
  rw [commandTail, run_cons, hblank, run_append,
    run_between h.program_begins, run_daemon h]

/-- An escaped blank goes on with the word. -/
theorem run_tail_escaped (h : BarePaths program daemon) (place : Place) :
    (Lexer.mk tokens (.plain place true)).run (commandTail program daemon) =
      ⟨tokens ++ place.before ++ [.word (place.letters ++ ⟨0x20, true⟩ :: unquoted program)],
        .plain (.word (quoted daemon)) false⟩ := by
  have hblank : (Lexer.mk tokens (.plain place true)).step 0x20 =
      ⟨tokens ++ place.before, .plain (.word (place.letters ++ [⟨0x20, true⟩])) false⟩ := rfl
  rw [commandTail, run_cons, hblank, run_append, run_word h.program_plain, run_daemon h]
  simp

/-- Where the tail is read to its end, what stood in front was outside of quotes. -/
theorem tail_cases (h : BarePaths program daemon)
    (hts : (l.run (commandTail program daemon)).finish = some ts) :
    (∃ place, l.mode = .plain place false ∧ ts = l.tokens ++ place.ended ++
        [.word (unquoted program), .word (quoted daemon)]) ∨
      (∃ place, l.mode = .plain place true ∧ ts = l.tokens ++ place.before ++
        [.word (place.letters ++ ⟨0x20, true⟩ :: unquoted program), .word (quoted daemon)]) ∨
      l.mode = .comment ∧ ts = l.tokens := by
  obtain ⟨tokens, mode⟩ := l
  cases mode with
  | plain place escaped =>
      cases escaped with
      | false =>
          rw [run_tail_plain h] at hts
          obtain rfl := Option.some.inj hts
          exact .inl ⟨place, rfl, by simp [Place.ended]⟩
      | true =>
          rw [run_tail_escaped h] at hts
          obtain rfl := Option.some.inj hts
          exact .inr (.inl ⟨place, rfl, by simp [Place.ended]⟩)
  | single w =>
      rw [run_tail_single h] at hts
      simp [Lexer.finish] at hts
  | double w escaped =>
      rw [finish_tail_double h] at hts
      simp at hts
  | comment =>
      rw [run_comment (newline_not_mem_commandTail h)] at hts
      exact .inr (.inr ⟨rfl, (Option.some.inj hts).symm⟩)
  | expansion =>
      rw [run_expansion] at hts
      simp [Lexer.finish] at hts

/-- The tail behind a closing quote: what stood in front was inside the quotes, or a backslash
took the quote for itself. -/
theorem quote_tail_cases (h : BarePaths program daemon)
    (hts : (l.run (0x27 :: commandTail program daemon)).finish = some ts) :
    (∃ w, l.mode = .single w ∧ ts = l.tokens ++
        [.word w, .word (unquoted program), .word (quoted daemon)]) ∨
      (∃ place, l.mode = .plain place true ∧ ts = l.tokens ++ place.before ++
        [.word (place.letters ++ [⟨0x27, true⟩]), .word (unquoted program),
          .word (quoted daemon)]) ∨
      l.mode = .comment ∧ ts = l.tokens := by
  obtain ⟨tokens, mode⟩ := l
  rw [run_cons] at hts
  cases mode with
  | plain place escaped =>
      cases escaped with
      | false =>
          rw [step_quote, run_tail_single h] at hts
          simp [Lexer.finish] at hts
      | true =>
          have hquote : (Lexer.mk tokens (.plain place true)).step 0x27 = ⟨tokens ++ place.before,
              .plain (.word (place.letters ++ [⟨0x27, true⟩])) false⟩ := rfl
          rw [hquote, run_tail_plain h] at hts
          obtain rfl := Option.some.inj hts
          exact .inr (.inl ⟨place, rfl, by simp [Place.ended]⟩)
  | single w =>
      have hquote : (Lexer.mk tokens (.single w)).step 0x27 =
          ⟨tokens, .plain (.word w) false⟩ := rfl
      rw [hquote, run_tail_plain h] at hts
      obtain rfl := Option.some.inj hts
      exact .inl ⟨w, rfl, by simp [Place.ended]⟩
  | double w escaped =>
      have hquote : ∃ w', (Lexer.mk tokens (.double w escaped)).step 0x27 =
          ⟨tokens, .double w' false⟩ := by
        cases escaped with
        | false => exact ⟨_, rfl⟩
        | true => exact ⟨_, rfl⟩
      obtain ⟨w', hw'⟩ := hquote
      rw [hw', finish_tail_double h] at hts
      simp at hts
  | comment =>
      have hquote : (Lexer.mk tokens .comment).step 0x27 = ⟨tokens, .comment⟩ := rfl
      rw [hquote, run_comment (newline_not_mem_commandTail h)] at hts
      exact .inr (.inr ⟨rfl, (Option.some.inj hts).symm⟩)
  | expansion =>
      have hquote : (Lexer.mk tokens .expansion).step 0x27 = ⟨tokens, .expansion⟩ := rfl
      rw [hquote, run_expansion] at hts
      simp [Lexer.finish] at hts

end Tail

/-! ### What stands in front -/

section Front

variable {ts : List Token} {program daemon key name b m : Bytes}

/-- The text ends outside of quotes, with all of it in its one word: the part behind the plain
beginning is plain as well. -/
theorem plain_of_run_key (hkey : beginsWord key = true) {w : List Letter}
    (hrun : Lexer.run {} (key ++ b) = ⟨[], .plain (.word w) false⟩) (hw : bytesOf w = key ++ b) :
    ∀ c ∈ b, isPlain c = true := by
  by_contra hplain
  rw [run_append, run_between hkey] at hrun
  have hlen : w.length = key.length + b.length := by
    rw [← length_bytesOf, hw, List.length_append]
  have hcases := run_word_of_not_plain (w := unquoted key) hplain
  rw [hrun] at hcases
  rcases hcases with hexp | ⟨token, htoken, -⟩ | hsize
  · simp at hexp
  · simp at htoken
  · simp [Lexer.size, Mode.size, Mode.owed] at hsize
    omega

/-- Without a model path: where the words are the ones meant, the backend is plain. -/
theorem plain_of_words (h : BarePaths program daemon) (hkey : beginsWord key = true)
    (hts : (Lexer.run {} (key ++ b ++ commandTail program daemon)).finish = some ts)
    (htexts : ts.map Token.text = [key ++ b, program, daemon].map some) :
    ∀ c ∈ b, isPlain c = true := by
  have hsize := size_run {} (key ++ b)
  rw [run_append] at hts
  generalize hl : Lexer.run {} (key ++ b) = l at hts hsize
  have hsplit : ([key ++ b, program, daemon].map some : List (Option Bytes)) =
      [some (key ++ b)] ++ [some program, some daemon] := rfl
  rcases tail_cases h hts with ⟨place, hmode, rfl⟩ | ⟨place, hmode, rfl⟩ | ⟨hmode, rfl⟩
  · rw [List.map_append, hsplit] at htexts
    have hfirst := (List.append_inj' htexts rfl).1
    cases place with
    | between =>
        -- A word that has ended took a blank, which the text does not have.
        have hword : l.tokens.map Token.text = [key ++ b].map some := by
          simpa [Place.ended, Place.before] using hfirst
        simp [Lexer.size, hmode, Mode.size, Mode.owed, sum_size_of_text hword] at hsize
    | operator symbol =>
        simp [Place.ended, Place.before, Token.text, List.append_eq_singleton_iff] at hfirst
    | word w =>
        have hword : l.tokens = [] ∧ bytesOf w = key ++ b := by
          simpa [Place.ended, Token.text, List.append_eq_singleton_iff] using hfirst
        refine plain_of_run_key hkey (w := w) ?_ hword.2
        rw [hl, ← hword.1, ← hmode]
  · -- The blank behind the backslash would be a byte of the program's word.
    rw [List.map_append, hsplit] at htexts
    have hlast := (List.append_inj' htexts rfl).2
    have hlen := congrArg (List.map fun t => (t.getD []).length) hlast
    simp [Token.text] at hlen
    omega
  · have hsum := sum_size_of_text htexts
    simp [Lexer.size, hmode, Mode.size, Mode.owed, hsum] at hsize
    omega

/-- Behind a word of plain bytes no backslash waits for its byte. -/
theorem isEscaped_run_blank (hname : beginsWord name = true)
    (l : Lexer) : (l.run (0x20 :: name)).mode.isEscaped = false := by
  obtain ⟨hname, hne, -⟩ := beginsWord_iff.mp hname
  obtain ⟨init, c, rfl⟩ := (List.eq_nil_or_concat name).resolve_left hne
  rw [List.concat_eq_append] at hname ⊢
  rw [Bool.eq_false_iff]
  intro hesc
  rw [← List.cons_append, run_append] at hesc
  have hc := eq_backslash_of_isEscaped hesc
  exact (isPlain_iff.mp (hname c (by simp))).1 hc

/-- The text ends inside the quotes of the model path, with the backend in its one word: the
backend is plain. A quote or a backslash in it would have cost a byte, and so does the quote in
front of the path. -/
theorem plain_of_run_name (hkey : beginsWord key = true) (hname : beginsWord name = true)
    {w w' : List Letter}
    (hrun : Lexer.run {} (key ++ b ++ (0x20 :: name ++ 0x27 :: m)) = ⟨[.word w], .single w'⟩)
    (hw : bytesOf w = key ++ b) (hw' : bytesOf w' = name ++ m) : ∀ c ∈ b, isPlain c = true := by
  by_contra hplain
  have hlen : w.length = key.length + b.length := by
    rw [← length_bytesOf, hw, List.length_append]
  have hlen' : w'.length = name.length + m.length := by
    rw [← length_bytesOf, hw', List.length_append]
  have hcases := run_word_of_not_plain (w := unquoted key) hplain
  have hlost := size_add_lost_run {} (key ++ b ++ 0x20 :: name)
  rw [← List.append_assoc, run_append, run_append, run_append, run_between hkey] at hrun
  rw [run_append, run_append, run_between hkey] at hlost
  generalize (Lexer.mk [] (.plain (.word (unquoted key)) false)).run b = l at hcases hrun hlost
  rcases hcases with hexp | ⟨token, htoken, hsize⟩ | hsize
  · have hstay := run_expansion l.tokens (0x20 :: name ++ 0x27 :: m)
    rw [← hexp, run_append, hrun] at hstay
    simp [hexp] at hstay
  · have hprefix := tokens_run l (0x20 :: name ++ 0x27 :: m)
    rw [run_append, hrun] at hprefix
    have hhead : some token = some (.word w) := by
      obtain ⟨rest, hrest⟩ := hprefix
      have hfirst := congrArg List.head? hrest
      rwa [List.head?_append, htoken] at hfirst
    obtain rfl := Option.some.inj hhead
    simp [Token.size] at hsize
    omega
  · have hesc := isEscaped_run_blank hname l
    have hfirst := size_run l (0x20 :: name)
    generalize l.run (0x20 :: name) = l' at hrun hlost hesc hfirst
    have hend : (Lexer.mk [.word w] (.single w')).size = w.length + 1 + w'.length := by
      simp [Lexer.size, Mode.size, Token.size]
    have hstart : Lexer.size {} + (Lexer.mode {}).lost = 0 := rfl
    rw [hstart] at hlost
    simp only [List.length_cons, List.length_append, length_unquoted] at hlost hfirst hsize
    by_cases ho : l'.mode.owed = 0
    · obtain ⟨hquote, howed⟩ := size_step_quote hesc ho
      have hrest := size_run (l'.step 0x27) m
      rw [← run_cons, hrun, hend, howed, hquote] at hrest
      simp only [Mode.owed] at hrest
      omega
    · have hrest := size_run l' (0x27 :: m)
      have hdouble : l'.mode.owed ≤ l'.mode.lost := owed_le_lost l'.mode
      have howed : (Mode.single w').owed = 0 := rfl
      rw [hrun, hend, howed, List.length_cons] at hrest
      omega

/-- The front as it is meant, up to the quote in front of the path. -/
theorem run_front (hkey : beginsWord key = true) (hname : beginsWord name = true)
    (hb : ∀ c ∈ b, isPlain c = true) :
    Lexer.run {} (key ++ b ++ (0x20 :: name ++ [0x27])) =
      ⟨[.word (unquoted (key ++ b))], .single (unquoted name)⟩ := by
  have hkb : unquoted key ++ unquoted b = unquoted (key ++ b) := by simp [unquoted]
  rw [run_append, run_append {} key b, run_between hkey, run_word hb, hkb,
    List.cons_append, run_cons, step_blank, run_append, run_between hname, run_cons,
    step_quote]
  simp [Place.before, Place.letters]

/-- The quote that the path has ends the quoting, and no byte makes up for it. -/
theorem quote_not_mem_of_run_name (hkey : beginsWord key = true) (hname : beginsWord name = true)
    (hb : ∀ c ∈ b, isPlain c = true) {w w' : List Letter}
    (hrun : Lexer.run {} (key ++ b ++ (0x20 :: name ++ 0x27 :: m)) = ⟨[.word w], .single w'⟩)
    (hw : bytesOf w = key ++ b) (hw' : bytesOf w' = name ++ m) : 0x27 ∉ m := by
  intro hmem
  obtain ⟨m₁, m₂, rfl, hm₁⟩ := List.eq_append_cons_of_mem hmem
  have hlen : w.length = key.length + b.length := by
    rw [← length_bytesOf, hw, List.length_append]
  have hlen' : w'.length = name.length + (m₁.length + m₂.length + 1) := by
    rw [← length_bytesOf, hw', List.length_append, List.length_append, List.length_cons]
    omega
  have htext : key ++ b ++ (0x20 :: name ++ 0x27 :: (m₁ ++ 0x27 :: m₂)) =
      key ++ b ++ (0x20 :: name ++ [0x27]) ++ (m₁ ++ 0x27 :: m₂) := by
    simp
  have hclose : (Lexer.mk [.word (unquoted (key ++ b))]
      (.single (unquoted name ++ quoted m₁))).step 0x27 =
        ⟨[.word (unquoted (key ++ b))], .plain (.word (unquoted name ++ quoted m₁)) false⟩ := rfl
  have hrest := size_run ⟨[.word (unquoted (key ++ b))],
    .plain (.word (unquoted name ++ quoted m₁)) false⟩ m₂
  rw [htext, run_append, run_front hkey hname hb, run_append,
    run_single hm₁, run_cons, hclose] at hrun
  rw [hrun] at hrest
  simp [Lexer.size, Mode.size, Mode.owed, Token.size] at hrest
  omega

/-- With a model path: where the words are the ones meant, the backend is plain and the path has
no quote. -/
theorem plain_of_words_model (h : BarePaths program daemon) (hkey : beginsWord key = true)
    (hname : beginsWord name = true)
    (hts : (Lexer.run {} (key ++ b ++ (0x20 :: name ++ 0x27 :: m) ++
      0x27 :: commandTail program daemon)).finish = some ts)
    (htexts : ts.map Token.text = [key ++ b, name ++ m, program, daemon].map some) :
    (∀ c ∈ b, isPlain c = true) ∧ 0x27 ∉ m := by
  have hsize := size_run {} (key ++ b ++ (0x20 :: name ++ 0x27 :: m))
  rw [run_append] at hts
  generalize hl : Lexer.run {} (key ++ b ++ (0x20 :: name ++ 0x27 :: m)) = l at hts hsize
  have hsplit : ([key ++ b, name ++ m, program, daemon].map some : List (Option Bytes)) =
      [some (key ++ b)] ++ [some (name ++ m), some program, some daemon] := rfl
  rcases quote_tail_cases h hts with ⟨w', hmode, rfl⟩ | ⟨place, hmode, rfl⟩ | ⟨hmode, rfl⟩
  · rw [List.map_append, hsplit] at htexts
    obtain ⟨hfirst, hsecond⟩ := List.append_inj' htexts rfl
    have hw' : bytesOf w' = name ++ m := by simpa [Token.text] using hsecond
    obtain ⟨token, htoken⟩ : ∃ token, l.tokens = [token] := by
      simpa [List.length_eq_one_iff] using congrArg List.length hfirst
    rw [htoken] at hfirst
    cases token with
    | word w =>
        have hw : bytesOf w = key ++ b := by simpa [Token.text] using hfirst
        have hrun : l = ⟨[.word w], .single w'⟩ := by rw [← htoken, ← hmode]
        rw [hrun] at hl
        have hb := plain_of_run_name hkey hname hl hw hw'
        exact ⟨hb, quote_not_mem_of_run_name hkey hname hb hl hw hw'⟩
    | ioNumber digits => simp [Token.text] at hfirst
    | operator symbol => simp [Token.text] at hfirst
  · -- The path would end in a backslash in the text, and in a quote in the word.
    rw [List.map_append, hsplit] at htexts
    have hsecond := (List.append_inj' htexts rfl).2
    have hw' : bytesOf place.letters ++ [0x27] = name ++ m := by
      have hall := List.cons.inj hsecond
      simpa [Token.text, bytesOf] using hall.1
    have hesc : l.mode.isEscaped = true := by rw [hmode]; rfl
    rcases List.eq_nil_or_concat m with rfl | ⟨init, c, rfl⟩
    · rw [← hl, ← List.append_assoc, run_append] at hesc
      exact absurd (eq_backslash_of_isEscaped hesc) (by decide)
    · rw [List.concat_eq_append] at hl hw'
      rw [← hl, ← List.cons_append, ← List.append_assoc, ← List.append_assoc, run_append] at hesc
      obtain rfl := eq_backslash_of_isEscaped hesc
      rw [← List.append_assoc] at hw'
      have hlast := (List.append_inj' hw' rfl).2
      exact absurd hlast (by decide)
  · have hsum := sum_size_of_text htexts
    simp [Lexer.size, hmode, Mode.size, Mode.owed, hsum] at hsize
    omega

end Front

/-! ### The command line as a whole -/

section Reading

variable {program daemon b m : Bytes}

def backendName : Bytes := ascii "DAFENG_BACKEND"

def modelName : Bytes := ascii "DAFENG_MODEL_PATH"

theorem beginsWord_backend : beginsWord (backendName ++ [0x3D]) = true := by decide

theorem beginsWord_model : beginsWord (modelName ++ [0x3D]) = true := by decide

/-- The command line without a model path. -/
def bareLine (b program daemon : Bytes) : Bytes :=
  backendName ++ [0x3D] ++ b ++ commandTail program daemon

/-- The command line with the model path `m`. -/
def modelLine (b m program daemon : Bytes) : Bytes :=
  backendName ++ [0x3D] ++ b ++ (0x20 :: (modelName ++ [0x3D]) ++ 0x27 :: m) ++
    0x27 :: commandTail program daemon

theorem unquoted_assignment (name value : Bytes) :
    unquoted (name ++ [0x3D] ++ value) = unquoted name ++ equalsSign :: unquoted value := by
  simp [unquoted, equalsSign]

/-- The assignment of the backend. -/
theorem addWord_backend (b : Bytes) :
    Command.addWord {} (unquoted (backendName ++ [0x3D] ++ b)) =
      if hasTilde (unquoted b) then none else some { assignments := [(backendName, b)] } := by
  rw [unquoted_assignment, addWord_assignment (by decide) (by decide) rfl,
    valueText_unquoted, bytesOf_unquoted]
  split_ifs <;> rfl

theorem addWord_model (b m : Bytes) :
    Command.addWord { assignments := [(backendName, b)] }
        (unquoted (modelName ++ [0x3D]) ++ quoted m) =
      some { assignments := [(backendName, b), (modelName, m)] } := by
  have hword : unquoted (modelName ++ [0x3D]) ++ quoted m =
      unquoted modelName ++ equalsSign :: quoted m := by
    simp [unquoted, equalsSign]
  rw [hword, addWord_assignment (by decide) (by decide) rfl, valueText_quoted,
    bytesOf_unquoted]
  rfl

theorem tokenize_bareLine (h : BarePaths program daemon) (hb : ∀ c ∈ b, isPlain c = true) :
    tokenize (bareLine b program daemon) = some [.word (unquoted (backendName ++ [0x3D] ++ b)),
      .word (unquoted program), .word (quoted daemon)] := by
  have hkey : Lexer.run {} (backendName ++ [0x3D] ++ b) =
      ⟨[], .plain (.word (unquoted (backendName ++ [0x3D] ++ b))) false⟩ := by
    have hkb : unquoted (backendName ++ [0x3D]) ++ unquoted b =
        unquoted (backendName ++ [0x3D] ++ b) := by simp [unquoted]
    rw [run_append, run_between beginsWord_backend, run_word hb, hkb]
  rw [tokenize, bareLine, run_append, hkey, run_tail_plain h]
  rfl

theorem tokenize_modelLine (h : BarePaths program daemon) (hb : ∀ c ∈ b, isPlain c = true)
    (hm : 0x27 ∉ m) :
    tokenize (modelLine b m program daemon) = some [.word (unquoted (backendName ++ [0x3D] ++ b)),
      .word (unquoted (modelName ++ [0x3D]) ++ quoted m), .word (unquoted program),
      .word (quoted daemon)] := by
  have htext : modelLine b m program daemon =
      backendName ++ [0x3D] ++ b ++ (0x20 :: (modelName ++ [0x3D]) ++ [0x27]) ++
        (m ++ 0x27 :: commandTail program daemon) := by
    simp [modelLine]
  rw [tokenize, htext, run_append,
    run_front beginsWord_backend beginsWord_model hb, run_append, run_single hm, run_cons]
  have hclose : ∀ ts w, (Lexer.mk ts (.single w)).step 0x27 = ⟨ts, .plain (.word w) false⟩ :=
    fun _ _ => rfl
  rw [hclose, run_tail_plain h]
  rfl

/-- Where the words are the ones meant, the command says so. -/
theorem texts_of_readCommand {text : Bytes} {ts : List Token} {c : Shell.Command}
    (h : readCommand text = some c) (hr : c.redirections = []) (hts : tokenize text = some ts) :
    ts.map Token.text = c.texts.map some := by
  rw [readCommand, hts] at h
  exact (texts_simpleCommand h hr).symm

/-- The command line without a model path reads as it is meant where the backend is bare. -/
theorem readCommand_bareLine (h : BarePaths program daemon) (b : Bytes) :
    readCommand (bareLine b program daemon) =
        some { assignments := [(backendName, b)], words := [program, daemon] } ↔
      IsBare b := by
  have hplain (hb : ∀ c ∈ b, isPlain c = true) : readCommand (bareLine b program daemon) =
      if hasTilde (unquoted b) then none
      else some { assignments := [(backendName, b)], words := [program, daemon] } := by
    rw [readCommand, tokenize_bareLine h hb]
    simp only [Option.bind_some, simpleCommand, addWord_backend]
    split_ifs <;> simp [h.program_word, addWord_quoted]
  constructor
  · intro hread
    have hb : ∀ c ∈ b, isPlain c = true := by
      obtain ⟨ts, hts, -⟩ := Option.bind_eq_some_iff.mp hread
      have htexts := texts_of_readCommand hread rfl hts
      refine plain_of_words h beginsWord_backend hts ?_
      simpa [Command.texts] using htexts
    refine ⟨hb, fun htilde => ?_⟩
    rw [hplain hb, if_pos ((hasTilde_unquoted b).mpr htilde)] at hread
    simp at hread
  · rintro ⟨hb, htilde⟩
    rw [hplain hb, if_neg (mt (hasTilde_unquoted b).mp htilde)]

/-- With one, where the backend is bare and the path has no quote. -/
theorem readCommand_modelLine (h : BarePaths program daemon) (b m : Bytes) :
    readCommand (modelLine b m program daemon) =
        some { assignments := [(backendName, b), (modelName, m)], words := [program, daemon] } ↔
      IsBare b ∧ 0x27 ∉ m := by
  have hplain (hb : ∀ c ∈ b, isPlain c = true) (hm : 0x27 ∉ m) :
      readCommand (modelLine b m program daemon) =
        if hasTilde (unquoted b) then none
        else some
          { assignments := [(backendName, b), (modelName, m)], words := [program, daemon] } := by
    rw [readCommand, tokenize_modelLine h hb hm]
    simp only [Option.bind_some, simpleCommand, addWord_backend]
    split_ifs <;> simp [addWord_model, h.program_word, addWord_quoted]
  constructor
  · intro hread
    have hb : (∀ c ∈ b, isPlain c = true) ∧ 0x27 ∉ m := by
      obtain ⟨ts, hts, -⟩ := Option.bind_eq_some_iff.mp hread
      have htexts := texts_of_readCommand hread rfl hts
      refine plain_of_words_model h beginsWord_backend beginsWord_model hts ?_
      simpa [Command.texts] using htexts
    refine ⟨⟨hb.1, fun htilde => ?_⟩, hb.2⟩
    rw [hplain hb.1 hb.2, if_pos ((hasTilde_unquoted b).mpr htilde)] at hread
    simp at hread
  · rintro ⟨⟨hb, htilde⟩, hm⟩
    rw [hplain hb hm, if_neg (mt (hasTilde_unquoted b).mp htilde)]

end Reading

/-! ### The launch-agent step -/

section Step

variable {w : SetupWorld} {backend modelPath cmd : Bytes}

theorem findShareDir_mem (present : Bytes → Bool) : findShareDir present ∈ shareCandidates := by
  unfold findShareDir
  cases hfind : shareCandidates.find? fun p => present (p ++ ascii "/deploy.sh") with
  | none => decide
  | some dir => exact List.mem_of_find?_eq_some hfind

theorem daemonBin_mem (present : Bytes → Bool) :
    daemonBin present ∈
      [ascii "/usr/local/bin/dafeng-daemon", ascii "/opt/homebrew/bin/dafeng-daemon"] := by
  unfold daemonBin
  split_ifs <;> decide

/-- The fixed paths of the command line need no quotes. -/
theorem barePaths_setup (before after : Bytes → Bool) :
    BarePaths (findShareDir before ++ ascii "/install_launchagent.sh") (daemonBin after) := by
  have hshare := findShareDir_mem before
  generalize findShareDir before = dir at hshare
  have hbegins : ∀ dir ∈ shareCandidates,
      beginsWord (dir ++ ascii "/install_launchagent.sh") = true := by
    decide
  have hword : ∀ dir ∈ shareCandidates,
      isAssignment (unquoted (dir ++ ascii "/install_launchagent.sh")) = false ∧
      isReserved (unquoted (dir ++ ascii "/install_launchagent.sh")) = false ∧
      wordText (unquoted (dir ++ ascii "/install_launchagent.sh")) =
        some (dir ++ ascii "/install_launchagent.sh") := by
    decide
  have hdaemon : ∀ bin ∈ [ascii "/usr/local/bin/dafeng-daemon",
      ascii "/opt/homebrew/bin/dafeng-daemon"], bin.all isPlain = true := by
    decide
  obtain ⟨ha, hr, ht⟩ := hword dir hshare
  exact {
    program_begins := hbegins dir hshare
    program_word := addWord_of_text ha hr ht
    daemon_plain := List.all_eq_true.mp (hdaemon _ (daemonBin_mem after)) }

/-- The second command of a setup that gets so far. -/
theorem cmdSetup_second (h : (cmdSetup w backend modelPath).1[1]? = some cmd) :
    cmd = commandLine (launchAgentCommand (envPrefix w.home backend modelPath)
      (findShareDir w.before) (daemonBin w.after)) := by
  by_cases hfound : w.before (findShareDir w.before ++ ascii "/deploy.sh") = false
  · simp [cmdSetup, hfound] at h
  by_cases hdeploy : w.system (findShareDir w.before ++ ascii "/deploy.sh") = 0
  · by_cases hllama : backend = llamaCpp ∧ w.after (llamaModel w.home modelPath) = false
    · simp [cmdSetup, hfound, hdeploy, hllama] at h
    · simpa [cmdSetup, hfound, hdeploy, hllama] using h.symm
  · simp [cmdSetup, hfound, hdeploy] at h

theorem backendKey : ascii "DAFENG_BACKEND=" = backendName ++ [0x3D] := by decide

/-- The assignments are followed by a blank, the script and the daemon in quotes. -/
theorem launchAgentCommand_eq (env shareDir daemon : Bytes) :
    launchAgentCommand (env ++ ascii " ") shareDir daemon =
      env ++ commandTail (shareDir ++ ascii "/install_launchagent.sh") daemon := by
  have hblank : ascii " " = [0x20] := by decide
  have hscript : ascii "/install_launchagent.sh '" =
      ascii "/install_launchagent.sh" ++ [0x20, 0x27] := by decide
  have hquote : ascii "'" = [0x27] := by decide
  simp [launchAgentCommand, commandTail, hblank, hscript, hquote]

theorem launchAgentCommand_bare (hb : backend ≠ []) (hdet : backend ≠ deterministic)
    (home : Option Bytes) (shareDir daemon : Bytes)
    (hmodel : setupModel home backend modelPath = none) :
    launchAgentCommand (envPrefix home backend modelPath) shareDir daemon =
      bareLine backend (shareDir ++ ascii "/install_launchagent.sh") daemon := by
  have henv : envPrefix home backend modelPath = backendName ++ [0x3D] ++ backend ++ ascii " " := by
    unfold setupModel at hmodel
    split_ifs at hmodel with hllama hpath
    simp [envPrefix, hllama, hb, hdet, hpath, backendKey]
  rw [henv, launchAgentCommand_eq, bareLine]

theorem launchAgentCommand_model (hb : backend ≠ []) (hdet : backend ≠ deterministic)
    (home : Option Bytes) (shareDir daemon : Bytes) {m : Bytes}
    (hmodel : setupModel home backend modelPath = some m) :
    launchAgentCommand (envPrefix home backend modelPath) shareDir daemon =
      modelLine backend m (shareDir ++ ascii "/install_launchagent.sh") daemon := by
  have hllamaKey : ascii "DAFENG_BACKEND=llama_cpp DAFENG_MODEL_PATH='" =
      backendName ++ [0x3D] ++ llamaCpp ++ (0x20 :: (modelName ++ [0x3D]) ++ [0x27]) := by
    decide
  have hname : ascii " " ++ ascii "DAFENG_MODEL_PATH='" =
      0x20 :: (modelName ++ [0x3D]) ++ [0x27] := by decide
  have hclose : ascii "' " = 0x27 :: ascii " " := by decide
  have henv : envPrefix home backend modelPath = backendName ++ [0x3D] ++ backend ++
      (0x20 :: (modelName ++ [0x3D]) ++ 0x27 :: m) ++ [0x27] ++ ascii " " := by
    unfold setupModel at hmodel
    split_ifs at hmodel with hllama hpath
    · obtain rfl := Option.some.inj hmodel
      simp [envPrefix, hllama, hllamaKey, hclose]
    · obtain rfl := Option.some.inj hmodel
      have hfront := congrArg (· ++ (modelPath ++ ascii "' ")) hname
      simp [envPrefix, hllama, hb, hdet, hpath, backendKey, hclose] at hfront ⊢
      exact hfront
  rw [henv, launchAgentCommand_eq, modelLine]
  simp

/-- A model path that the command carries has no NUL, where its parts have none. -/
theorem setupModel_nul (w : SetupWorld) (backend : Bytes) (hm : 0 ∉ modelPath) :
    ∀ m ∈ setupModel w.home backend modelPath, 0 ∉ m := by
  have hfile : 0 ∉ ascii ("/Library/Application Support/Dafeng/models/" ++
      "Qwen2.5-0.5B-Instruct-GGUF/qwen2.5-0.5b-instruct-q4_k_m.gguf") := by decide
  intro m hmem
  unfold setupModel llamaModel at hmem
  split_ifs at hmem
  · obtain rfl := Option.some.inj hmem
    cases hhome : w.home with
    | none => simp
    | some dir =>
        have hdir := w.home_nul dir hhome
        simpa using ⟨hdir, hfile⟩
  · obtain rfl := Option.some.inj hmem
    exact hm
  · simp at hmem
  · obtain rfl := Option.some.inj hmem
    exact hm

theorem paths_nul (before after : Bytes → Bool) :
    0 ∉ findShareDir before ++ ascii "/install_launchagent.sh" ∧ 0 ∉ daemonBin after := by
  have hshare : ∀ dir ∈ shareCandidates, 0 ∉ dir ++ ascii "/install_launchagent.sh" := by
    decide
  have hdaemon : ∀ bin ∈ [ascii "/usr/local/bin/dafeng-daemon",
      ascii "/opt/homebrew/bin/dafeng-daemon"], 0 ∉ bin := by
    decide
  exact ⟨hshare _ (findShareDir_mem before), hdaemon _ (daemonBin_mem after)⟩

/-- The launch-agent command carries its arguments exactly when the backend may stand bare and the
model path has no single quote. -/
theorem setup_command_faithful_iff (hb : backend ≠ []) (hdet : backend ≠ deterministic)
    (hbn : 0 ∉ backend) (hmn : 0 ∉ modelPath)
    (hcmd : (cmdSetup w backend modelPath).1[1]? = some cmd) :
    readCommand cmd = some (setupReading w backend modelPath) ↔
      IsBare backend ∧ ∀ m ∈ setupModel w.home backend modelPath, 0x27 ∉ m := by
  have hpaths := barePaths_setup w.before w.after
  obtain ⟨hprogram, hdaemon⟩ := paths_nul w.before w.after
  have hname : 0 ∉ backendName := by decide
  have hmodelName : 0 ∉ modelName := by decide
  rw [cmdSetup_second hcmd]
  cases hmodel : setupModel w.home backend modelPath with
  | none =>
      have hnul : 0 ∉ bareLine backend (findShareDir w.before ++ ascii "/install_launchagent.sh")
          (daemonBin w.after) := by
        simp only [bareLine, commandTail, List.mem_append, List.mem_cons] at hprogram ⊢
        simp [hname, hbn, hprogram, hdaemon]
      rw [launchAgentCommand_bare hb hdet _ _ _ hmodel, commandLine_eq hnul]
      have hreading := readCommand_bareLine hpaths backend
      simpa [setupReading, hmodel, backendName] using hreading
  | some m =>
      have hm := setupModel_nul w backend hmn m hmodel
      have hnul : 0 ∉ modelLine backend m
          (findShareDir w.before ++ ascii "/install_launchagent.sh") (daemonBin w.after) := by
        simp only [modelLine, commandTail, List.mem_append, List.mem_cons] at hprogram ⊢
        simp [hname, hmodelName, hbn, hm, hprogram, hdaemon]
      rw [launchAgentCommand_model hb hdet _ _ _ hmodel, commandLine_eq hnul]
      have hreading := readCommand_modelLine hpaths backend m
      simpa [setupReading, hmodel, backendName, modelName] using hreading

end Step

/-- A machine where every file is found and every command succeeds. -/
def completeSetup : SetupWorld where
  before _ := true
  after _ := true
  home := none
  system _ := 0
  home_nul := by simp

/-- What that setup gives the shell for the `llama_cpp` backend. -/
def llamaSetupCommand (modelPath : Bytes) : Bytes :=
  commandLine (launchAgentCommand (envPrefix none llamaCpp modelPath)
    (ascii "/usr/local/share/dafeng") (ascii "/usr/local/bin/dafeng-daemon"))

theorem setup_command_faithful_iff_llama :
    readCommand (llamaSetupCommand (ascii "/m.gguf")) =
        some (setupReading completeSetup llamaCpp (ascii "/m.gguf")) ↔
      IsBare llamaCpp ∧
        ∀ m ∈ setupModel completeSetup.home llamaCpp (ascii "/m.gguf"), 0x27 ∉ m :=
  setup_command_faithful_iff (by decide) (by decide) (by decide)
    (by decide) (by decide)

/-- An apostrophe in the directory's name ends the quotes, and the shell reads no command. -/
theorem setup_command_apostrophe :
    (cmdSetup completeSetup llamaCpp (ascii "/Users/o'neil/m.gguf")).1[1]? =
        some (llamaSetupCommand (ascii "/Users/o'neil/m.gguf")) ∧
      readCommand (llamaSetupCommand (ascii "/Users/o'neil/m.gguf")) ≠
        some (setupReading completeSetup llamaCpp (ascii "/Users/o'neil/m.gguf")) ∧
      readCommand (llamaSetupCommand (ascii "/Users/o'neil/m.gguf")) = none := by
  decide +kernel

end Dafeng.Client
