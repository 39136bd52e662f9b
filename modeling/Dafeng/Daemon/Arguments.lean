import Dafeng.Library.Options

/-!
# Dafeng.Daemon.Arguments

The command line of the daemon (`src/daemon/main.cc`): the options, with their defaults and
the ways to be refused.
-/

namespace Dafeng.Daemon

inductive BackendKind
  | mock
  | deterministic
  | mlx
  | llamaCpp
  deriving DecidableEq, Repr

/-- `ParseBackend`. -/
def parseBackend (s : Bytes) : Option BackendKind :=
  if s = ascii "mock" then some .mock
  else if s = ascii "deterministic" then some .deterministic
  else if s = ascii "mlx" then some .mlx
  else if s = ascii "llama_cpp" ∨ s = ascii "llamacpp" then some .llamaCpp
  else none

/-- `BackendName`. -/
def backendName : BackendKind → Bytes
  | .mock => ascii "mock"
  | .deterministic => ascii "deterministic"
  | .mlx => ascii "mlx"
  | .llamaCpp => ascii "llama_cpp"

inductive LogLevel
  | debug
  | info
  | warn
  | error
  deriving DecidableEq, Repr

/-- `ParseLogLevel`. -/
def parseLogLevel (s : Bytes) : Option LogLevel :=
  if s = ascii "debug" then some .debug
  else if s = ascii "info" then some .info
  else if s = ascii "warn" then some .warn
  else if s = ascii "error" then some .error
  else none

/-! ### Numbers -/

/-- `isspace` in the C locale. -/
def isSpace (c : UInt8) : Bool := c = 0x20 || (0x09 ≤ c && c ≤ 0x0D)

def isDigit (c : UInt8) : Bool := 0x30 ≤ c && c ≤ 0x39

/-- The number in front of the first byte that is no digit. -/
def leadingNumber (s : Bytes) : Nat :=
  (s.takeWhile isDigit).foldl (fun n c => 10 * n + (c.toNat - 48)) 0

/-- The sign and the digits behind leading blanks. -/
def signedNumber (s : Bytes) : Int :=
  match s.dropWhile isSpace with
  | 0x2D :: digits => -leadingNumber digits
  | 0x2B :: digits => leadingNumber digits
  | digits => leadingNumber digits

/-- `std::atoi`: a `strtol`, which stops at the bounds of a `long`, made an `int`. -/
def atoi (s : Bytes) : Int32 :=
  Int32.ofInt (max (-2 ^ 63) (min (2 ^ 63 - 1) (signedNumber s)))

/-! ### Options -/

/-- The variables that the options set. -/
structure Arguments where
  addr : Bytes
  level : LogLevel := .info
  backend : BackendKind := .deterministic
  modelPath : Bytes := []
  autoLearn : Bool := true
  rimeUserDir : Bytes := []
  wubiDict : Bytes := []
  autoLearnPollS : Int32 := 60
  autoLearnIdleS : Int32 := 30
  autoLearnMinIntervalS : Int32 := 300
  deriving DecidableEq, Repr

/-- What ends the program in front of the server. -/
inductive Refusal
  /-- the usage, with exit code 0 -/
  | usage
  /-- `invalid log level: `, with exit code 1 -/
  | invalidLogLevel (value : Bytes)
  /-- `invalid backend: `, with exit code 1 -/
  | invalidBackend (value : Bytes)
  /-- `unknown argument: ` and the usage, with exit code 1 -/
  | unknownArgument (arg : Bytes)
  deriving DecidableEq, Repr

/-- The code that `main` returns. -/
def Refusal.code : Refusal → Nat
  | .usage => 0
  | .invalidLogLevel _ | .invalidBackend _ | .unknownArgument _ => 1

/-- A value that is checked, and set. -/
def readInto {β : Type} (read : Bytes → Option β) (refuse : Bytes → Refusal)
    (set : β → Arguments → Arguments) (value : Bytes) (a : Arguments) :
    Except Refusal Arguments :=
  match read value with
  | some b => .ok (set b a)
  | none => .error (refuse value)

/-- An option whose value is checked. -/
def checked {β : Type} (read : Bytes → Option β) (refuse : Bytes → Refusal)
    (set : β → Arguments → Arguments) : Flag Arguments Refusal :=
  .valued (readInto read refuse set)

/-- An option that takes any value. -/
def free (set : Bytes → Arguments → Arguments) : Flag Arguments Refusal :=
  .valued fun value a => .ok (set value a)

/-- The comparisons of the loop, in their order. -/
def flags : List (Bytes × Flag Arguments Refusal) :=
  [(ascii "-h", .stop .usage), (ascii "--help", .stop .usage),
    (ascii "--foreground", .plain id),
    (ascii "--addr", free fun v a => { a with addr := v }),
    (ascii "--log-level",
      checked parseLogLevel .invalidLogLevel fun v a => { a with level := v }),
    (ascii "--backend",
      checked parseBackend .invalidBackend fun v a => { a with backend := v }),
    (ascii "--model-path", free fun v a => { a with modelPath := v }),
    (ascii "--auto-learn", .plain fun a => { a with autoLearn := true }),
    (ascii "--no-auto-learn", .plain fun a => { a with autoLearn := false }),
    (ascii "--rime-user-dir", free fun v a => { a with rimeUserDir := v }),
    (ascii "--wubi-dict", free fun v a => { a with wubiDict := v }),
    (ascii "--auto-learn-poll", free fun v a => { a with autoLearnPollS := atoi v }),
    (ascii "--auto-learn-idle", free fun v a => { a with autoLearnIdleS := atoi v }),
    (ascii "--auto-learn-min-interval",
      free fun v a => { a with autoLearnMinIntervalS := atoi v })]

def options : Options Arguments Refusal where
  flag arg := flags.lookup arg
  unknown := .unknownArgument

/-- The loop of `main` over the arguments; `addr` is `GetDaemonAddress()`. -/
def parseArguments (addr : Bytes) (args : List Bytes) : Except Refusal Arguments :=
  options.parse args { addr }

/-! ### The meaning of a command line -/

/-- The value behind an option of this name. -/
def valueOf (name : Bytes) : Written → Option Bytes
  | .valued n value => if n = name then some value else none
  | .plain _ => none

/-- What an option says of a pair of switches. -/
def switchOf (on off : Bytes) : Written → Option Bool
  | .plain n => if n = on then some true else if n = off then some false else none
  | .valued _ _ => none

/-- What the last option says that says anything. -/
def lastSaid {β : Type} (part : Written → Option β) (ws : List Written) : Option β :=
  (ws.filterMap part).getLast?

theorem lastSaid_concat {β : Type} (part : Written → Option β) (ws : List Written) (w : Written) :
    lastSaid part (ws ++ [w]) = (part w).or (lastSaid part ws) := by
  unfold lastSaid
  cases h : part w <;> simp [h]

def plainNames : List Bytes := ["--foreground", "--auto-learn", "--no-auto-learn"].map ascii

def valuedNames : List Bytes :=
  ["--addr", "--log-level", "--backend", "--model-path", "--rime-user-dir", "--wubi-dict",
    "--auto-learn-poll", "--auto-learn-idle", "--auto-learn-min-interval"].map ascii

/-- An option as the usage has it, with a value that it takes. -/
def Accepted : Written → Prop
  | .plain name => name ∈ plainNames
  | .valued name value =>
    name ∈ valuedNames ∧
    (name = ascii "--log-level" → (parseLogLevel value).isSome) ∧
    (name = ascii "--backend" → (parseBackend value).isSome)

/-- The settings that a list of options asks for: the last one of each name, or the default. -/
def settings (addr : Bytes) (ws : List Written) : Arguments where
  addr := (lastSaid (valueOf (ascii "--addr")) ws).getD addr
  level := ((lastSaid (valueOf (ascii "--log-level")) ws).bind parseLogLevel).getD .info
  backend := ((lastSaid (valueOf (ascii "--backend")) ws).bind parseBackend).getD .deterministic
  modelPath := (lastSaid (valueOf (ascii "--model-path")) ws).getD []
  autoLearn := (lastSaid (switchOf (ascii "--auto-learn") (ascii "--no-auto-learn")) ws).getD true
  rimeUserDir := (lastSaid (valueOf (ascii "--rime-user-dir")) ws).getD []
  wubiDict := (lastSaid (valueOf (ascii "--wubi-dict")) ws).getD []
  autoLearnPollS := ((lastSaid (valueOf (ascii "--auto-learn-poll")) ws).map atoi).getD 60
  autoLearnIdleS := ((lastSaid (valueOf (ascii "--auto-learn-idle")) ws).map atoi).getD 30
  autoLearnMinIntervalS :=
    ((lastSaid (valueOf (ascii "--auto-learn-min-interval")) ws).map atoi).getD 300

theorem readInto_eq_ok {β : Type} {read : Bytes → Option β} {refuse : Bytes → Refusal}
    {set : β → Arguments → Arguments} {value : Bytes} {b : β} (h : read value = some b)
    (a : Arguments) : readInto read refuse set value a = .ok (set b a) := by
  rw [readInto, h]

/-- One more option that is accepted. -/
theorem apply_settings (addr : Bytes) (ws : List Written) {w : Written} (h : Accepted w) :
    options.Has w ∧ options.apply (settings addr ws) w = .ok (settings addr (ws ++ [w])) := by
  cases w with
  | plain name =>
      simp only [Accepted, plainNames, List.map_cons, List.map_nil, List.mem_cons, List.not_mem_nil,
        or_false] at h
      obtain rfl | rfl | rfl := h
      all_goals
        refine ⟨⟨_, rfl⟩, congrArg Except.ok ?_⟩
        simp only [settings, lastSaid_concat]
        rfl
  | valued name value =>
      obtain ⟨hname, hlevel, hbackend⟩ := h
      simp only [valuedNames, List.map_cons, List.map_nil, List.mem_cons, List.not_mem_nil,
        or_false] at hname
      obtain rfl | rfl | rfl | rfl | rfl | rfl | rfl | rfl | rfl := hname
      case inr.inl =>
        obtain ⟨level, hread⟩ := Option.isSome_iff_exists.mp (hlevel rfl)
        refine ⟨⟨_, rfl⟩, ?_⟩
        show readInto parseLogLevel .invalidLogLevel (fun v a => { a with level := v }) value
          (settings addr ws) = _
        rw [readInto_eq_ok hread]
        refine congrArg Except.ok ?_
        have hlast : ((lastSaid (valueOf (ascii "--log-level"))
            (ws ++ [.valued (ascii "--log-level") value])).bind parseLogLevel).getD .info =
              level := by
          rw [lastSaid_concat]
          show (parseLogLevel value).getD .info = level
          rw [hread, Option.getD_some]
        simp only [settings, hlast]
        simp only [lastSaid_concat]
        rfl
      case inr.inr.inl =>
        obtain ⟨backend, hread⟩ := Option.isSome_iff_exists.mp (hbackend rfl)
        refine ⟨⟨_, rfl⟩, ?_⟩
        show readInto parseBackend .invalidBackend (fun v a => { a with backend := v }) value
          (settings addr ws) = _
        rw [readInto_eq_ok hread]
        refine congrArg Except.ok ?_
        have hlast : ((lastSaid (valueOf (ascii "--backend"))
            (ws ++ [.valued (ascii "--backend") value])).bind parseBackend).getD .deterministic =
              backend := by
          rw [lastSaid_concat]
          show (parseBackend value).getD .deterministic = backend
          rw [hread, Option.getD_some]
        simp only [settings, hlast]
        simp only [lastSaid_concat]
        rfl
      all_goals
        refine ⟨⟨_, rfl⟩, congrArg Except.ok ?_⟩
        simp only [settings, lastSaid_concat]
        rfl

theorem mem_flags {name : Bytes} {f : Flag Arguments Refusal} (h : options.flag name = some f) :
    (name, f) ∈ flags := by
  obtain ⟨before, after, hflags, -⟩ := List.lookup_eq_some_iff.mp h
  rw [hflags]
  exact List.mem_append_right _ List.mem_cons_self

theorem isSome_of_readInto {β : Type} {read : Bytes → Option β} {refuse : Bytes → Refusal}
    {set : β → Arguments → Arguments} {value : Bytes} {a b : Arguments}
    (h : readInto read refuse set value a = .ok b) : (read value).isSome := by
  unfold readInto at h
  split at h
  · rename_i c hread
    rw [hread]
    rfl
  · cases h

/-- The switches of the table. -/
theorem plain_of_flag {name : Bytes} {set : Arguments → Arguments}
    (h : options.flag name = some (.plain set)) : Accepted (.plain name) := by
  have hmem := mem_flags h
  simp only [flags, List.mem_cons, List.not_mem_nil, Prod.mk.injEq, free, checked, reduceCtorEq,
    and_false, or_false, false_or] at hmem
  simp only [Accepted, plainNames, List.map_cons, List.map_nil, List.mem_cons]
  obtain ⟨hname, -⟩ | ⟨hname, -⟩ | ⟨hname, -⟩ := hmem
  · exact .inl hname
  · exact .inr (.inl hname)
  · exact .inr (.inr (.inl hname))

/-- The options with a value: two of them check it. -/
theorem valued_cases {name : Bytes} {set : Bytes → Arguments → Except Refusal Arguments}
    (h : options.flag name = some (.valued set)) : name ∈ valuedNames ∧
      (name = ascii "--log-level" ∧
          set = readInto parseLogLevel .invalidLogLevel (fun v a => { a with level := v }) ∨
        name = ascii "--backend" ∧
          set = readInto parseBackend .invalidBackend (fun v a => { a with backend := v }) ∨
        ∃ put, Flag.valued set = free put) := by
  have hmem := mem_flags h
  simp only [flags, List.mem_cons, List.not_mem_nil, Prod.mk.injEq, checked, reduceCtorEq,
    and_false, or_false, false_or, Flag.valued.injEq] at hmem
  have hfree : ∀ {put : Bytes → Arguments → Arguments}, Flag.valued set = free put →
      ∃ put, Flag.valued set = free put := fun h => ⟨_, h⟩
  clear h
  obtain ⟨rfl, h⟩ | ⟨rfl, rfl⟩ | ⟨rfl, rfl⟩ | ⟨rfl, h⟩ | ⟨rfl, h⟩ | ⟨rfl, h⟩ | ⟨rfl, h⟩ |
    ⟨rfl, h⟩ | ⟨rfl, h⟩ := hmem
  case inr.inl => exact ⟨by decide, .inl ⟨rfl, rfl⟩⟩
  case inr.inr.inl => exact ⟨by decide, .inr (.inl ⟨rfl, rfl⟩)⟩
  all_goals exact ⟨by decide, .inr (.inr (hfree h))⟩

/-- An option that is read is accepted. -/
theorem valued_of_flag {name value : Bytes} {set : Bytes → Arguments → Except Refusal Arguments}
    (h : options.flag name = some (.valued set)) {a b : Arguments} (hb : set value a = .ok b) :
    Accepted (.valued name value) := by
  refine ⟨(valued_cases h).1, fun hlevel => ?_, fun hbackend => ?_⟩
  · subst hlevel
    obtain rfl := Flag.valued.inj (Option.some.inj h)
    exact isSome_of_readInto hb
  · subst hbackend
    obtain rfl := Flag.valued.inj (Option.some.inj h)
    exact isSome_of_readInto hb

theorem accepted_of_apply {a b : Arguments} {w : Written} (hw : options.Has w)
    (hb : options.apply a w = .ok b) : Accepted w := by
  cases w with
  | plain name =>
      obtain ⟨set, hflag⟩ := hw
      exact plain_of_flag hflag
  | valued name value =>
      obtain ⟨set, hflag⟩ := hw
      simp only [Options.apply, hflag] at hb
      exact valued_of_flag hflag hb

/-- Options behind others. -/
theorem applyAll_settings (addr : Bytes) (ws ws' : List Written) (b : Arguments) :
    ((∀ w ∈ ws', options.Has w) ∧ options.applyAll ws' (settings addr ws) = .ok b) ↔
      (∀ w ∈ ws', Accepted w) ∧ b = settings addr (ws ++ ws') := by
  induction ws' generalizing ws with
  | nil =>
      rw [List.append_nil, Options.applyAll]
      simp [eq_comm]
  | cons w ws' ih =>
      have hsplit : ws ++ w :: ws' = ws ++ [w] ++ ws' := by simp
      rw [hsplit, List.forall_mem_cons, List.forall_mem_cons]
      constructor
      · rintro ⟨⟨hw, hws'⟩, hb⟩
        rw [Options.applyAll] at hb
        split at hb
        · rename_i c hc
          have haccepted := accepted_of_apply hw hc
          rw [(apply_settings addr ws haccepted).2] at hc
          obtain rfl := Except.ok.inj hc
          obtain ⟨hrest, rfl⟩ := (ih (ws ++ [w])).mp ⟨hws', hb⟩
          exact ⟨⟨haccepted, hrest⟩, rfl⟩
        · cases hb
      · rintro ⟨⟨hw, hws'⟩, rfl⟩
        obtain ⟨hhas, happly⟩ := apply_settings addr ws hw
        obtain ⟨hhave, hall⟩ := (ih (ws ++ [w])).mpr ⟨hws', rfl⟩
        exact ⟨⟨hhas, hhave⟩, by rw [Options.applyAll, happly]; exact hall⟩

/-- An argument that ends the program, with what it says. -/
inductive Refuses : List Bytes → Refusal → Prop
  | usage {arg : Bytes} (rest : List Bytes) (h : arg ∈ ["-h", "--help"].map ascii) :
      Refuses (arg :: rest) .usage
  | unknown {arg : Bytes} (rest : List Bytes)
      (h : arg ∉ (plainNames ++ valuedNames ++ ["-h", "--help"].map ascii)) :
      Refuses (arg :: rest) (.unknownArgument arg)
  | missing {arg : Bytes} (h : arg ∈ valuedNames) : Refuses [arg] (.unknownArgument arg)
  | level {value : Bytes} (rest : List Bytes) (h : parseLogLevel value = none) :
      Refuses (ascii "--log-level" :: value :: rest) (.invalidLogLevel value)
  | backend {value : Bytes} (rest : List Bytes) (h : parseBackend value = none) :
      Refuses (ascii "--backend" :: value :: rest) (.invalidBackend value)

theorem flag_eq_none_iff {arg : Bytes} : options.flag arg = none ↔
    arg ∉ plainNames ++ valuedNames ++ ["-h", "--help"].map ascii := by
  have hnames : (flags.map Prod.fst).Perm
      (plainNames ++ valuedNames ++ ["-h", "--help"].map ascii) := by decide
  show flags.lookup arg = none ↔ _
  rw [← hnames.mem_iff, List.lookup_eq_none_iff, List.mem_map]
  simp only [bne_iff_ne, ne_eq, not_exists, not_and]
  exact forall₂_congr fun p _ => not_congr eq_comm

theorem exists_flag_of_mem {arg : Bytes} (h : arg ∈ valuedNames) :
    ∃ set, options.flag arg = some (.valued set) := by
  simp only [valuedNames, List.map_cons, List.map_nil, List.mem_cons, List.not_mem_nil,
    or_false] at h
  obtain rfl | rfl | rfl | rfl | rfl | rfl | rfl | rfl | rfl := h
  all_goals exact ⟨_, rfl⟩

theorem readInto_eq_error {β : Type} {read : Bytes → Option β} {refuse : Bytes → Refusal}
    {set : β → Arguments → Arguments} {value : Bytes} {a : Arguments} {e : Refusal} :
    readInto read refuse set value a = .error e ↔ read value = none ∧ e = refuse value := by
  unfold readInto
  cases read value <;> simp [eq_comm]

theorem fails_iff {a : Arguments} {args : List Bytes} {e : Refusal} :
    options.Fails a args e ↔ Refuses args e := by
  constructor
  · intro h
    cases h with
    | unknown rest h => exact .unknown rest (flag_eq_none_iff.mp h)
    | missing h => exact .missing (valued_cases h).1
    | stopped rest h =>
        have hmem := mem_flags h
        simp only [flags, List.mem_cons, List.not_mem_nil, Prod.mk.injEq, free, checked,
          reduceCtorEq, and_false, or_false, Flag.stop.injEq] at hmem
        obtain ⟨rfl, rfl⟩ | ⟨rfl, rfl⟩ := hmem
        · exact .usage rest (by decide)
        · exact .usage rest (by decide)
    | refused rest h hset =>
        obtain ⟨-, ⟨rfl, rfl⟩ | ⟨rfl, rfl⟩ | ⟨set, hfree⟩⟩ := valued_cases h
        · obtain ⟨hread, rfl⟩ := readInto_eq_error.mp hset
          exact .level rest hread
        · obtain ⟨hread, rfl⟩ := readInto_eq_error.mp hset
          exact .backend rest hread
        · obtain rfl := Flag.valued.inj hfree
          cases hset
  · intro h
    cases h with
    | usage rest h =>
        simp only [List.map_cons, List.map_nil, List.mem_cons, List.not_mem_nil, or_false] at h
        obtain rfl | rfl := h
        · exact .stopped rest rfl
        · exact .stopped rest rfl
    | unknown rest h => exact .unknown rest (flag_eq_none_iff.mpr h)
    | missing h =>
        obtain ⟨set, hflag⟩ := exists_flag_of_mem h
        exact .missing hflag
    | level rest h => exact .refused rest rfl (readInto_eq_error.mpr ⟨h, rfl⟩)
    | backend rest h => exact .refused rest rfl (readInto_eq_error.mpr ⟨h, rfl⟩)

/-- **The command line.** The daemon takes exactly the lists of its options, in any order and
however often, where each log level and each backend is one it knows; of several values the last
one counts, and where there is none the default. Any other command line ends it at the first
argument that is no such option, that misses its value, that asks for help or whose value is not
known. -/
theorem parseArguments_spec (addr : Bytes) (args : List Bytes) :
    (∀ a, parseArguments addr args = .ok a ↔ ∃ ws, args = commandArgs ws ∧
      (∀ w ∈ ws, Accepted w) ∧ a = settings addr ws) ∧
    ∀ e, parseArguments addr args = .error e ↔ ∃ ws rest, args = commandArgs ws ++ rest ∧
      (∀ w ∈ ws, Accepted w) ∧ Refuses rest e := by
  have hstart : settings addr [] = { addr } := rfl
  refine ⟨fun a => ?_, fun e => ?_⟩
  · rw [parseArguments, Options.parse_eq_ok_iff]
    refine exists_congr fun ws => and_congr_right fun _ => ?_
    exact applyAll_settings addr [] ws a
  · rw [parseArguments, Options.parse_eq_error_iff]
    refine exists_congr fun ws => exists_congr fun rest => ?_
    constructor
    · rintro ⟨b, hargs, hws, hb, hfails⟩
      exact ⟨hargs, ((applyAll_settings addr [] ws b).mp ⟨hws, hb⟩).1, fails_iff.mp hfails⟩
    · rintro ⟨hargs, hws, hrefuses⟩
      obtain ⟨hhas, hb⟩ := (applyAll_settings addr [] ws (settings addr ws)).mpr ⟨hws, rfl⟩
      exact ⟨settings addr ws, hargs, hhas, hb, fails_iff.mpr hrefuses⟩

end Dafeng.Daemon
