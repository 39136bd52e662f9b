import Dafeng.Daemon.Counters
import Dafeng.Inspector.Readback
import Mathlib.Data.List.Infix

/-!
# Dafeng.Inspector.Stats

What the Inspector shows of a running daemon: `CmdStats` of `src/cli/main.cc` prints the
counters, and the statistics page (`StatsView.swift`) and the menu bar
(`MenuBarController.swift`) read them out of its output.

A string is the list of its Unicode scalars. What the command prints is ASCII without carriage
returns, so that each scalar of it is a character by itself.
-/

namespace Dafeng.Inspector

open Dafeng.Protocol Dafeng.Daemon

/-! ### The command line -/

/-- What a run of `dafeng-cli` leaves behind. -/
structure CliOutput where
  stdout : List Char
  stderr : List Char
  exit : Int
  deriving DecidableEq, Repr

/-- `kModelNames` of `CmdStats`, and what stands for the versions behind them. -/
def modelName (version : UInt8) : String :=
  match version.toNat with
  | 0 => "mock"
  | 1 => "deterministic"
  | 2 => "mlx"
  | 3 => "llama_cpp"
  | _ => "unknown"

/-- The mean that `CmdStats` prints. -/
def meanUs (stats : StatsResponse) : UInt64 :=
  if 0 < stats.rerankCount then stats.rerankLatencySumUs / stats.rerankCount else 0

/-- A line as `printf` formats it. -/
def printField (label : String) (value : List Char) : List Char :=
  label.toList ++ ':' :: ' ' :: value

/-- `%llu` and `%u`. -/
def printUInt (n : Nat) : List Char := Nat.toDigits 10 n

/-- How an attempt to run the tool ends. The watchdog sends SIGTERM to a run that overshoots its
time, which may have printed something by then. -/
inductive Launch
  | notFound
  | notStarted
  | finished (out : CliOutput)
  | overshot (stdout stderr : List Char)
  deriving DecidableEq, Repr

/-- `DafengCLI.run`. -/
def run : Launch → Option CliOutput
  | .notFound | .notStarted => none
  | .finished out => some out
  | .overshot stdout stderr => some ⟨stdout, stderr, 15⟩

/-! ### The statistics page -/

/-- `DaemonStats`. -/
structure DaemonStats where
  uptimeSeconds : Int := 0
  modelName : List Char := "—".toList
  modelVersion : Int := 0
  rerankCount : Int := 0
  pingCount : Int := 0
  commitCount : Int := 0
  errorCount : Int := 0
  meanLatencyUs : Int := 0
  maxLatencyUs : Int := 0
  deriving DecidableEq, Repr

/-- `DaemonState`. -/
inductive DaemonState
  | unknown
  | offline
  | online (stats : DaemonStats)
  | toolMissing
  | error (message : List Char)
  deriving DecidableEq, Repr

/-- `Character.isNumber`, of which only the values on ASCII are used. -/
structure Numerals where
  isNumber : Char → Bool
  isNumber_ascii : ∀ c : Char, c.toNat < 128 → isNumber c = c.isDigit

/-- The ASCII digits and nothing else. -/
def Numerals.ascii : Numerals := ⟨Char.isDigit, fun _ _ => rfl⟩

/-- `parseLeadingInt`. -/
def parseLeadingInt (numerals : Numerals) (s : List Char) : Int :=
  (parseInt (s.takeWhile numerals.isNumber)).getD 0

/-- `split(separator: " ", maxSplits: 1)`: empty parts are no parts. -/
def splitOnce (s : List Char) : List (List Char) :=
  let s := s.dropWhile (· == ' ')
  [s.takeWhile (· != ' '), (s.dropWhile (· != ' ')).drop 1].filter (· ≠ [])

/-- `firstIndex(of:)`. -/
def firstIndex (c : Char) (s : List Char) : Option Nat := s.findIdx? (· == c)

/-- `lastIndex(of:)`. -/
def lastIndex (c : Char) (s : List Char) : Option Nat :=
  (firstIndex c s.reverse).map (s.length - 1 - ·)

/-- The number between the first `v` and the last `)` of a part. The version that was there
stays where these are missing. -/
def parseVersion (was : Int) (part : List Char) : Int :=
  match firstIndex 'v' part, lastIndex ')' part with
  | some lhs, some rhs =>
    if lhs < rhs then (parseInt ((part.take rhs).drop (lhs + 1))).getD 0 else was
  | _, _ => was

/-- What stands before the first colon, and behind it. -/
def splitField (line : List Char) : Option (List Char × List Char) :=
  if line.contains ':' then
    some (trim isWhitespace (line.takeWhile (· != ':')),
      trim isWhitespace ((line.dropWhile (· != ':')).drop 1))
  else none

/-- The lines of an output, without the empty ones. -/
def outputLines (stdout : List Char) : List (List Char) :=
  (stdout.splitOnP isNewline).filter (· ≠ [])

/-- One turn of the loop of `parse`. -/
def parseField (numerals : Numerals) (s : DaemonStats) (line : List Char) : DaemonStats :=
  match splitField line with
  | none => s
  | some (key, value) =>
    match String.ofList key with
    | "daemon uptime" => { s with uptimeSeconds := parseLeadingInt numerals value }
    | "rerank model" =>
      let parts := splitOnce value
      { s with
        modelName := parts.head?.getD s.modelName
        modelVersion := (parts.getLast?.map (parseVersion s.modelVersion)).getD s.modelVersion }
    | "rerank requests" => { s with rerankCount := parseLeadingInt numerals value }
    | "ping requests" => { s with pingCount := parseLeadingInt numerals value }
    | "commit events" => { s with commitCount := parseLeadingInt numerals value }
    | "errors" => { s with errorCount := parseLeadingInt numerals value }
    | "rerank mean (us)" => { s with meanLatencyUs := parseLeadingInt numerals value }
    | "rerank max  (us)" => { s with maxLatencyUs := parseLeadingInt numerals value }
    | _ => s

/-- `parse`. -/
def parse (numerals : Numerals) (stdout : List Char) : DaemonStats :=
  (outputLines stdout).foldl (parseField numerals) {}

/-- `contains(_:)`. -/
def containsText (s : List Char) (text : String) : Bool := decide (text.toList <:+: s)

/-- `refresh`: the state of the page after one run of `dafeng-cli stats`. -/
def refresh (numerals : Numerals) (launch : Launch) : DaemonState :=
  match run launch with
  | none => .toolMissing
  | some r =>
    if r.exit ≠ 0 then
      if containsText r.stderr "daemon unreachable" || containsText r.stderr "timeout" then .offline
      else .error (trim isWhitespaceOrNewline r.stderr)
    else .online (parse numerals r.stdout)

/-! ### The menu bar -/

/-- `DaemonBackend`. -/
inductive DaemonBackend
  | llama
  | deterministic
  | mlx
  | mock
  | unknown
  deriving DecidableEq, Repr

/-- `DaemonBackend.init(rawValue:)`. -/
def DaemonBackend.ofRawValue (token : List Char) : Option DaemonBackend :=
  match String.ofList token with
  | "llama_cpp" => some .llama
  | "deterministic" => some .deterministic
  | "mlx" => some .mlx
  | "mock" => some .mock
  | "unknown" => some .unknown
  | _ => none

/-- `DaemonRunState`. -/
inductive DaemonRunState
  | running (backend : DaemonBackend)
  | paused
  | unreachable
  | toolMissing
  | unknown
  deriving DecidableEq, Repr

/-- The backend that the first line about the model names. -/
def parseBackend : List (List Char) → DaemonBackend
  | [] => .unknown
  | line :: lines =>
    match splitField line with
    | none => parseBackend lines
    | some (key, rest) =>
      if String.ofList key = "rerank model" then
        (DaemonBackend.ofRawValue ((splitOnce rest).head?.getD [])).getD .unknown
      else parseBackend lines

/-- `poll`: a run of `dafeng-cli stats`, and of `dafeng-cli ping` where that fails. -/
def poll (stats ping : Launch) : DaemonRunState :=
  match run stats with
  | none => .toolMissing
  | some r =>
    if r.exit ≠ 0 then
      if (run ping).map CliOutput.exit = some 0 then .unreachable else .paused
    else .running (parseBackend (outputLines r.stdout))

end Dafeng.Inspector
