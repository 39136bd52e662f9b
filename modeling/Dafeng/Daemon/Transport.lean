import Dafeng.Daemon.ServerStream
import Dafeng.Endpoint.Windows

/-!
# Dafeng.Daemon.Transport

A worker over any connection that keeps the contract of `include/dafeng/endpoint.h`,
however its reads and writes are cut and wherever they fail. The connections of both
platforms keep it, and the worker on Windows does what the worker on Unix does.
-/

namespace Dafeng.Daemon

open Dafeng.Msgpack Dafeng.Protocol Dafeng.Endpoint

/-- The `Connection` interface, with its contract: a read takes bytes from the front of the
stream, and all `size` of them if it succeeds; a write adds a prefix of the buffer to what the
peer gets, and all of it if it succeeds. -/
structure Transport (κ : Type) where
  isConnected : κ → Bool
  readFull : κ → Nat → Option Bytes × κ
  writeAll : κ → Bytes → Bool × κ
  close : κ → κ
  inbox : κ → Bytes
  outbox : κ → Bytes
  read_inbox : ∀ c size, ∃ got, inbox c = got ++ inbox (readFull c size).2 ∧
    ∀ out, (readFull c size).1 = some out → out = got ∧ got.length = size
  read_outbox : ∀ c size, outbox (readFull c size).2 = outbox c
  write_outbox : ∀ c buf, ∃ cut, cut <+: buf ∧ outbox (writeAll c buf).2 = outbox c ++ cut ∧
    ((writeAll c buf).1 = true → cut = buf)
  write_inbox : ∀ c buf, inbox (writeAll c buf).2 = inbox c
  close_outbox : ∀ c, outbox (close c) = outbox c

/-! ### The two platforms -/

def unixTransport : Transport UnixConnection where
  isConnected := UnixConnection.isConnected
  readFull := UnixConnection.readFull
  writeAll := UnixConnection.writeAll
  close := UnixConnection.close
  inbox := UnixConnection.inbox
  outbox := UnixConnection.outbox
  read_inbox c size := by
    unfold UnixConnection.readFull
    split_ifs
    · have hspec := Transfer.pull_spec (c.turns.map Turn.pass) [] size c.inbox
      rw [readLoop_eq_pull] at hspec
      obtain ⟨got, hsplit, -, hfull⟩ := hspec
      exact ⟨got, hsplit, hfull⟩
    · exact ⟨[], rfl, fun out h => by cases h⟩
  read_outbox c size := by
    unfold UnixConnection.readFull
    split_ifs <;> rfl
  write_outbox c buf := by
    unfold UnixConnection.writeAll
    split_ifs
    · have hspec := Transfer.push_spec (c.turns.map Turn.pass) buf c.outbox
      rw [writeLoop_eq_push] at hspec
      exact hspec
    · exact ⟨[], List.nil_prefix, (List.append_nil _).symm, fun h => by cases h⟩
  write_inbox := writeAll_inbox
  close_outbox _ := rfl

def windowsTransport : Transport WinPipeConnection where
  isConnected := WinPipeConnection.isConnected
  readFull := WinPipeConnection.readFull
  writeAll := WinPipeConnection.writeAll
  close := WinPipeConnection.close
  inbox := WinPipeConnection.inbox
  outbox := WinPipeConnection.outbox
  read_inbox c size := by
    cases hready : c.ready with
    | false =>
        rw [c.readFull_not_ready hready]
        exact ⟨[], rfl, fun out h => by cases h⟩
    | true =>
        have hspec := Transfer.pull_spec (c.ios.map Io.pass) [] size c.inbox
        rw [doRead_eq_pull] at hspec
        obtain ⟨got, hsplit, -, hfull⟩ := hspec
        rw [c.readFull_ready hready]
        exact ⟨got, hsplit, hfull⟩
  read_outbox c size := by
    unfold WinPipeConnection.readFull
    split_ifs <;> rfl
  write_outbox c buf := by
    cases hready : c.ready with
    | false =>
        rw [c.writeAll_not_ready hready]
        exact ⟨[], List.nil_prefix, (List.append_nil _).symm, fun h => by cases h⟩
    | true =>
        have hspec := Transfer.push_spec (c.ios.map Io.pass) buf c.outbox
        rw [doWrite_eq_push] at hspec
        rw [c.writeAll_ready hready]
        exact hspec
  write_inbox c buf := by
    unfold WinPipeConnection.writeAll
    split_ifs <;> rfl
  close_outbox _ := rfl

/-! ### The worker -/

namespace Transport

section Worker

variable {κ : Type} (T : Transport κ) (mp : Unpacker) (reranker : RerankService)
  (env : Nat → Surroundings)

/-- One turn of the loop of `Server::HandleConnection`: whether it goes on, with the state and the
connection. -/
def turn (n : Nat) (st : ServerState) (conn : κ) : Bool × ServerState × κ :=
  if !T.isConnected conn then (false, st, T.close conn)
  else
    match T.readFull conn kFrameHeaderBytes with
    | (none, conn) => (false, st, T.close conn)
    | (some header, conn) =>
      match readFrameLength header with
      | none => (false, st, T.close conn)
      | some len =>
        match T.readFull conn len.toNat with
        | (none, conn) => (false, st, T.close conn)
        | (some body, conn) =>
          match decodeBody mp body with
          | none => (false, st, T.close conn)
          | some msg =>
            match dispatch reranker (env n).now ((env n).others st) msg with
            | (st, none) => (true, st, conn)
            | (st, some reply) =>
              match T.writeAll conn (encodeFrame (encodeBody reply)) with
              | (false, conn) => (false, st, T.close conn)
              | (true, conn) => (true, st, conn)

/-- `Server::HandleConnection` on any connection. -/
def handleConnection : Nat → Nat → ServerState → κ → Option (ServerState × κ)
  | 0, _, _, _ => none
  | fuel + 1, n, st, conn =>
    match T.turn mp reranker env n st conn with
    | (false, st, conn) => some (st, conn)
    | (true, st, conn) => handleConnection fuel (n + 1) st conn

/-- On Unix this is the worker as it stands. -/
theorem handleConnection_unix (fuel n : Nat) (st : ServerState) (conn : UnixConnection) :
    unixTransport.handleConnection mp reranker env fuel n st conn =
      Daemon.handleConnection mp reranker env fuel n st conn := by
  induction fuel generalizing n st conn with
  | zero => rfl
  | succ fuel ih =>
      have hopen : unixTransport.isConnected = UnixConnection.isConnected := rfl
      have hread : unixTransport.readFull = UnixConnection.readFull := rfl
      have hwrite : unixTransport.writeAll = UnixConnection.writeAll := rfl
      unfold handleConnection Daemon.handleConnection turn
      rw [hopen, hread, hwrite]
      split_ifs
      · rfl
      · obtain ⟨header, conn₁⟩ := conn.readFull kFrameHeaderBytes
        cases header with
        | none => rfl
        | some header =>
            dsimp only
            cases readFrameLength header with
            | none => rfl
            | some len =>
                dsimp only
                obtain ⟨body, conn₂⟩ := conn₁.readFull len.toNat
                cases body with
                | none => rfl
                | some body =>
                    dsimp only
                    cases decodeBody mp body with
                    | none => rfl
                    | some msg =>
                        dsimp only
                        obtain ⟨st₁, reply⟩ := dispatch reranker (env n).now ((env n).others st) msg
                        cases reply with
                        | none => exact ih _ _ _
                        | some reply =>
                            dsimp only
                            obtain ⟨done, conn₃⟩ := conn₂.writeAll (encodeFrame (encodeBody reply))
                            cases done with
                            | false => rfl
                            | true => exact ih _ _ _

/-- What a turn can do. It stops at no message; or it takes the next frame, dispatches the message,
and writes the reply if there is one; a reply that is cut stops it. -/
inductive Turns (n : Nat) (st : ServerState) (conn : κ) : Bool × ServerState × κ → Prop
  | idle (conn' : κ) (hout : T.outbox conn' = T.outbox conn) : Turns n st conn (false, st, conn')
  | served (msg : Message) (goesOn : Bool) (conn' : κ) (rest : Bytes) (cut : Bytes)
      (hnext : nextFrame mp (T.inbox conn) = some (msg, rest))
      (hcut : cut <+: frames (dispatch reranker (env n).now ((env n).others st) msg).2.toList)
      (hout : T.outbox conn' = T.outbox conn ++ cut)
      (hon : goesOn = true → T.inbox conn' = rest ∧
        cut = frames (dispatch reranker (env n).now ((env n).others st) msg).2.toList) :
      Turns n st conn
        (goesOn, (dispatch reranker (env n).now ((env n).others st) msg).1, conn')

theorem turns (n : Nat) (st : ServerState) (conn : κ) :
    T.Turns mp reranker env n st conn (T.turn mp reranker env n st conn) := by
  unfold turn
  split_ifs
  · exact .idle _ (T.close_outbox _)
  · obtain ⟨got, hinbox, hheader⟩ := T.read_inbox conn kFrameHeaderBytes
    have hout := T.read_outbox conn kFrameHeaderBytes
    generalize T.readFull conn kFrameHeaderBytes = r at hinbox hheader hout
    obtain ⟨header, conn₁⟩ := r
    dsimp only at hinbox hheader hout
    cases header with
    | none => exact .idle _ ((T.close_outbox _).trans hout)
    | some header =>
        obtain ⟨rfl, hlen⟩ := hheader header rfl
        dsimp only
        cases hframe : readFrameLength header with
        | none => exact .idle _ ((T.close_outbox _).trans hout)
        | some len =>
            dsimp only
            obtain ⟨got, hinbox₁, hbody⟩ := T.read_inbox conn₁ len.toNat
            have hout₁ := (T.read_outbox conn₁ len.toNat).trans hout
            generalize T.readFull conn₁ len.toNat = r at hinbox₁ hbody hout₁
            obtain ⟨body, conn₂⟩ := r
            dsimp only at hinbox₁ hbody hout₁
            cases body with
            | none => exact .idle _ ((T.close_outbox _).trans hout₁)
            | some body =>
                obtain ⟨rfl, hbodyLen⟩ := hbody body rfl
                dsimp only
                cases hdecode : decodeBody mp body with
                | none => exact .idle _ ((T.close_outbox _).trans hout₁)
                | some msg =>
                    have hnext : nextFrame mp (T.inbox conn) = some (msg, T.inbox conn₂) := by
                      refine (nextFrame_eq_some_iff mp).mpr
                        ⟨header, len, body, hlen, hframe, hbodyLen, hdecode, ?_⟩
                      rw [hinbox, hinbox₁]
                    dsimp only
                    split
                    · rename_i st₁ hdispatch
                      rw [show st₁ = (dispatch reranker (env n).now ((env n).others st) msg).1 by
                        rw [hdispatch]]
                      refine .served msg true conn₂ _ [] hnext List.nil_prefix ?_ fun _ => ?_
                      · simpa using hout₁
                      · exact ⟨rfl, by rw [hdispatch]; rfl⟩
                    · rename_i st₁ reply hdispatch
                      rw [show st₁ = (dispatch reranker (env n).now ((env n).others st) msg).1 by
                        rw [hdispatch]]
                      have hframes : frames
                          (dispatch reranker (env n).now ((env n).others st) msg).2.toList =
                            encodeFrame (encodeBody reply) := by
                        rw [hdispatch]
                        simp [frameOf]
                      obtain ⟨cut, hcut, hwrite, hall⟩ :=
                        T.write_outbox conn₂ (encodeFrame (encodeBody reply))
                      have hinbox₂ := T.write_inbox conn₂ (encodeFrame (encodeBody reply))
                      generalize T.writeAll conn₂ (encodeFrame (encodeBody reply)) = r
                        at hwrite hall hinbox₂
                      obtain ⟨done, conn₃⟩ := r
                      rw [hout₁] at hwrite
                      cases done with
                      | false =>
                          refine .served msg false _ _ cut hnext (by rwa [hframes]) ?_
                            (fun h => by cases h)
                          exact (T.close_outbox _).trans hwrite
                      | true =>
                          refine .served msg true _ _ cut hnext (by rwa [hframes]) hwrite ?_
                          exact fun _ => ⟨hinbox₂, by rw [hframes, hall rfl]⟩

/-- What a worker did: it dispatched the first messages of the stream, and wrote a prefix of the
replies to them. Only the last reply can have been cut. -/
structure Served (n : Nat) (st : ServerState) (inbox : Bytes) (ms : List Message)
    (st' : ServerState) (out : Bytes) : Prop where
  taken : ms <+: parseFrames mp inbox
  state : st' = (serve reranker env n st ms).1
  written : out <+: frames (serve reranker env n st ms).2
  whole : frames (serve reranker env n st ms.dropLast).2 <+: out

theorem served_nil (n : Nat) (st : ServerState) (inbox : Bytes) :
    Served mp reranker env n st inbox [] st [] :=
  ⟨List.nil_prefix, rfl, List.nil_prefix, List.nil_prefix⟩

/-- **A worker under faults.** However the connection cuts its reads and writes and wherever it
fails: a worker that returns has dispatched the messages of the first frames of the stream, in
order and with nothing else, and written the replies to them, of which only the last may be
missing or cut. -/
theorem handleConnection_served {fuel n : Nat} {st st' : ServerState} {conn conn' : κ}
    (h : T.handleConnection mp reranker env fuel n st conn = some (st', conn')) :
    ∃ ms out, T.outbox conn' = T.outbox conn ++ out ∧
      Served mp reranker env n st (T.inbox conn) ms st' out := by
  induction fuel generalizing n st conn with
  | zero => cases h
  | succ fuel ih =>
      unfold handleConnection at h
      have hturn := T.turns mp reranker env n st conn
      generalize T.turn mp reranker env n st conn = r at h hturn
      cases hturn with
      | idle conn₁ hout =>
          obtain ⟨rfl, rfl⟩ := Prod.mk.inj (Option.some.inj h)
          exact ⟨[], [], by simpa using hout, served_nil mp reranker env n st _⟩
      | served msg goesOn conn₁ rest cut hnext hcut hout hon =>
          cases goesOn with
          | false =>
              obtain ⟨rfl, rfl⟩ := Prod.mk.inj (Option.some.inj h)
              refine ⟨[msg], cut, hout, ?_, rfl, ?_, List.nil_prefix⟩
              · rw [parseFrames_of_some mp hnext]
                exact (List.prefix_append [msg] _)
              · simpa [serve] using hcut
          | true =>
              obtain ⟨hrest, hwhole⟩ := hon rfl
              obtain ⟨ms, out, hout', hserved⟩ := ih h
              refine ⟨msg :: ms, cut ++ out, by rw [hout', hout, List.append_assoc], ?_, ?_, ?_, ?_⟩
              · rw [parseFrames_of_some mp hnext, ← hrest]
                exact List.cons_prefix_cons.mpr ⟨rfl, hserved.taken⟩
              · rw [hserved.state, serve]
              · rw [serve, frames_append, ← hwhole]
                exact (List.prefix_append_right_inj _).mpr hserved.written
              · cases ms with
                | nil => exact List.nil_prefix
                | cons msg' ms =>
                    rw [List.dropLast_cons_cons, serve, frames_append, ← hwhole]
                    exact (List.prefix_append_right_inj _).mpr hserved.whole

end Worker

/-! ### The same worker on both platforms -/

section Platforms

variable (mp : Unpacker) (reranker : RerankService) (env : Nat → Surroundings)

/-- Two turns that agree: on whether the loop goes on and on the state. Windows may have written
more, unless operations that are given up move nothing; and if the loop goes on, the connections
stand alike again. -/
structure SameTurn (clean : Prop) (win : Bool × ServerState × WinPipeConnection)
    (unix : Bool × ServerState × UnixConnection) : Prop where
  goesOn : unix.1 = win.1
  state : unix.2.1 = win.2.1
  outbox : unix.2.2.outbox <+: win.2.2.outbox
  clean : clean → unix.2.2.outbox = win.2.2.outbox ∧ win.2.2.Clean
  alike : win.1 = true → Alike win.2.2 unix.2.2

/-- Both stop, with nothing written since. -/
theorem sameTurn_stop {conn : WinPipeConnection} {unix : UnixConnection} {clean : Prop}
    (st : ServerState) (hout : unix.outbox = conn.outbox) (hclean : clean → conn.Clean) :
    SameTurn clean (false, st, conn.close) (false, st, unix.close) :=
  ⟨rfl, rfl, hout ▸ List.prefix_rfl, fun h => ⟨hout, hclean h⟩, fun h => by cases h⟩

/-- A read on both. -/
theorem read_alike {conn : WinPipeConnection} {unix : UnixConnection} (h : Alike conn unix)
    (size : Nat) : ∃ result conn' unix', windowsTransport.readFull conn size = (result, conn') ∧
      unixTransport.readFull unix size = (result, unix') ∧ unix'.outbox = conn'.outbox ∧
      (conn.Clean → conn'.Clean) ∧ (result.isSome → Alike conn' unix') := by
  obtain ⟨hsame, halike⟩ := h.readFull size
  refine ⟨(conn.readFull size).1, (conn.readFull size).2, (unix.readFull size).2, rfl, ?_, ?_,
    fun hclean => WinPipeConnection.clean_readFull hclean size, halike⟩
  · rw [← hsame]
    rfl
  · exact (unixTransport.read_outbox unix size).trans
      (h.outbox.trans (windowsTransport.read_outbox conn size).symm)

/-- A write on both. -/
theorem write_alike {conn : WinPipeConnection} {unix : UnixConnection} (h : Alike conn unix)
    (buf : Bytes) : ∃ done conn' unix', windowsTransport.writeAll conn buf = (done, conn') ∧
      unixTransport.writeAll unix buf = (done, unix') ∧ unix'.outbox <+: conn'.outbox ∧
      (conn.Clean → unix'.outbox = conn'.outbox ∧ conn'.Clean) ∧
      (done = true → Alike conn' unix') := by
  obtain ⟨hsame, hpre, hout, halike⟩ := h.writeAll buf
  refine ⟨(conn.writeAll buf).1, (conn.writeAll buf).2, (unix.writeAll buf).2, rfl, ?_, hpre,
    fun hclean => ⟨hout hclean, WinPipeConnection.clean_writeAll hclean buf⟩, halike⟩
  rw [← hsame]
  rfl

theorem turn_alike {conn : WinPipeConnection} {unix : UnixConnection} (h : Alike conn unix)
    (n : Nat) (st : ServerState) :
    SameTurn conn.Clean (windowsTransport.turn mp reranker env n st conn)
      (unixTransport.turn mp reranker env n st unix) := by
  have hwin : windowsTransport.isConnected conn = conn.isConnected := rfl
  have hunix : unixTransport.isConnected unix = conn.ready := h.connected
  unfold turn
  rw [hwin, hunix]
  cases hready : conn.ready with
  | false =>
      have hunready : windowsTransport.readFull conn kFrameHeaderBytes = (none, conn) :=
        conn.readFull_not_ready hready _
      rw [hunready]
      cases conn.isConnected <;> exact sameTurn_stop st h.outbox id
  | true =>
      rw [(Bool.and_eq_true_iff.mp hready).1]
      -- the header
      obtain ⟨header, conn₁, unix₁, hread, hread', hout, hclean, halike⟩ :=
        read_alike h kFrameHeaderBytes
      rw [hread, hread']
      cases header with
      | none => exact sameTurn_stop st hout hclean
      | some header =>
          simp only [Bool.not_true, Bool.false_eq_true, if_false]
          cases readFrameLength header with
          | none => exact sameTurn_stop st hout hclean
          | some len =>
              -- the body
              obtain ⟨body, conn₂, unix₂, hread, hread', hout, hclean', halike⟩ :=
                read_alike (halike rfl) len.toNat
              dsimp only
              rw [hread, hread']
              replace hclean := fun h => hclean' (hclean h)
              cases body with
              | none => exact sameTurn_stop st hout hclean
              | some body =>
                  dsimp only
                  cases decodeBody mp body with
                  | none => exact sameTurn_stop st hout hclean
                  | some msg =>
                      dsimp only
                      obtain ⟨st₁, reply⟩ := dispatch reranker (env n).now ((env n).others st) msg
                      cases reply with
                      | none =>
                          exact ⟨rfl, rfl, hout ▸ List.prefix_rfl, fun h => ⟨hout, hclean h⟩,
                            fun _ => halike rfl⟩
                      | some reply =>
                          -- the reply
                          obtain ⟨done, conn₃, unix₃, hwrite, hwrite', hpre, hsame, halike⟩ :=
                            write_alike (halike rfl) (encodeFrame (encodeBody reply))
                          dsimp only
                          rw [hwrite, hwrite']
                          cases done with
                          | false =>
                              exact ⟨rfl, rfl, hpre, fun h => hsame (hclean h),
                                fun h => by cases h⟩
                          | true =>
                              exact ⟨rfl, rfl, hpre, fun h => hsame (hclean h), halike⟩

/-- **The worker on Windows is the worker on Unix.** On connections that stand alike, the workers
leave the server in the same state, and write the same, but for bytes that an operation moved which
was given up: these the peer may get on Windows at the end. -/
theorem handleConnection_windows {conn : WinPipeConnection} {unix : UnixConnection}
    (h : Alike conn unix) (fuel n : Nat) (st : ServerState) :
    (windowsTransport.handleConnection mp reranker env fuel n st conn).map Prod.fst =
      (Daemon.handleConnection mp reranker env fuel n st unix).map Prod.fst ∧
    ∀ st₁ conn' st₂ unix',
      windowsTransport.handleConnection mp reranker env fuel n st conn = some (st₁, conn') →
      Daemon.handleConnection mp reranker env fuel n st unix = some (st₂, unix') →
      unix'.outbox <+: conn'.outbox ∧ (conn.Clean → unix'.outbox = conn'.outbox) := by
  simp only [← handleConnection_unix]
  induction fuel generalizing n st conn unix with
  | zero => exact ⟨rfl, fun _ _ _ _ h => by cases h⟩
  | succ fuel ih =>
      have hturn := turn_alike mp reranker env h n st
      unfold handleConnection
      generalize windowsTransport.turn mp reranker env n st conn = win at hturn
      generalize unixTransport.turn mp reranker env n st unix = unx at hturn
      obtain ⟨goesOn, st₁, conn₁⟩ := win
      obtain ⟨goesOn', st₁', unix₁⟩ := unx
      obtain ⟨rfl, rfl, hpre, hclean, halike⟩ := hturn
      cases goesOn' with
      | false =>
          refine ⟨rfl, fun _ _ _ _ hwin hunix => ?_⟩
          obtain ⟨-, rfl⟩ := Prod.mk.inj (Option.some.inj hwin)
          obtain ⟨-, rfl⟩ := Prod.mk.inj (Option.some.inj hunix)
          exact ⟨hpre, fun h => (hclean h).1⟩
      | true =>
          obtain ⟨hstate, hout⟩ := ih (halike rfl) (n + 1) st₁'
          refine ⟨hstate, fun st₂ conn' st₃ unix' hwin hunix => ?_⟩
          obtain ⟨hpre', hsame⟩ := hout st₂ conn' st₃ unix' hwin hunix
          exact ⟨hpre', fun h => hsame (hclean h).2⟩

end Platforms

/-- The server at the fifth microsecond of every minute, with one worker. -/
def quiet : Nat → Surroundings := fun _ => ⟨⟨5, 60⟩, id⟩

/-- A ping, and the time for three bytes of the pong. -/
def cutPong : UnixConnection where
  isConnected := true
  inbox := frameOf (.ping { requestId := 7 })
  outbox := []
  turns := [.transfer 4, .tryAgain, .transfer 100, .transfer 3, .pollTimeout]

/-- The ping is counted, and the pong is cut. -/
theorem handleConnection_served_cut : ∃ st' conn' ms out,
    unixTransport.handleConnection .reference mockReverse quiet 9 0 {} cutPong = some (st', conn') ∧
    st'.pingCount = 1 ∧ conn'.outbox.length = 3 ∧ conn'.outbox = out ∧
    Served .reference mockReverse quiet 0 {} cutPong.inbox ms st' out := by
  have hrun : ∃ conn', unixTransport.handleConnection .reference mockReverse quiet 9 0 {} cutPong =
      some ({ pingCount := 1 }, conn') ∧ conn'.outbox.length = 3 := ⟨_, rfl, rfl⟩
  obtain ⟨conn', hrun, hlen⟩ := hrun
  obtain ⟨ms, out, hout, hserved⟩ :=
    unixTransport.handleConnection_served .reference mockReverse quiet hrun
  exact ⟨_, conn', ms, out, hrun, rfl, hlen, hout, hserved⟩

/-- A ping, and a pong that is given up when all of it was written. -/
def latePong : WinPipeConnection where
  isConnected := true
  eventValid := true
  inbox := frameOf (.ping { requestId := 7 })
  outbox := []
  ios := [.completed 4, .atOnce 100, .timedOut 100]

/-- On Unix nothing of the pong would be written, on Windows all of it is. -/
theorem handleConnection_windows_late : ∃ conn' unix',
    windowsTransport.handleConnection .reference mockReverse quiet 9 0 {} latePong =
      some ({ pingCount := 1 }, conn') ∧
    Daemon.handleConnection .reference mockReverse quiet 9 0 {} latePong.toUnix =
      some ({ pingCount := 1 }, unix') ∧
    unix'.outbox <+: conn'.outbox ∧ unix'.outbox = [] ∧
    conn'.outbox = frameOf (.pong { requestId := 7 }) := by
  have hwin : ∃ conn', windowsTransport.handleConnection .reference mockReverse quiet 9 0 {}
      latePong = some ({ pingCount := 1 }, conn') ∧
        conn'.outbox = frameOf (.pong { requestId := 7 }) := ⟨_, rfl, rfl⟩
  have hunix : ∃ unix', Daemon.handleConnection .reference mockReverse quiet 9 0 {}
      latePong.toUnix = some ({ pingCount := 1 }, unix') ∧ unix'.outbox = [] := ⟨_, rfl, rfl⟩
  obtain ⟨conn', hwin, hall⟩ := hwin
  obtain ⟨unix', hunix, hnone⟩ := hunix
  have hsame := (handleConnection_windows .reference mockReverse quiet latePong.alike_toUnix 9 0
    {}).2 _ _ _ _ hwin hunix
  exact ⟨conn', unix', hwin, hunix, hsame.1, hnone, hall⟩

end Transport

end Dafeng.Daemon
