import Dafeng.Session.Step

/-!
# Dafeng.Session.Connection

What is always true of one connection.

While its worker runs, the bytes above the worker are the frames of the messages
it has not served yet (`Conn.Upward`), apart from what it has taken of the first
one and what the client has not written of the last one. So the worker serves
the messages the client sent, in order, and nothing else (`Conn.Ok`).
-/

namespace Dafeng.Session

open Dafeng.Msgpack Dafeng.Protocol Dafeng.Daemon

/-- What a worker holds of the frame it is reading. -/
def Worker.Taken : Worker → Bytes → Prop
  | .awaitBody len, taken =>
    taken.length = kFrameHeaderBytes ∧ readFrameLength taken = some len
  | _, taken => taken = []

/-- What a worker has not written of the reply it is writing. -/
def Worker.unwritten : Worker → Bytes
  | .replying rest => rest
  | _ => []

namespace Conn

/-- The messages that are not served yet. -/
def pending (conn : Conn) : List Message := (conn.sent.map Sent.message).drop conn.served.length

/-- The bytes between the client and the worker, when the client has yet to
write `unsent`. -/
def Upward (conn : Conn) (unsent : Bytes) : Prop :=
  conn.worker.isOpen → ∃ taken, conn.worker.Taken taken ∧
    frames conn.pending = taken ++ (conn.up ++ unsent)

/-- A served message got the answer it wants. -/
def ServedWell (reranker : RerankService) (m : Message) : Option Message → Prop
  | none => wantsReply m = false
  | some reply => Answers reranker m reply ∧ encodable reply

/-- The invariant of a connection. -/
structure Ok (reranker : RerankService) (conn : Conn) : Prop where
  aligned : conn.served.map Prod.fst <+: conn.sent.map Sent.message
  encodable : ∀ x ∈ conn.sent, encodable x.message
  served : ∀ p ∈ conn.served, ServedWell reranker p.1 p.2
  replying : ∀ rest, conn.worker = .replying rest → rest ≠ []
  upward : ∃ unsent, conn.Upward unsent

section Pending

variable {conn : Conn}

theorem pending_encodable (h : ∀ x ∈ conn.sent, encodable x.message) :
    ∀ m ∈ conn.pending, encodable m := by
  intro m hm
  obtain ⟨x, hx, rfl⟩ := List.mem_map.mp (List.mem_of_mem_drop hm)
  exact h x hx

theorem pending_send {x : Sent} (h : conn.served.map Prod.fst <+: conn.sent.map Sent.message) :
    (conn.send x).pending = conn.pending ++ [x.message] := by
  have hle : conn.served.length ≤ (conn.sent.map Sent.message).length := by
    simpa using h.length_le
  rw [pending, send, List.map_append, List.drop_append_of_le_length hle]
  rfl

theorem pending_takeBody {n now : Nat} {m : Message} {ms : List Message} {reply : Option Message}
    (h : conn.pending = m :: ms) : (conn.takeBody n now m reply).pending = ms := by
  have := congrArg List.tail h
  simpa [pending, takeBody, List.tail_drop] using this

/-- Unserved bytes belong to an unserved message. -/
theorem exists_pending {bytes : Bytes} (h : frames conn.pending = bytes) (hne : bytes ≠ []) :
    ∃ m ms, conn.pending = m :: ms := by
  cases hp : conn.pending with
  | nil => simp [hp, ← h] at hne
  | cons m ms => exact ⟨m, ms, rfl⟩

end Pending

/-! ### The worker reads -/

section Reading

variable {mp : Unpacker} {conn : Conn} {unsent : Bytes}

theorem Upward.takeHeader {since : Nat} (h : conn.Upward unsent)
    (hworker : conn.worker = .awaitHeader since) (hup : kFrameHeaderBytes ≤ conn.up.length) :
    conn.takeHeader.Upward unsent := by
  obtain ⟨taken, htaken, hframes⟩ := h (by rw [hworker]; rfl)
  rw [hworker] at htaken
  obtain rfl : taken = [] := htaken
  intro hopen
  unfold Conn.takeHeader at hopen ⊢
  dsimp only at hopen ⊢
  cases hlen : readFrameLength (conn.up.take kFrameHeaderBytes) with
  | none => simp [hlen, Worker.isOpen] at hopen
  | some len =>
      refine ⟨conn.up.take kFrameHeaderBytes, ⟨by simp [hup], hlen⟩, ?_⟩
      rw [← List.append_assoc, List.take_append_drop]
      exact hframes

/-- A header that is rejected belongs to the first message not served, which is above the
cap. -/
theorem Upward.header_rejected (mp : Unpacker) {since : Nat} (h : conn.Upward unsent)
    (hworker : conn.worker = .awaitHeader since) (hup : kFrameHeaderBytes ≤ conn.up.length)
    (hlen : readFrameLength (conn.up.take kFrameHeaderBytes) = none) :
    ∃ m ms, conn.pending = m :: ms ∧ kMaxFrameBodyBytes < (encodeBody m).length := by
  obtain ⟨taken, htaken, hframes⟩ := h (by rw [hworker]; rfl)
  rw [hworker] at htaken
  obtain rfl : taken = [] := htaken
  rw [List.nil_append] at hframes
  obtain ⟨m, ms, hp⟩ := exists_pending hframes fun hnil => by
    simp [(List.append_eq_nil_iff.mp hnil).1, kFrameHeaderBytes] at hup
  refine ⟨m, ms, hp, ?_⟩
  by_contra hcap
  -- a message within the cap has an acceptable header
  have hnext := nextFrame_frameOf mp (Nat.not_lt.mp hcap) (frames ms)
  rw [← frames_cons, ← hp, hframes] at hnext
  unfold nextFrame at hnext
  rw [if_neg (by simp; omega), List.take_append_of_le_length hup, hlen] at hnext
  exact absurd hnext (by simp)

variable (mp) in
/-- **What a worker decodes.** Behind a header the worker gets the first message
it has not served, or nothing. -/
theorem Upward.body {len : UInt32} (h : conn.Upward unsent)
    (henc : ∀ x ∈ conn.sent, encodable x.message)
    (hworker : conn.worker = .awaitBody len) (hup : len.toNat ≤ conn.up.length) :
    ∃ m ms, conn.pending = m :: ms ∧
      (decodeBody mp (conn.up.take len.toNat) = none ∨
        decodeBody mp (conn.up.take len.toNat) = some m ∧
          conn.up.drop len.toNat ++ unsent = frames ms ∧
          (encodeBody m).length ≤ kMaxFrameBodyBytes) := by
  obtain ⟨taken, htaken, hframes⟩ := h (by rw [hworker]; rfl)
  rw [hworker] at htaken
  obtain ⟨htlen, htread⟩ := htaken
  obtain ⟨m, ms, hp⟩ := exists_pending hframes fun hnil => by
    simp [(List.append_eq_nil_iff.mp hnil).1, kFrameHeaderBytes] at htlen
  have hm : encodable m := pending_encodable henc m (by simp [hp])
  refine ⟨m, ms, hp, frame_read mp hm ?_ htlen htread (by simp [hup])⟩
  rw [← frames_cons, ← hp, hframes, ← List.append_assoc (conn.up.take _),
    List.take_append_drop]

/-- A body that is rejected belongs to the first message not served, which is above the
cap. -/
theorem Upward.body_rejected {len : UInt32} (h : conn.Upward unsent)
    (hworker : conn.worker = .awaitBody len) (hup : len.toNat ≤ conn.up.length)
    (hdec : decodeBody mp (conn.up.take len.toNat) = none) :
    ∃ m ms, conn.pending = m :: ms ∧ kMaxFrameBodyBytes < (encodeBody m).length := by
  obtain ⟨taken, htaken, hframes⟩ := h (by rw [hworker]; rfl)
  rw [hworker] at htaken
  obtain ⟨htlen, htread⟩ := htaken
  obtain ⟨m, ms, hp⟩ := exists_pending hframes fun hnil => by
    simp [(List.append_eq_nil_iff.mp hnil).1, kFrameHeaderBytes] at htlen
  refine ⟨m, ms, hp, ?_⟩
  by_contra hcap
  -- a message within the cap is read whole
  have hnext := nextFrame_frameOf mp (Nat.not_lt.mp hcap) (frames ms)
  rw [← frames_cons, ← hp, hframes] at hnext
  unfold nextFrame at hnext
  rw [if_neg (by simp [htlen]), List.take_left' htlen, List.drop_left' htlen, htread] at hnext
  dsimp only at hnext
  rw [if_neg (by simp; omega), List.take_append_of_le_length hup, hdec] at hnext
  exact absurd hnext (by simp)

theorem Upward.takeBody {len : UInt32} {now : Nat} {msg : Message} {reply : Option Message}
    (h : conn.Upward unsent) (henc : ∀ x ∈ conn.sent, encodable x.message)
    (hworker : conn.worker = .awaitBody len) (hup : len.toNat ≤ conn.up.length)
    (hdec : decodeBody mp (conn.up.take len.toNat) = some msg) :
    (conn.takeBody len.toNat now msg reply).Upward unsent := by
  obtain ⟨m, ms, hp, hnone | ⟨hsome, hrest, -⟩⟩ := h.body mp henc hworker hup
  · simp [hdec] at hnone
  · obtain rfl : msg = m := Option.some.inj (hdec.symm.trans hsome)
    intro _
    refine ⟨[], ?_, ?_⟩
    · unfold Conn.takeBody
      cases reply <;> rfl
    · rw [pending_takeBody hp, List.nil_append]
      exact hrest.symm

end Reading

/-! ### The other steps -/

section Steps

variable {conn : Conn} {unsent : Bytes}

theorem Upward.push {bytes rest : Bytes} (h : conn.Upward (bytes ++ rest)) :
    (conn.push bytes).Upward rest := by
  intro hopen
  obtain ⟨taken, htaken, hframes⟩ := h hopen
  refine ⟨taken, htaken, ?_⟩
  rw [Conn.push, List.append_assoc]
  exact hframes

theorem Upward.send {x : Sent} (h : conn.Upward [])
    (ha : conn.served.map Prod.fst <+: conn.sent.map Sent.message) :
    (conn.send x).Upward (frameOf x.message) := by
  intro hopen
  obtain ⟨taken, htaken, hframes⟩ := h hopen
  refine ⟨taken, htaken, ?_⟩
  rw [pending_send ha, frames_append, hframes, frames_cons, frames_nil, List.append_nil,
    List.append_nil, List.append_assoc]
  rfl

theorem Upward.putReply {n now : Nat} {rest : Bytes} (h : conn.Upward unsent)
    (hworker : conn.worker = .replying rest) : (conn.putReply n now rest).Upward unsent := by
  obtain ⟨taken, htaken, hframes⟩ := h (by rw [hworker]; rfl)
  rw [hworker] at htaken
  intro _
  refine ⟨taken, ?_, hframes⟩
  unfold Conn.putReply
  dsimp only
  split <;> exact htaken

@[simp] theorem closeWorker_isOpen (conn : Conn) (why : CloseReason) :
    (conn.closeWorker why).worker.isOpen = false := by
  unfold Conn.closeWorker
  dsimp only
  split
  · rfl
  · rename_i hclosed
    exact Bool.eq_false_iff.mpr hclosed

/-- Nothing is owed to a worker that has ended. -/
theorem upward_of_closed (h : conn.worker.isOpen = false) : conn.Upward unsent := by
  intro hopen
  simp [h] at hopen

end Steps

/-! ### The invariant is kept -/

namespace Ok

variable {mp : Unpacker} {reranker : RerankService} {conn : Conn}

theorem fresh (reranker : RerankService) {conn : Conn} (hsent : conn.sent = [])
    (hserved : conn.served = []) (hup : conn.up = [])
    (hworker : ∀ rest, conn.worker ≠ .replying rest)
    (hbody : ∀ len, conn.worker ≠ .awaitBody len) : conn.Ok reranker where
  aligned := by simp [hserved]
  encodable := by simp [hsent]
  served := by simp [hserved]
  replying rest h := absurd h (hworker rest)
  upward := by
    refine ⟨[], fun _ => ⟨[], ?_, by simp [pending, hsent, hup]⟩⟩
    cases hw : conn.worker with
    | awaitHeader since => rfl
    | awaitBody len => exact absurd hw (hbody len)
    | replying rest => exact absurd hw (hworker rest)
    | closed why => rfl

theorem send {x : Sent} (h : conn.Ok reranker) (hup : conn.Upward [])
    (hx : Protocol.encodable x.message) : (conn.send x).Ok reranker where
  aligned := by
    simp only [Conn.send, List.map_append]
    exact h.aligned.trans (List.prefix_append _ _)
  encodable := by
    intro y hy
    rcases List.mem_append.mp hy with hy | hy
    · exact h.encodable y hy
    · rw [List.mem_singleton.mp hy]
      exact hx
  served := h.served
  replying := h.replying
  upward := ⟨_, hup.send h.aligned⟩

theorem push {bytes : Bytes} (h : conn.Ok reranker) (rest : Bytes)
    (hup : conn.Upward (bytes ++ rest)) :
    (conn.push bytes).Ok reranker where
  aligned := h.aligned
  encodable := h.encodable
  served := h.served
  replying := h.replying
  upward := ⟨rest, hup.push⟩

theorem pull {n : Nat} (h : conn.Ok reranker) : (conn.pull n).Ok reranker :=
  ⟨h.aligned, h.encodable, h.served, h.replying, h.upward⟩

theorem closeClient (h : conn.Ok reranker) : conn.closeClient.Ok reranker :=
  ⟨h.aligned, h.encodable, h.served, h.replying, h.upward⟩

theorem takeHeader {since : Nat} (h : conn.Ok reranker)
    (hworker : conn.worker = .awaitHeader since) (hup : kFrameHeaderBytes ≤ conn.up.length) :
    conn.takeHeader.Ok reranker where
  aligned := h.aligned
  encodable := h.encodable
  served := h.served
  replying := by
    intro rest hrest
    unfold Conn.takeHeader at hrest
    dsimp only at hrest
    split at hrest <;> simp at hrest
  upward := h.upward.imp fun _ hu => hu.takeHeader hworker hup

theorem rejectBody {n : Nat} (h : conn.Ok reranker) : (conn.rejectBody n).Ok reranker :=
  ⟨h.aligned, h.encodable, h.served, fun _ hrest => by simp [Conn.rejectBody] at hrest,
    [], upward_of_closed rfl⟩

theorem takeBody {len : UInt32} {now : Nat} {msg : Message} {reply : Option Message}
    (h : conn.Ok reranker) (hworker : conn.worker = .awaitBody len)
    (hup : len.toNat ≤ conn.up.length)
    (hdec : decodeBody mp (conn.up.take len.toNat) = some msg)
    (hreply : Protocol.encodable msg → ServedWell reranker msg reply) :
    (conn.takeBody len.toNat now msg reply).Ok reranker := by
  obtain ⟨unsent, hu⟩ := h.upward
  obtain ⟨m, ms, hp, hnone | ⟨hsome, -⟩⟩ := hu.body mp h.encodable hworker hup
  · simp [hdec] at hnone
  obtain rfl : msg = m := Option.some.inj (hdec.symm.trans hsome)
  refine ⟨?_, h.encodable, ?_, ?_, unsent, hu.takeBody h.encodable hworker hup hdec⟩
  · -- the served messages grow by the next one sent
    obtain ⟨rest, hrest⟩ := h.aligned
    refine ⟨ms, ?_⟩
    have hdrop : rest = msg :: ms := by
      rw [← hp, Conn.pending, ← hrest]
      exact (List.drop_left' (by simp)).symm
    simp only [Conn.takeBody, List.map_append, List.map_cons, List.map_nil, ← hrest, hdrop,
      List.append_assoc, List.singleton_append]
  · intro p hpmem
    rcases List.mem_append.mp hpmem with hpmem | hpmem
    · exact h.served p hpmem
    · rw [List.mem_singleton.mp hpmem]
      exact hreply (pending_encodable h.encodable msg (by simp [hp]))
  · intro rest hrest
    unfold Conn.takeBody at hrest
    cases reply with
    | none => simp at hrest
    | some reply =>
        simp only [Worker.replying.injEq] at hrest
        rw [← hrest]
        exact frameOf_ne_nil reply

theorem putReply {n now : Nat} {rest : Bytes} (h : conn.Ok reranker)
    (hworker : conn.worker = .replying rest) : (conn.putReply n now rest).Ok reranker where
  aligned := h.aligned
  encodable := h.encodable
  served := h.served
  replying := by
    intro rest' hrest'
    unfold Conn.putReply at hrest'
    dsimp only at hrest'
    split at hrest'
    · rename_i hne
      rw [← Worker.replying.inj hrest']
      exact hne
    · simp at hrest'
  upward := h.upward.imp fun _ hu => hu.putReply hworker

theorem closeWorker {why : CloseReason} (h : conn.Ok reranker) :
    (conn.closeWorker why).Ok reranker :=
  ⟨h.aligned, h.encodable, h.served,
    fun rest hrest => by
      have := closeWorker_isOpen conn why
      simp [hrest, Worker.isOpen] at this,
    [], upward_of_closed (closeWorker_isOpen conn why)⟩

end Ok

end Conn

end Dafeng.Session
