import LockFreeCore.Proofs.EchoServer

/-! # The echo server sends all that it owes

While a session is open a send is in flight whenever its ring holds packets, so completions of sends alone empty
it: nothing that was answered is left behind. No answer is refused until 3749 of them have been given, which is
what the ring has room for.
-/

namespace LockFreeCore.EchoServer

open Framing

variable {allocated : ℤ → UInt8} {junk : ℕ → Junk} {s next : Session}

/-- A send is in flight, of one packet at least, whenever there is something to send. -/
structure Prompt (s : Session) : Prop where
  idle : s.m_isSendPending = false → s.m_sendRingBuff = []
  sending : s.m_isSendPending = true → 0 < s.m_sendPacketCount

/-- The pointers that the ring has room for. -/
def room : ℕ := 3749

/-- No more packets are in the ring than were answered, and as long as they fit none was refused. -/
structure Roomy (answered : ℕ) (s : Session) : Prop where
  few : s.m_sendRingBuff.length ≤ answered
  refused : answered ≤ room → s.refused = 0

namespace Session

theorem sendPacket_m_isClosing (pack : CPacket) : (s.sendPacket pack).m_isClosing = s.m_isClosing := by
  rw [sendPacket]
  cases Wire.sendPacket s.getFreeSize pack with
  | none => rfl
  | some sent => exact sendPost_m_isClosing

/-- What is in the ring of an open session is posted, unless a send is in flight. -/
theorem sendPost_prompt (going : s.m_isClosing = false) (sending : s.m_isSendPending = true → 0 < s.m_sendPacketCount)
    (some : 0 < s.m_sendRingBuff.length) : Prompt s.sendPost := by
  rw [sendPost]
  split_ifs with pending closing many
  · exact ⟨fun idle => absurd pending (Bool.eq_false_iff.mp idle), fun _ => sending pending⟩
  · exact absurd closing (Bool.eq_false_iff.mp going)
  · exact ⟨fun idle => (by cases idle), fun _ => Nat.succ_pos 999⟩
  · exact ⟨fun idle => (by cases idle), fun _ => some⟩

theorem sendPacket_prompt (pack : CPacket) (going : s.m_isClosing = false) (prompt : Prompt s) :
    Prompt (s.sendPacket pack) := by
  rw [sendPacket]
  cases Wire.sendPacket s.getFreeSize pack with
  | none => exact ⟨prompt.idle, prompt.sending⟩
  | some sent => exact sendPost_prompt going prompt.sending (by simp)

theorem serve_prompt {count : ℕ} {packs : List CPacket} (served : serve junk count packs s = some next)
    (going : s.m_isClosing = false) (prompt : Prompt s) : Prompt next := by
  induction packs generalizing count s with
  | nil => exact Option.some.inj served ▸ prompt
  | cons pack rest ih =>
    obtain ⟨reply, _, later⟩ := Option.bind_eq_some_iff.mp served
    exact ih later ((sendPacket_m_isClosing reply).trans going) (sendPacket_prompt reply going prompt)

theorem sendPacket_roomy {answered : ℕ} (pack : CPacket) (roomy : Roomy answered s) :
    Roomy (answered + 1) (s.sendPacket pack) := by
  obtain ⟨few, refused⟩ := roomy
  refine ⟨(length_sendPacket_le pack).trans (Nat.succ_le_succ few), fun fits => ?_⟩
  have enough : SendPacket.pointerSize ≤ s.getFreeSize := by
    have size : SendPacket.pointerSize = 8 := rfl
    have buffer : DEFAULT_BUFFER_SIZE = 30000 := rfl
    rw [room] at fits
    rw [getFreeSize, size, buffer]
    omega
  obtain ⟨sent, accepted⟩ : ∃ sent, Wire.sendPacket s.getFreeSize pack = some sent := ⟨_, if_pos enough⟩
  rw [sendPacket, accepted]
  exact sendPost_refused.trans (refused (Nat.le_of_succ_le fits))

theorem serve_roomy {count answered : ℕ} {packs : List CPacket} (served : serve junk count packs s = some next)
    (roomy : Roomy answered s) : Roomy (answered + packs.length) next := by
  induction packs generalizing count answered s with
  | nil => exact Option.some.inj served ▸ roomy
  | cons pack rest ih =>
    obtain ⟨reply, _, later⟩ := Option.bind_eq_some_iff.mp served
    rw [List.length_cons, Nat.add_comm rest.length, ← Nat.add_assoc]
    exact ih later (sendPacket_roomy reply roomy)

end Session

/-- The sending side of a session that has handed over some packets. -/
structure Sending (s : Session) : Prop where
  prompt : s.m_isClosing = false → Prompt s
  roomy : Roomy s.conn.delivered.length s

/-- A session that can be handed bytes is open. -/
theorem Answered.going {stream : List UInt8} (answered : Answered allocated junk stream s) (posted : s.conn.posted.isSome) :
    s.m_isClosing = false := by
  rw [answered.closing]
  cases stopped : (parse stream).stopped with
  | false => rfl
  | true =>
    rw [answered.framed.posted, stopped] at posted
    cases posted

/-- A receive that completes is answered with the sends that it takes. -/
theorem Sending.recvCompletion {stream bytes : List UInt8} (sending : Sending s)
    (answered : Answered allocated junk stream s) (admissible : Admissible s.conn bytes)
    (completed : s.recvCompletion allocated junk bytes = some next) : Sending next := by
  have going := answered.going admissible.1
  obtain ⟨conn, moved, ran⟩ := Option.bind_eq_some_iff.mp completed
  obtain ⟨served, answers, rfl⟩ := Option.map_eq_some_iff.mp ran
  obtain ⟨parts, delivered, -⟩ := recvCompletion_delivered answered.framed admissible moved
  have same : served.conn = conn := Session.serve_conn answers
  have prompt := Session.serve_prompt answers going ⟨(sending.prompt going).idle, (sending.prompt going).sending⟩
  have roomy := Session.serve_roomy answers ⟨sending.roomy.few, sending.roomy.refused⟩
  have total : s.conn.delivered.length + (conn.delivered.drop s.conn.delivered.length).length =
      served.conn.delivered.length := by
    rw [same, delivered, List.drop_left, List.length_append]
  rw [total] at roomy
  exact ⟨fun _ => ⟨prompt.idle, prompt.sending⟩, ⟨roomy.few, roomy.refused⟩⟩

/-- A send that completes takes its packets out of the ring. -/
theorem Sending.sendCompletion (sending : Sending s) (completed : s.sendCompletion = some next) :
    Sending next ∧ next.conn = s.conn ∧ next.m_isClosing = s.m_isClosing ∧
      next.m_sendRingBuff.length = s.m_sendRingBuff.length - s.m_sendPacketCount := by
  obtain ⟨prompt, few, refused⟩ := sending
  rw [Session.sendCompletion] at completed
  split_ifs at completed with pending
  obtain rfl := Option.some.inj completed
  have fewer : (s.m_sendRingBuff.drop s.m_sendPacketCount).length ≤ s.conn.delivered.length := by
    rw [List.length_drop]
    omega
  dsimp only
  split_ifs with some
  · refine ⟨⟨fun going => ?_, ?_, ?_⟩, Session.sendPost_conn, Session.sendPost_m_isClosing, ?_⟩
    · rw [Session.sendPost_m_isClosing] at going
      exact Session.sendPost_prompt going (fun absurd => by cases absurd) some
    · rw [Session.sendPost_conn, Session.sendPost_m_sendRingBuff]
      exact fewer
    · rw [Session.sendPost_conn, Session.sendPost_refused]
      exact refused
    · rw [Session.sendPost_m_sendRingBuff, List.length_drop]
  · have empty := List.length_eq_zero_iff.mp (Nat.eq_zero_of_not_pos some)
    exact ⟨⟨fun _ => ⟨fun _ => empty, fun absurd => by cases absurd⟩, fewer, refused⟩, rfl, rfl, List.length_drop ..⟩

/-- The completions of sends that empty the ring of an open session. -/
theorem Sending.drains {stream : List UInt8} (sending : Sending s) (answered : Answered allocated junk stream s)
    (going : s.m_isClosing = false) :
    ∃ sends ≤ s.m_sendRingBuff.length, ∃ t, Replay.replay (step allocated junk) s (List.replicate sends .sent) = some t ∧
      Answered allocated junk stream t ∧ t.m_isSendPending = false ∧ t.m_sendRingBuff = [] ∧ t.refused = s.refused ∧
      t.owed = s.owed := by
  obtain ⟨n, size⟩ : ∃ n, s.m_sendRingBuff.length = n := ⟨_, rfl⟩
  induction n using Nat.strong_induction_on generalizing s with
  | _ n ih =>
    cases pending : s.m_isSendPending with
    | false =>
      exact ⟨0, Nat.zero_le _, s, rfl, answered, pending, (sending.prompt going).idle pending, rfl, rfl⟩
    | true =>
      obtain ⟨next, completed, answered'⟩ := answered.sendCompletion pending
      obtain ⟨sending', conn, closing, length⟩ := sending.sendCompletion completed
      have batch := (sending.prompt going).sending pending
      have inside := answered.fits pending
      obtain ⟨sends, bound, t, run, rest⟩ := ih next.m_sendRingBuff.length (by omega) sending' answered'
        (closing.trans going) rfl
      obtain ⟨_, completed', -, -, -, refused, owed⟩ := Session.sendCompletion_owed pending
      obtain rfl := Option.some.inj (completed.symm.trans completed')
      refine ⟨sends + 1, by omega, t, ?_, ?_⟩
      · rw [List.replicate_succ, Replay.replay_cons]
        exact (congrArg (Option.bind · _) completed).trans run
      · rw [← refused, ← owed]
        exact rest

theorem Sending.step {stream : List UInt8} {input : Input} (sending : Sending s)
    (answered : Answered allocated junk stream s) (admits : Admits s input)
    (stepped : EchoServer.step allocated junk s input = some next) : Sending next := by
  cases input with
  | recv bytes => exact sending.recvCompletion answered admits stepped
  | sent => exact (sending.sendCompletion stepped).1

theorem Sending.replay {stream : List UInt8} {inputs : List Input} (sending : Sending s)
    (answered : Answered allocated junk stream s)
    (admits : Replay.Along (EchoServer.step allocated junk) Admits s inputs)
    (run : Replay.replay (EchoServer.step allocated junk) s inputs = some next) : Sending next := by
  induction inputs generalizing stream s with
  | nil => exact Option.some.inj run ▸ sending
  | cons input rest ih =>
    obtain ⟨middle, stepped, later⟩ := Option.bind_eq_some_iff.mp run
    obtain ⟨middle', stepped', answered'⟩ := answered.step admits.1
    obtain rfl := Option.some.inj (stepped.symm.trans stepped')
    exact ih (sending.step answered admits.1 stepped) answered' (admits.2 _ stepped) later

end LockFreeCore.EchoServer
