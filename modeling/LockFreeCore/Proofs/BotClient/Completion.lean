import LockFreeCore.Proofs.BotClient.Responses

/-! # Every load test comes to its end

Each step takes a connection nearer to its end: a byte that is sent costs less than the packet it belongs to, and
an answer less than the bytes it answers. Nothing waits for ever either: while a client waits for a response, bytes
are on their way in one of the two directions or a send of the server has to complete.
-/

namespace LockFreeCore.BotClient

open EchoServer (Junk Session)

variable {allocated : ℤ → UInt8} {junk : ℕ → Junk} {packetsPerConn ccu index : ℕ} {stream : List UInt8}
  {totals after : Totals} {conn later : Connection} {input : Input}

def Client.rank (packetsPerConn : ℕ) : Client → ℕ
  | .connecting => 32 * packetsPerConn + 2
  | .sending p => 32 * (packetsPerConn - p) + 1
  | .receiving p resp => 32 * (packetsPerConn - p - 1) + 2 + (10 - resp.length)
  | .left _ _ => 0

def Connection.rank (packetsPerConn : ℕ) (conn : Connection) : ℕ :=
  conn.client.rank packetsPerConn + 2 * conn.upstream.length + conn.session.m_sendRingBuff.length

theorem Served.rank_lt (served : Served allocated junk packetsPerConn index stream conn)
    (executed : Executed packetsPerConn allocated junk totals index conn input after later) :
    later.rank packetsPerConn < conn.rank packetsPerConn := by
  have holds := served.client
  cases executed with
  | connect here => simp [Connection.rank, Client.rank, here]
  | refuse here => simp [Connection.rank, Client.rank, here]
  | send here more =>
    simp only [Connection.rank, Client.rank, here, List.length_append, length_packet, List.length_nil]
    omega
  | sendFails here more short =>
    simp only [Connection.rank, Client.rank, here, List.length_append, List.length_take, length_packet]
    omega
  | closesocket here last => simp [Connection.rank, Client.rank, here]
  | recv here any less come =>
    rw [served.receive here less come]
    split_ifs with going
    · simp only [Connection.rank, Client.rank, here, List.length_take, length_packet]
      omega
    · simp only [Connection.rank, Client.rank, here]
      omega
  | recvFails here => simp [Connection.rank, Client.rank, here]
  | arrive posted any come fits completed =>
    obtain rfl := Option.some.inj (served.posted.symm.trans posted)
    have ring := (served.arrive any come fits completed).2.2
    simp only [Connection.rank, List.length_drop]
    omega
  | sent completed =>
    have ring := (served.sent completed).2.2
    simp only [Connection.rank]
    omega

/-- A client that has not left, or the session that it waits for, can take a step in which nothing fails. -/
theorem Served.enabled (served : Served allocated junk packetsPerConn index stream conn) (totals : Totals) :
    (∃ sent received, conn.client = .left sent received) ∨
      ∃ input : Input, input.Fine ∧ (exec packetsPerConn allocated junk totals index conn input).isSome := by
  have holds := served.client
  match here : conn.client with
  | .connecting => exact .inr ⟨.connect, rfl, by simp [exec, here]⟩
  | .sending p =>
    by_cases more : p < packetsPerConn
    · exact .inr ⟨.send, rfl, by simp [exec, here, more]⟩
    · exact .inr ⟨.closesocket, rfl, by simp [exec, here, more]⟩
  | .left sent received => exact .inl ⟨sent, received, rfl⟩
  | .receiving p resp =>
    rw [here] at holds
    obtain ⟨more, taken, short, -⟩ := holds
    right
    by_cases come : conn.taken + 1 ≤ conn.session.posted.length
    · exact ⟨.recv 1, rfl, by simp [exec, here, come]; omega⟩
    by_cases way : 1 ≤ conn.upstream.length
    · have direct := (served.answered.framed.admissible (by rw [served.parsed]) 0).2.2.trans (min_le_left _ _)
      obtain ⟨session, completed, -⟩ := served.answered.recvCompletion (served.admissible le_rfl way direct)
      exact ⟨.arrive 1, rfl, by simpa [exec, here, served.posted, way, completed] using direct⟩
    by_cases pending : conn.session.m_isSendPending = true
    · obtain ⟨session, completed, -⟩ := served.answered.sendCompletion pending
      exact ⟨.sent, rfl, by simp [exec, here, completed]⟩
    · -- the whole of the packet has come to the server, which has posted the whole of its answer
      obtain ⟨part, few, whole, running⟩ := served.wired
      rw [here] at whole running
      obtain rfl : part = 0 := by simpa using running
      have length := congrArg List.length whole
      have delivered := served.delivered
      have owed := served.calm.length_owed
      rw [served.owed, length_wire, Session.waiting, if_neg pending, served.calm.idle (by simpa using pending)] at owed
      simp only [List.length_append, length_wire, List.take_zero, List.length_nil, Client.sent] at length owed
      omega

/-- While nothing has failed, clients leave with all their responses. -/
structure Unfailing (packetsPerConn : ℕ) (pool : Pool (Fin ccu) Totals Connection) : Prop where
  totalFailed : pool.shared.totalFailed = 0
  left : ∀ i sent received, (pool.threads i).client = .left sent received →
    sent = packetsPerConn ∧ received = packetsPerConn

theorem Served.leaves (served : Served allocated junk packetsPerConn index stream conn) (fine : input.Fine)
    (executed : Executed packetsPerConn allocated junk totals index conn input after later) :
    after.totalFailed = totals.totalFailed ∧ ∀ sent received, later.client = .left sent received →
      conn.client = .left sent received ∨ sent = packetsPerConn ∧ received = packetsPerConn := by
  have holds := served.client
  cases executed with
  | connect here => exact ⟨rfl, fun _ _ left => by cases left⟩
  | send here more => exact ⟨rfl, fun _ _ left => by cases left⟩
  | closesocket here last =>
    rw [here] at holds
    refine ⟨rfl, fun _ _ left => .inr ?_⟩
    cases left
    exact ⟨holds.1.antisymm last, holds.1.antisymm last⟩
  | recv here any less come =>
    rw [served.receive here less come]
    split_ifs <;> exact ⟨rfl, fun _ _ left => by cases left⟩
  | arrive posted any come fits completed => exact ⟨rfl, fun _ _ left => .inl left⟩
  | sent completed => exact ⟨rfl, fun _ _ left => .inl left⟩
  | refuse here => cases fine
  | sendFails here more short => cases fine
  | recvFails here => cases fine

variable {pool next : Pool (Fin ccu) Totals Connection} {labels : List (Fin ccu × Input)}

theorem Unfailing.step {label : Fin ccu × Input} (tallied : Tallied allocated junk packetsPerConn pool)
    (unfailing : Unfailing packetsPerConn pool) (fine : label.2.Fine)
    (stepped : step packetsPerConn allocated junk ccu pool label = some next) : Unfailing packetsPerConn next := by
  obtain ⟨shared, mine, ran, rfl⟩ := Pool.step_eq_some.mp stepped
  obtain ⟨stream, served⟩ := tallied.served label.1
  obtain ⟨failed, leaves⟩ := served.leaves fine (exec_eq_some ran)
  refine ⟨failed.trans unfailing.totalFailed, fun i sent received left => ?_⟩
  by_cases same : i = label.1
  · subst same
    dsimp only at left
    rw [Function.update_self] at left
    exact (leaves sent received left).elim (unfailing.left _ sent received) id
  · dsimp only at left
    rw [Function.update_of_ne same] at left
    exact unfailing.left i sent received left

theorem unfailing (run : Replay.replay (step packetsPerConn allocated junk ccu) (start allocated ccu) labels = some pool)
    (fine : ∀ label ∈ labels, label.2.Fine) : Unfailing packetsPerConn pool := by
  induction labels using List.reverseRecOn generalizing pool with
  | nil =>
    obtain rfl := Option.some.inj run
    exact ⟨rfl, fun _ _ _ left => by cases left⟩
  | append_singleton earlier label ih =>
    obtain ⟨before, first, stepped⟩ := Replay.replay_concat.mp run
    exact (ih first fun label member => fine label (List.mem_append_left _ member)).step (tallied first)
      (fine label (List.mem_append_right _ (List.mem_singleton_self label))) stepped

/-- No run of a load test is longer than this, and until a client has left it can go on, or its session can, without
a failure. When all have left and nothing has failed, every packet was sent, handed over and answered. -/
theorem load_test_completes (allocated : ℤ → UInt8) (junk : ℕ → Junk) (packetsPerConn ccu : ℕ)
    (labels : List (Fin ccu × Input)) (pool : Pool (Fin ccu) Totals Connection)
    (run : Replay.replay (step packetsPerConn allocated junk ccu) (start allocated ccu) labels = some pool) :
    labels.length ≤ ccu * (32 * packetsPerConn + 2) ∧
      (∀ i, (∃ sent received, (pool.threads i).client = .left sent received) ∨
        ∃ input : Input, input.Fine ∧ (step packetsPerConn allocated junk ccu pool (i, input)).isSome) ∧
      ((∀ label ∈ labels, label.2.Fine) → (∀ i, ∃ sent received, (pool.threads i).client = .left sent received) →
        pool.shared = ⟨BitVec.ofNat 32 (ccu * packetsPerConn), BitVec.ofNat 32 (ccu * packetsPerConn), 0, 0,
          BitVec.ofNat 64 (ccu * packetsPerConn)⟩) := by
  have tallied := tallied run
  refine ⟨?_, fun i => ?_, fun fine left => ?_⟩
  · have bound := Replay.length_add_le (Tallied allocated junk packetsPerConn)
      (fun pool : Pool (Fin ccu) Totals Connection => ∑ i, (pool.threads i).rank packetsPerConn)
      (fun pool label next tallied stepped => ?_) (tallied_start allocated junk packetsPerConn ccu) run
    · have first : ∑ i, ((start allocated ccu).threads i).rank packetsPerConn = ccu * (32 * packetsPerConn + 2) :=
        (Finset.sum_const_nat fun _ _ => rfl).trans (by rw [Finset.card_univ, Fintype.card_fin])
      omega
    · refine ⟨tallied.step stepped, ?_⟩
      obtain ⟨shared, mine, ran, rfl⟩ := Pool.step_eq_some.mp stepped
      obtain ⟨stream, served⟩ := tallied.served label.1
      have less := served.rank_lt (exec_eq_some ran)
      have sum := Pool.sum_update (Connection.rank packetsPerConn) pool.threads label.1 mine
      dsimp only
      omega
  · obtain ⟨stream, served⟩ := tallied.served i
    refine (served.enabled pool.shared).imp_right fun ⟨input, fine, enabled⟩ => ⟨input, fine, ?_⟩
    rw [step, Pool.step, Option.isSome_map]
    exact enabled
  · have unfailing := unfailing run fine
    choose streams served using tallied.served
    choose sent received left using left
    have whole (i : Fin ccu) : (pool.threads i).client.sent = packetsPerConn ∧
        (pool.threads i).client.received = packetsPerConn := by
      rw [left i]
      exact unfailing.left i _ _ (left i)
    have handed (i : Fin ccu) : (pool.threads i).session.conn.delivered.length = packetsPerConn :=
      ((served i).delivered_le.trans (whole i).1.le).antisymm ((whole i).2.ge.trans (served i).received_le)
    have total {share : Fin ccu → ℕ} (all : ∀ i, share i = packetsPerConn) : ∑ i, share i = ccu * packetsPerConn :=
      (Finset.sum_const_nat fun i _ => all i).trans (by rw [Finset.card_univ, Fintype.card_fin])
    obtain ⟨-, totalSent, totalRecv, totalMismatch, processed⟩ := tallied
    rw [total fun i => (whole i).1] at totalSent
    rw [total fun i => (whole i).2] at totalRecv
    rw [total handed] at processed
    exact Totals.ext totalSent totalRecv unfailing.totalFailed totalMismatch processed

/-- The run of one client with one packet, whose bytes come in two pieces. -/
def onePacket : List (Fin 1 × Input) :=
  [(0, .connect), (0, .send), (0, .arrive 4), (0, .arrive 6), (0, .recv 7), (0, .recv 3), (0, .sent), (0, .closesocket)]

theorem load_test_completes_one : ∃ pool,
    Replay.replay (step 1 (fun _ => 0) (fun _ => ⟨fun _ => 0, 0⟩) 1) (start (fun _ => 0) 1) onePacket = some pool ∧
      onePacket.length ≤ 1 * (32 * 1 + 2) ∧
      (∀ i, (∃ sent received, (pool.threads i).client = .left sent received) ∨
        ∃ input : Input, input.Fine ∧ (step 1 (fun _ => 0) (fun _ => ⟨fun _ => 0, 0⟩) 1 pool (i, input)).isSome) ∧
      ((∀ label ∈ onePacket, label.2.Fine) → (∀ i, ∃ sent received, (pool.threads i).client = .left sent received) →
        pool.shared = ⟨BitVec.ofNat 32 (1 * 1), BitVec.ofNat 32 (1 * 1), 0, 0, BitVec.ofNat 64 (1 * 1)⟩) := by
  obtain ⟨pool, run⟩ : ∃ pool, Replay.replay (step 1 (fun _ => 0) (fun _ => ⟨fun _ => 0, 0⟩) 1) (start (fun _ => 0) 1)
    onePacket = some pool := Option.isSome_iff_exists.mp (by decide +kernel)
  exact ⟨pool, run, load_test_completes _ _ 1 1 onePacket pool run⟩

end LockFreeCore.BotClient
