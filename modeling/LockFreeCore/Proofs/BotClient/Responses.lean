import LockFreeCore.Proofs.BotClient
import Mathlib.Algebra.Group.Action.Defs
import Mathlib.Data.Fintype.BigOperators
import Mathlib.Algebra.Order.BigOperators.Group.Finset

/-! # No response differs from its packet

The counters that the clients share are sums over the connections, so what holds of each connection adds up.
-/

namespace LockFreeCore.BotClient

open EchoServer (Junk)

variable {allocated : ℤ → UInt8} {junk : ℕ → Junk} {packetsPerConn ccu : ℕ}
  {pool next : Pool (Fin ccu) Totals Connection} {labels : List (Fin ccu × Input)}

/-- Every connection is served, and the counters are the sums of what the connections have done. -/
structure Tallied (allocated : ℤ → UInt8) (junk : ℕ → Junk) (packetsPerConn : ℕ)
    (pool : Pool (Fin ccu) Totals Connection) : Prop where
  served : ∀ i : Fin ccu, ∃ stream, Served allocated junk packetsPerConn i stream (pool.threads i)
  totalSent : pool.shared.totalSent = BitVec.ofNat 32 (∑ i, (pool.threads i).client.sent)
  totalRecv : pool.shared.totalRecv = BitVec.ofNat 32 (∑ i, (pool.threads i).client.received)
  totalMismatch : pool.shared.totalMismatch = 0
  processed : pool.shared.g_totalPacketsProcessed =
    BitVec.ofNat 64 (∑ i, (pool.threads i).session.conn.delivered.length)

theorem tallied_start (allocated : ℤ → UInt8) (junk : ℕ → Junk) (packetsPerConn ccu : ℕ) :
    Tallied allocated junk packetsPerConn (start allocated ccu) where
  served i := ⟨[], served_accepted allocated junk packetsPerConn i⟩
  totalSent := congrArg (BitVec.ofNat 32) (Finset.sum_eq_zero fun _ _ => rfl).symm
  totalRecv := congrArg (BitVec.ofNat 32) (Finset.sum_eq_zero fun _ _ => rfl).symm
  totalMismatch := rfl
  processed := congrArg (BitVec.ofNat 64) (Finset.sum_eq_zero fun _ _ => rfl).symm

theorem Tallied.step {label : Fin ccu × Input} (tallied : Tallied allocated junk packetsPerConn pool)
    (stepped : step packetsPerConn allocated junk ccu pool label = some next) :
    Tallied allocated junk packetsPerConn next := by
  obtain ⟨shared, mine, ran, rfl⟩ := Pool.step_eq_some.mp stepped
  obtain ⟨stream, served⟩ := tallied.served label.1
  have executed := exec_eq_some ran
  have counts := served.counts executed
  refine ⟨fun i => ?_, ?_, ?_, counts.totalMismatch.trans tallied.totalMismatch, ?_⟩
  · by_cases same : i = label.1
    · subst same
      simpa using served.executed executed
    · simpa [Function.update_of_ne same] using tallied.served i
  · exact WrappingCount.eq_ofNat_of_share (tallied.totalSent ▸ counts.totalSent)
      (Pool.sum_update (fun conn : Connection => conn.client.sent) pool.threads label.1 mine)
  · exact WrappingCount.eq_ofNat_of_share (tallied.totalRecv ▸ counts.totalRecv)
      (Pool.sum_update (fun conn : Connection => conn.client.received) pool.threads label.1 mine)
  · exact WrappingCount.eq_ofNat_of_share (tallied.processed ▸ counts.processed)
      (Pool.sum_update (fun conn : Connection => conn.session.conn.delivered.length) pool.threads label.1 mine)

theorem tallied (run : Replay.replay (step packetsPerConn allocated junk ccu) (start allocated ccu) labels = some pool) :
    Tallied allocated junk packetsPerConn pool :=
  Replay.invariant_of_step (Tallied allocated junk packetsPerConn) (fun _ _ _ tallied stepped => tallied.step stepped)
    (tallied_start allocated junk packetsPerConn ccu) run

end LockFreeCore.BotClient
