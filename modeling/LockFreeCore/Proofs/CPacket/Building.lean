import LockFreeCore.Proofs.CPacket

/-! # A packet under construction

What a packet should hold is its header and, behind it, the bytes of the values that fitted. Every writer keeps
that but two: `clear` puts the cursor in front of the header, and `setData` of so many bytes that
the sum in its guard wraps around writes them whatever the size.
-/

namespace LockFreeCore.CPacket

/-- What a packet should hold. -/
structure Contents where
  header : List UInt8
  body : List UInt8

/-- Bytes that fit behind the others. -/
def Contents.append (size : ℤ) (contents : Contents) (bytes : List UInt8) : Contents :=
  if HEADER_SIZE + contents.body.length + bytes.length ≤ size then { contents with body := contents.body ++ bytes }
  else contents

/-- What a packet of `size` bytes should hold after a call. -/
def Contents.after (size : ℤ) (contents : Contents) : Build → Contents
  | .put value => contents.append size (LittleEndian.store value.data)
  | .setData buff => contents.append size buff
  | .setHeader low high => { contents with header := [low, high] }
  | .clear => { contents with body := [] }

/-- The packet holds exactly this. -/
structure Holds (packet : CPacket) (contents : Contents) : Prop where
  least : HEADER_SIZE ≤ packet.m_curSize
  most : packet.m_curSize ≤ packet.m_size
  use : packet.getUseSize = contents.body.length
  header : Circular.linear packet.m_buffer 0 2 = contents.header
  body : Circular.linear packet.m_buffer HEADER_SIZE contents.body.length = contents.body

/-- No call is `clear`, and no `setData` has so many bytes that an `int` cannot hold the cursor behind them. -/
def Tame (size : ℤ) : Contents → List Build → Prop
  | _, [] => True
  | contents, first :: rest => first ≠ .clear ∧
      (∀ buff, first = .setData buff → HEADER_SIZE + contents.body.length + buff.length < 2 ^ 31) ∧
      Tame size (contents.after size first) rest

variable {packet : CPacket} {contents : Contents} {size : ℤ}

theorem Holds.cursor (holds : packet.Holds contents) : packet.m_curSize = HEADER_SIZE + contents.body.length := by
  have use := holds.use
  rw [getUseSize] at use
  omega

/-- Bytes put at the cursor, when they fit, are appended. -/
theorem Holds.append {bytes : List UInt8} (holds : packet.Holds contents)
    (fits : HEADER_SIZE + contents.body.length + bytes.length ≤ packet.m_size) :
    Holds ((packet.copyIn packet.m_curSize bytes).setCur (packet.m_curSize + bytes.length))
      { contents with body := contents.body ++ bytes } := by
  have cursor := holds.cursor
  have two : HEADER_SIZE = 2 := rfl
  constructor
  · exact holds.least.trans (Int.le_add_of_nonneg_right (Int.natCast_nonneg _))
  · rw [setCur, copyIn]
    dsimp only
    omega
  · rw [getUseSize, setCur, cursor, List.length_append, Nat.cast_add]
    dsimp only
    omega
  · refine Eq.trans (Circular.linear_congr fun i bound => Circular.write_of_lt ?_) holds.header
    omega
  · change Circular.linear (Circular.write packet.m_buffer packet.m_curSize bytes) HEADER_SIZE
      (contents.body ++ bytes).length = contents.body ++ bytes
    rw [List.length_append, Circular.linear_add, cursor, Circular.linear_write]
    refine congrArg (· ++ bytes) (Eq.trans (Circular.linear_congr fun i bound => Circular.write_of_lt ?_) holds.body)
    omega

/-- Bytes that are appended when they fit, and skipped otherwise. -/
theorem Holds.append_or_skip {bytes : List UInt8} {next : CPacket} (holds : packet.Holds contents)
    (written : HEADER_SIZE + contents.body.length + bytes.length ≤ packet.m_size →
      next = (packet.copyIn packet.m_curSize bytes).setCur (packet.m_curSize + bytes.length))
    (skipped : packet.m_size < HEADER_SIZE + contents.body.length + bytes.length → next = packet) :
    next.Holds (contents.append packet.m_size bytes) ∧ next.m_size = packet.m_size := by
  rw [Contents.append]
  split_ifs with fits
  · rw [written fits]
    exact ⟨holds.append fits, rfl⟩
  · rw [skipped (not_le.mp fits)]
    exact ⟨holds, rfl⟩

/-- An `int` keeps a sum that it can hold. -/
theorem wrap_eq {x : ℤ} (low : 0 ≤ x) (high : x < 2 ^ 31) : wrap x = x := by
  rw [wrap, Int.bmod_def]
  norm_num
  omega

/-- A larger sum of two `int`s becomes negative. -/
theorem wrap_neg {x : ℤ} (low : 2 ^ 31 ≤ x) (high : x < 2 ^ 32) : wrap x < 0 := by
  rw [wrap, Int.bmod_def]
  norm_num
  omega

/-- As long as an `int` holds the sum, the guard of `setData` is the one over the integers. -/
theorem setDataInt_eq {buff : List UInt8} (low : 0 ≤ packet.m_curSize)
    (small : packet.m_curSize + buff.length < 2 ^ 31) : packet.setDataInt buff = packet.setData buff := by
  rw [setDataInt, setData, wrap_eq (by omega) small]

/-- Every other call does to the packet what it should. -/
theorem Holds.build {call : Build} (holds : packet.Holds contents) (noClear : call ≠ .clear)
    (small : ∀ buff, call = .setData buff → HEADER_SIZE + contents.body.length + buff.length < 2 ^ 31) :
    (packet.build call).Holds (contents.after packet.m_size call) ∧ (packet.build call).m_size = packet.m_size := by
  have cursor := holds.cursor
  have two : HEADER_SIZE = 2 := rfl
  cases call with
  | put value =>
    have width : ((LittleEndian.store value.data).length : ℤ) = sizeof value.ty := by
      rw [LittleEndian.length_store]
    have most := holds.most
    rw [CPacket.build, put_eq, Contents.after]
    refine holds.append_or_skip (fun fits => ?_) fun tight => ?_
    · rw [width] at fits ⊢
      rw [insert, size_t_of_nonneg (by omega), size_t_of_nonneg (by omega), if_pos (by omega)]
    · rw [width] at tight
      rw [insert, size_t_of_nonneg (by omega), size_t_of_nonneg (by omega), if_neg (by omega)]
  | setData buff =>
    have sum := small buff rfl
    rw [CPacket.build, Contents.after, setDataInt_eq (by omega) (by omega), setData]
    refine holds.append_or_skip (fun fits => if_pos (by omega)) fun tight => if_neg (by omega)
  | setHeader low high =>
    refine ⟨⟨holds.least, holds.most, holds.use, Circular.linear_write, ?_⟩, rfl⟩
    have behind (i : ℕ) : Circular.write packet.m_buffer 0 [low, high] (HEADER_SIZE + i) =
        packet.m_buffer (HEADER_SIZE + i) :=
      Circular.write_of_ge (by rw [List.length_cons, List.length_singleton]; omega)
    exact Eq.trans (Circular.linear_congr fun i _ => behind i) holds.body
  | clear => exact absurd rfl noClear

/-- The call among all that write to a packet. -/
def Fill.toBuild : Fill → Build
  | .put value => .put value
  | .setData buff => .setData buff

/-- Tame appending is appending without wraparound. -/
theorem Holds.buildAll_eq {fills : List Fill} (holds : packet.Holds contents)
    (tame : Tame packet.m_size contents (fills.map Fill.toBuild)) :
    packet.buildAll (fills.map Fill.toBuild) = packet.fillAll fills := by
  induction fills generalizing packet contents with
  | nil => rfl
  | cons first rest ih =>
    rw [List.map_cons, Tame] at tame
    obtain ⟨noClear, small, tame⟩ := tame
    have same : packet.build first.toBuild = packet.fill first := by
      cases first with
      | put value => rfl
      | setData buff =>
        have cursor := holds.cursor
        have two : HEADER_SIZE = 2 := rfl
        have sum := small buff rfl
        exact setDataInt_eq (by omega) (by omega)
    obtain ⟨held, size⟩ := holds.build noClear small
    have later := ih held (size.symm ▸ tame)
    rw [List.map_cons, buildAll, List.foldl_cons, same, fillAll, List.foldl_cons]
    exact same ▸ later

/-- A `clear`, or a `setData` that wraps the guard around, puts the cursor in front of the payload. -/
theorem Holds.spoiled {call : Build} (holds : packet.Holds contents) (int : packet.m_size < 2 ^ 31)
    (lengths : ∀ buff, call = .setData buff → buff.length < 2 ^ 31)
    (spoils : call = .clear ∨ ∃ buff, call = .setData buff ∧ 2 ^ 31 ≤ HEADER_SIZE + contents.body.length + buff.length) :
    (packet.build call).m_curSize < HEADER_SIZE := by
  have cursor := holds.cursor
  have two : HEADER_SIZE = 2 := rfl
  rcases spoils with rfl | ⟨buff, rfl, large⟩
  · exact two ▸ (by decide : (0 : ℤ) < 2)
  · have length := lengths buff rfl
    have least := holds.least
    have most := holds.most
    have wrapped : wrap (packet.m_curSize + buff.length) < 0 := wrap_neg (by omega) (by omega)
    rw [CPacket.build, setDataInt, if_pos (by omega)]
    change wrap (packet.m_curSize + buff.length) < HEADER_SIZE
    omega

/-- A fresh packet is empty behind its header. -/
theorem holds_ofSize (least : HEADER_SIZE ≤ size) (allocated : ℤ → UInt8) :
    (ofSize size allocated).Holds ⟨Circular.linear allocated 0 2, []⟩ :=
  ⟨le_rfl, least, sub_self _, rfl, rfl⟩

/-- A packet holds what it should after every call of a sequence exactly when the sequence is tame. -/
theorem Holds.buildAll_iff {builds : List Build} (holds : packet.Holds contents) (int : packet.m_size < 2 ^ 31)
    (lengths : ∀ buff, .setData buff ∈ builds → buff.length < 2 ^ 31) :
    (∀ k, (packet.buildAll (builds.take k)).Holds ((builds.take k).foldl (Contents.after packet.m_size) contents)) ↔
      Tame packet.m_size contents builds := by
  induction builds generalizing packet contents with
  | nil => exact iff_of_true (fun k => by rw [List.take_nil]; exact holds) trivial
  | cons call rest ih =>
    have here (buff : List UInt8) (same : call = .setData buff) : buff.length < 2 ^ 31 :=
      lengths buff (same ▸ List.mem_cons_self)
    rw [Tame]
    by_cases good : call ≠ .clear ∧
        ∀ buff, call = .setData buff → HEADER_SIZE + contents.body.length + buff.length < 2 ^ 31
    · obtain ⟨held, size⟩ := holds.build good.1 good.2
      have later := ih held (size.trans_lt int) fun buff member => lengths buff (List.mem_cons_of_mem _ member)
      rw [size] at later
      refine Iff.trans ?_ (later.trans ⟨fun tame => ⟨good.1, good.2, tame⟩, fun tame => tame.2.2⟩)
      constructor
      · exact fun each k => each (k + 1)
      · intro each k
        cases k with
        | zero => exact holds
        | succ k => exact each k
    · refine iff_of_false (fun each => ?_) fun tame => good ⟨tame.1, tame.2.1⟩
      have spoils : call = .clear ∨
          ∃ buff, call = .setData buff ∧ 2 ^ 31 ≤ HEADER_SIZE + contents.body.length + buff.length := by
        by_contra neither
        push Not at neither
        exact good neither
      exact absurd (each 1).least (not_le.mpr (holds.spoiled int here spoils))

/-- A fresh packet holds what it should after every call exactly when no call is `clear` and no `setData` wraps
its guard around. -/
theorem building_iff (size : ℤ) (allocated : ℤ → UInt8) (builds : List Build) (least : HEADER_SIZE ≤ size)
    (int : size < 2 ^ 31) (lengths : ∀ buff, .setData buff ∈ builds → buff.length < 2 ^ 31) :
    (∀ k, ((ofSize size allocated).buildAll (builds.take k)).Holds ((builds.take k).foldl (Contents.after size)
      ⟨Circular.linear allocated 0 2, []⟩)) ↔ Tame size ⟨Circular.linear allocated 0 2, []⟩ builds :=
  (holds_ofSize least allocated).buildAll_iff int lengths

/-- A header, and two values of which the second does not fit. -/
theorem building_two :
    ((ofSize 5 fun _ => 0).buildAll [.setHeader 2 0, .put ⟨.WORD, 7#16⟩, .setData [1, 2]]).Holds
      ([Build.setHeader 2 0, .put ⟨.WORD, 7#16⟩, .setData [1, 2]].foldl (Contents.after 5)
        ⟨Circular.linear (fun _ => 0) 0 2, []⟩) := by
  refine (building_iff 5 (fun _ => 0) [.setHeader 2 0, .put ⟨.WORD, 7#16⟩, .setData [1, 2]] (by decide) (by decide)
    ?_).mpr ?_ 3
  · intro buff member
    obtain rfl : buff = [1, 2] := by simpa using member
    decide
  · simp only [Tame, ne_eq, reduceCtorEq, not_false_eq_true, false_imp_iff, implies_true, Build.setData.injEq,
      forall_eq', and_true, true_and]
    decide

/-- After `clear` the cursor stands in front of the header, and the next value is written there. -/
theorem clear_forgets_header :
    ((ofSize 512 fun _ => 0).buildAll [.setHeader 1 0, .clear]).m_curSize = 0 ∧
      Circular.linear ((ofSize 512 fun _ => 0).buildAll [.setHeader 1 0, .clear, .put ⟨.WORD, 0x0707#16⟩]).m_buffer 0 2 =
        [7, 7] ∧
      ¬∀ k, ((ofSize 512 fun _ => 0).buildAll ([Build.setHeader 1 0, .clear].take k)).Holds
        (([Build.setHeader 1 0, .clear].take k).foldl (Contents.after 512) ⟨Circular.linear (fun _ => 0) 0 2, []⟩) := by
  refine ⟨rfl, by decide, fun each => ?_⟩
  exact absurd (each 2).least (by decide)

end LockFreeCore.CPacket
