import LockFreeCore.Proofs.CTextParser.Tokenizer

/-! # What the tokenizer finds in any file

A file is its tokens, the words with what is left of the file behind each, and the state in which it ends. The
tokenizer goes from token to token, stops where the range ends, and runs out of a file that ends inside a word
or a comment.
-/

namespace LockFreeCore.CTextParser

open Words

variable {parser : CTextParser} {buffer text left rest w : List UInt8} {max fuel pos : ℕ}
  {later : List (List UInt8 × List UInt8)}

/-- The file ends neither inside a word nor inside a comment. -/
def Settled (text : List UInt8) : Prop := (split alphabet .between text).2 = .between

instance decidableSettled (text : List UInt8) : Decidable (Settled text) := inferInstanceAs (Decidable (_ = _))

/-- To prove something of a text, token by token. -/
theorem tokens_induction {P : List UInt8 → Prop} (text : List UInt8)
    (none : ∀ text, tokens alphabet .between text = [] → P text)
    (token : ∀ text w rest, tokens alphabet .between text = (w, rest) :: tokens alphabet .between rest →
      w ++ rest <:+ text → w ≠ [] → P rest → P text) : P text := by
  induction size : text.length using Nat.strongRecOn generalizing text with
  | ind n ih =>
    subst size
    cases same : tokens alphabet .between text with
    | nil => exact none text same
    | cons first later =>
      obtain ⟨w, rest⟩ := first
      obtain ⟨c, more, rfl, skips, -, -, -, behind, -⟩ := tokens_cons same
      have shorter := skips.suffix.length_le
      rw [List.length_cons, List.length_append] at shorter
      rw [← behind] at same
      exact token text _ rest same skips.suffix (List.cons_ne_nil _ _) (ih rest.length (by omega) rest rfl)

/-- The tokens of a text are parts of it. -/
theorem suffix_of_mem_tokens {token : List UInt8 × List UInt8} (member : token ∈ tokens alphabet .between text) :
    token.1 ++ token.2 <:+ text ∧ token.1 ≠ [] := by
  induction text using tokens_induction with
  | none text same => simp [same] at member
  | token text w rest same suffix some ih =>
    rw [same] at member
    rcases List.mem_cons.mp member with rfl | later
    · exact ⟨suffix, some⟩
    · exact (ih later).imp_left fun inner => inner.trans ((List.suffix_append w rest).trans suffix)

/-- Each token lies behind those before it. -/
theorem pairwise_tokens (text : List UInt8) : (tokens alphabet .between text).Pairwise
    fun earlier later => (later.1 ++ later.2).length ≤ earlier.2.length := by
  induction text using tokens_induction with
  | none text same => simp [same]
  | token text w rest same suffix some ih =>
    rw [same]
    exact List.pairwise_cons.mpr ⟨fun token member => (suffix_of_mem_tokens member).1.length_le, ih⟩

theorem length_tokens_le (text : List UInt8) : (tokens alphabet .between text).length ≤ text.length := by
  induction text using tokens_induction with
  | none text same => simp [same]
  | token text w rest same suffix some ih =>
    have shorter := suffix.length_le
    have long := List.length_pos_iff.mpr some
    rw [List.length_append] at shorter
    rw [same, List.length_cons]
    omega

/-- The tokenizer finds a token that begins in the range. -/
theorem getNextWord_token (size : parser.m_fileSize = parser.m_fileBuffer.length)
    (suffix : text <:+ parser.m_fileBuffer) (same : tokens alphabet .between text = (w, rest) :: later)
    (bound : parser.m_fileSize < parser.m_maxNameSpace + (w ++ rest).length) :
    getNextWord (parser.before text) = some (some w, parser.before rest) := by
  obtain ⟨c, more, rfl, skips, begins, plain, runs, -⟩ := tokens_cons same
  exact getNextWord_eq size suffix skips begins plain runs bound

/-- A comment is passed over up to its line feed, or up to the end of the range. -/
theorem skipLine_stops {body : List UInt8} (inside : (0x0a : UInt8) ∉ body) :
    skipLine max (body ++ 0x0a :: rest) pos = some (true, pos + body.length) ∨
      ∃ stop ≤ pos + body.length, skipLine max (body ++ 0x0a :: rest) pos = some (false, stop) := by
  induction body generalizing pos with
  | nil => exact .inl rfl
  | cons c body ih =>
    rw [List.mem_cons, not_or] at inside
    have size : pos + (c :: body).length = pos + 1 + body.length := by
      rw [List.length_cons]
      omega
    rw [List.cons_append, skipLine, if_neg (Ne.symm inside.1), size]
    split_ifs with ends
    · exact .inr ⟨pos, by omega, rfl⟩
    · exact ih inside.2

/-- Where no token begins before the end of the range, `skipNoneCommand` stops in the file. -/
theorem skipLoop_past (skips : Skips alphabet text left) (suffix : text <:+ buffer)
    (bound : max + left.length ≤ buffer.length) (enough : text.length < fuel) :
    ∃ stop ≤ buffer.length, skipLoop buffer max fuel (buffer.length - text.length) = some (false, stop) := by
  induction skips generalizing fuel with
  | here left =>
    obtain ⟨fuel, rfl⟩ := Nat.exists_eq_add_of_lt enough
    exact ⟨_, Nat.sub_le _ _, by rw [skipLoop, if_pos (by omega)]⟩
  | @skipped c more left passed later ih =>
    obtain ⟨fuel, rfl⟩ := Nat.exists_eq_add_of_lt enough
    rcases Nat.lt_or_ge (buffer.length - (c :: more).length) max with below | past
    · have long := suffix.length_le
      rw [skipLoop_cons passed suffix (by omega)]
      exact ih ((List.suffix_cons c more).trans suffix) bound (by rw [List.length_cons]; omega)
    · exact ⟨_, Nat.sub_le _ _, by rw [skipLoop, if_pos past]⟩
  | @comment c body more left opens inside later ih =>
    obtain ⟨fuel, rfl⟩ := Nat.exists_eq_add_of_lt enough
    rcases Nat.lt_or_ge (buffer.length - (c :: (body ++ alphabet.newline :: more)).length) max with below | past
    · have long := suffix.length_le
      have feed : more <:+ buffer := by
        refine List.IsSuffix.trans ⟨c :: body ++ [0x0a], ?_⟩ suffix
        rw [List.append_assoc, List.cons_append]
        rfl
      have slash : c = '/'.toUInt8 := opens.1
      have line : (0x0a : UInt8) ∉ c :: body := by
        rw [List.mem_cons, not_or]
        exact ⟨by rw [slash]; decide, inside⟩
      have stop : buffer.length - (c :: (body ++ 0x0a :: more)).length + (c :: body).length =
          buffer.length - (0x0a :: more).length := by
        simp only [List.length_cons, List.length_append] at long ⊢
        omega
      rcases @skipLine_stops more max (buffer.length - (c :: (body ++ 0x0a :: more)).length) _ line with goes | stops
      · rw [stop] at goes
        rw [show alphabet.newline = 0x0a from rfl] at opens suffix below ⊢
        rw [skipLoop_line opens suffix (Nat.not_le_of_lt below) goes]
        refine ih feed bound ?_
        rw [List.length_cons, List.length_append, List.length_cons]
        omega
      · obtain ⟨last, inFile, stops⟩ := stops
        rw [stop] at inFile
        refine ⟨last, inFile.trans (Nat.sub_le _ _), ?_⟩
        rw [List.cons_append] at stops
        rw [show alphabet.newline = 0x0a from rfl] at opens suffix below ⊢
        rw [skipLoop, if_neg (Nat.not_le_of_lt below), drop_suffix suffix, comment_cons (by simp), decide_eq_true opens]
        simp only [Option.bind_some, if_true, stops, Bool.false_eq_true, if_false]
    · exact ⟨_, Nat.sub_le _ _, by rw [skipLoop, if_pos past]⟩

theorem skipNoneCommand_past (size : parser.m_fileSize = parser.m_fileBuffer.length)
    (suffix : text <:+ parser.m_fileBuffer) (skips : Skips alphabet text left)
    (bound : parser.m_maxNameSpace + left.length ≤ parser.m_fileSize) :
    ∃ stop ≤ parser.m_fileSize, skipNoneCommand (parser.before text) = some (false, { parser with m_curPos := stop }) := by
  have long := suffix.length_le
  obtain ⟨stop, inFile, ends⟩ := @skipLoop_past parser.m_fileBuffer text left parser.m_maxNameSpace
    (parser.m_fileSize + 1) skips suffix (size ▸ bound) (by omega)
  rw [← size] at inFile ends
  refine ⟨stop, inFile, ?_⟩
  rw [skipNoneCommand]
  simp only [before, ends, Option.map_some]

theorem getNextWord_past (size : parser.m_fileSize = parser.m_fileBuffer.length)
    (suffix : text <:+ parser.m_fileBuffer) (skips : Skips alphabet text left)
    (bound : parser.m_maxNameSpace + left.length ≤ parser.m_fileSize) :
    ∃ stop ≤ parser.m_fileSize, getNextWord (parser.before text) = some (none, { parser with m_curPos := stop }) := by
  obtain ⟨stop, inFile, ends⟩ := skipNoneCommand_past size suffix skips bound
  refine ⟨stop, inFile, ?_⟩
  rw [getNextWord, ends]
  rfl

/-! ### Running out of the file -/

theorem skipLine_some {goes : Bool} {stop : ℕ} (ran : skipLine max text pos = some (goes, stop))
    (inFile : pos + text.length ≤ max) : ∃ body rest, text = body ++ 0x0a :: rest ∧ (0x0a : UInt8) ∉ body ∧
      goes = true ∧ stop = pos + body.length := by
  induction text generalizing pos with
  | nil => cases ran
  | cons c text ih =>
    rw [List.length_cons] at inFile
    rw [skipLine, if_neg (show ¬max ≤ pos by omega)] at ran
    split_ifs at ran with feed
    · cases ran
      exact ⟨[], text, by rw [feed]; rfl, List.not_mem_nil, rfl, rfl⟩
    · obtain ⟨body, rest, rfl, inside, goes, last⟩ := ih ran (by omega)
      refine ⟨c :: body, rest, rfl, ?_, goes, by rw [last, List.length_cons]; omega⟩
      rw [List.mem_cons, not_or]
      exact ⟨Ne.symm feed, inside⟩

theorem comment_some {c : UInt8} {opens : Bool} (ran : comment (c :: rest) = some opens) :
    opens = decide (alphabet.Opens c rest) := by
  rw [comment_cons] at ran
  · exact (Option.some.inj ran).symm
  · rintro rfl rfl
    cases ran

/-- What `skipNoneCommand` has passed over when it returns in a range that is the whole file. -/
theorem skipLoop_some {found : Bool} {stop : ℕ} (ran : skipLoop buffer buffer.length fuel pos = some (found, stop)) :
    (found = false → Skips alphabet (buffer.drop pos) []) ∧
      (found = true → ∃ c more, buffer.drop stop = c :: more ∧ Skips alphabet (buffer.drop pos) (c :: more) ∧
        skipped c = false ∧ ¬alphabet.Opens c more) := by
  induction fuel generalizing pos with
  | zero => cases ran
  | succ fuel ih =>
    rw [skipLoop] at ran
    split_ifs at ran with past
    · cases ran
      rw [List.drop_eq_nil_of_le past]
      exact ⟨fun _ => .here [], fun other => absurd other Bool.false_ne_true⟩
    · have below := Nat.lt_of_not_le past
      obtain ⟨c, rest, here⟩ : ∃ c rest, buffer.drop pos = c :: rest :=
        ⟨_, _, List.drop_eq_getElem_cons below⟩
      have next : buffer.drop (pos + 1) = rest := by
        rw [← List.drop_drop, here]
        rfl
      have size : pos + (c :: rest).length = buffer.length := by
        rw [← here, List.length_drop]
        omega
      rw [here] at ran ⊢
      obtain ⟨slashes, look, ran⟩ := Option.bind_eq_some_iff.mp ran
      obtain rfl := comment_some look
      obtain ⟨⟨goes, place⟩, passed, ran⟩ := Option.bind_eq_some_iff.mp ran
      rcases Decidable.em (alphabet.Opens c rest) with opens | plain
      · -- the comment ends in the file
        rw [decide_eq_true opens, if_pos rfl] at passed
        obtain ⟨body, behind, line, inside, rfl, rfl⟩ := skipLine_some passed (Nat.le_of_eq size)
        have feed : buffer.drop (pos + body.length) = 0x0a :: behind := by
          rw [← List.drop_drop, here, line, List.drop_left]
        have after : buffer.drop (pos + body.length + 1) = behind := by
          rw [← List.drop_drop, feed]
          rfl
        have there : buffer[pos + body.length]? = some 0x0a := by
          rw [← List.head?_drop, feed]
          rfl
        have feedSkipped : skipped 0x0a = true := by decide
        simp only [if_true, there, Option.bind_some, feedSkipped] at ran
        have later := ih ran
        rw [after] at later
        cases body with
        | nil =>
          obtain ⟨rfl, rfl⟩ := List.cons_eq_cons.mp line
          exact absurd opens.1 (by decide)
        | cons d body =>
          obtain ⟨rfl, rfl⟩ := List.cons_eq_cons.mp line
          have inner : alphabet.newline ∉ body := fun member => inside (List.mem_cons_of_mem _ member)
          refine ⟨fun none => .comment opens inner (later.1 none), fun found => ?_⟩
          obtain ⟨d, more, shape, skips, others⟩ := later.2 found
          exact ⟨d, more, shape, .comment opens inner skips, others⟩
      · rw [decide_eq_false plain, if_neg (by decide)] at passed
        cases passed
        have there : buffer[pos]? = some c := by
          rw [← List.head?_drop, here]
          rfl
        simp only [if_true, there, Option.bind_some] at ran
        split_ifs at ran with skip
        · have later := ih ran
          rw [next] at later
          refine ⟨fun none => .skipped skip (later.1 none), fun found => ?_⟩
          obtain ⟨d, more, shape, skips, others⟩ := later.2 found
          exact ⟨d, more, shape, .skipped skip skips, others⟩
        · cases ran
          refine ⟨fun other => absurd other.symm Bool.false_ne_true, fun _ => ⟨c, rest, here, .here _, ?_, plain⟩⟩
          simpa using skip

theorem wordEnd_some {stop : ℕ} (ran : wordEnd text pos = some stop) :
    ∃ more rest, text = more ++ rest ∧ Runs alphabet more rest := by
  induction text generalizing pos with
  | nil => cases ran
  | cons c text ih =>
    rw [wordEnd] at ran
    obtain ⟨slashes, look, ran⟩ := Option.bind_eq_some_iff.mp ran
    obtain rfl := comment_some look
    split_ifs at ran with ends
    · exact ⟨[], c :: text, rfl, ends.imp_left of_decide_eq_true⟩
    · obtain ⟨more, rest, rfl, runs⟩ := ih ran
      obtain ⟨plain, goes⟩ := not_or.mp ends
      exact ⟨c :: more, rest, rfl, fun opens => plain (decide_eq_true opens), Bool.eq_false_iff.mpr goes, runs⟩

/-- Where no token is left, the tokenizer runs out of a file that is not settled. -/
theorem getNextWord_outside (size : parser.m_fileSize = parser.m_fileBuffer.length)
    (whole : parser.m_maxNameSpace = parser.m_fileSize) (suffix : text <:+ parser.m_fileBuffer)
    (empty : tokens alphabet .between text = []) (ends : ¬Settled text) :
    getNextWord (parser.before text) = none := by
  have here := drop_suffix suffix
  cases ran : getNextWord (parser.before text) with
  | none => rfl
  | some out =>
    exfalso
    rw [getNextWord, skipNoneCommand] at ran
    obtain ⟨⟨found, next⟩, skipped, ran⟩ := Option.bind_eq_some_iff.mp ran
    obtain ⟨⟨found', stop⟩, loop, same⟩ := Option.map_eq_some_iff.mp skipped
    cases same
    simp only [before, whole, size] at loop
    have passed := skipLoop_some loop
    rw [here] at passed
    cases found with
    | false => exact ends (congrArg Prod.snd (passed.1 rfl).read.2)
    | true =>
      obtain ⟨c, more, shape, skips, begins, plain⟩ := passed.2 rfl
      obtain ⟨last, reads, -⟩ := Option.map_eq_some_iff.mp ran
      have reads' : wordEnd (parser.m_fileBuffer.drop stop) stop = some last := reads
      rw [shape] at reads'
      obtain ⟨word, rest, same, runs⟩ := wordEnd_some reads'
      cases word with
      | nil =>
        obtain rfl : c :: more = rest := same
        refine runs.elim plain fun stops => ?_
        have passed : CTextParser.skipped c = true := alphabet.skipped_of_ends c stops
        rw [begins] at passed
        cases passed
      | cons d word =>
        obtain ⟨rfl, rfl⟩ := List.cons_eq_cons.mp same
        rw [tokens_first skips begins runs.1 runs.2.2] at empty
        cases empty

end LockFreeCore.CTextParser
