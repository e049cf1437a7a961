import LockFreeCore.Model.CTextParser

/-! # The words that the configuration parser sees

A place in the file is given by what is left of the file from there on. `getNextWord` goes from word to word as
the automaton splits the file, so a loop over the words passes over a stretch whose words do not stop it.
-/

namespace LockFreeCore.CTextParser

open Words

/-- How the tokenizer sees a text. -/
def alphabet : Alphabet UInt8 where
  skipped := skipped
  ends := ends
  mark := '/'.toUInt8
  newline := 0x0a
  skipped_of_ends c ends := by simp [skipped, ends]
  mark_begins := by decide

variable {parser : CTextParser} {buffer text left rest inside after : List UInt8} {max fuel : ℕ}

theorem comment_cons {c : UInt8} (follows : c = '/'.toUInt8 → rest ≠ []) :
    comment (c :: rest) = some (decide (alphabet.Opens c rest)) := by
  rw [comment]
  split_ifs with slash
  · cases rest with
    | nil => exact absurd rfl (follows slash)
    | cons d rest => simp [Alphabet.Opens, alphabet, slash]
  · simp [Alphabet.Opens, alphabet, slash]

theorem drop_suffix (suffix : text <:+ buffer) : buffer.drop (buffer.length - text.length) = text :=
  (List.suffix_iff_eq_drop.mp suffix).symm

theorem skipLine_eq {body : List UInt8} {pos : ℕ} (inside : (0x0a : UInt8) ∉ body) (bound : pos + body.length ≤ max) :
    skipLine max (body ++ 0x0a :: rest) pos = some (true, pos + body.length) := by
  induction body generalizing pos with
  | nil => rfl
  | cons c body ih =>
    rw [List.mem_cons, not_or] at inside
    rw [List.length_cons] at bound
    rw [List.cons_append, skipLine, if_neg (Ne.symm inside.1), if_neg (by omega), ih inside.2 (by omega),
      List.length_cons]
    congr 2
    omega

theorem getElem_suffix {c : UInt8} (suffix : c :: rest <:+ buffer) :
    buffer[buffer.length - (c :: rest).length]? = some c := by
  rw [← List.head?_drop, drop_suffix suffix]
  rfl

/-- One turn of the loop at a byte that is passed over. -/
theorem skipLoop_cons {c : UInt8} (passed : skipped c = true) (suffix : c :: rest <:+ buffer)
    (bound : buffer.length < max + (c :: rest).length) :
    skipLoop buffer max (fuel + 1) (buffer.length - (c :: rest).length) =
      skipLoop buffer max fuel (buffer.length - rest.length) := by
  have long := suffix.length_le
  rw [List.length_cons] at long bound
  have plain : ¬alphabet.Opens c rest := not_opens_of_skipped passed
  have follows : c = '/'.toUInt8 → rest ≠ [] := by
    rintro rfl
    cases passed
  have next : buffer.length - (c :: rest).length + 1 = buffer.length - rest.length := by
    rw [List.length_cons]
    omega
  have below : ¬max ≤ buffer.length - (c :: rest).length := by
    rw [List.length_cons]
    omega
  rw [skipLoop, if_neg below, drop_suffix suffix, comment_cons follows, decide_eq_false plain]
  simp only [Option.bind_some, Bool.false_eq_true, if_false, if_true, getElem_suffix suffix, passed, next]

/-- One turn of the loop at a comment whose line feed is reached. -/
theorem skipLoop_line {c : UInt8} {body : List UInt8} (opens : alphabet.Opens c (body ++ 0x0a :: rest))
    (suffix : c :: (body ++ 0x0a :: rest) <:+ buffer)
    (below : ¬max ≤ buffer.length - (c :: (body ++ 0x0a :: rest)).length)
    (ended : skipLine max (c :: (body ++ 0x0a :: rest)) (buffer.length - (c :: (body ++ 0x0a :: rest)).length) =
      some (true, buffer.length - (0x0a :: rest).length)) :
    skipLoop buffer max (fuel + 1) (buffer.length - (c :: (body ++ 0x0a :: rest)).length) =
      skipLoop buffer max fuel (buffer.length - rest.length) := by
  have feed : 0x0a :: rest <:+ buffer := (List.suffix_append (c :: body) (0x0a :: rest)).trans suffix
  have long := feed.length_le
  have next : buffer.length - (0x0a :: rest).length + 1 = buffer.length - rest.length := by
    rw [List.length_cons] at long ⊢
    omega
  rw [skipLoop, if_neg below, drop_suffix suffix, comment_cons (by simp), decide_eq_true opens]
  simp only [Option.bind_some, if_true, ended, getElem_suffix feed, next]
  rfl

/-- One turn of the loop at a comment. -/
theorem skipLoop_comment {c : UInt8} {body : List UInt8} (opens : alphabet.Opens c (body ++ alphabet.newline :: rest))
    (inside : alphabet.newline ∉ body) (suffix : c :: (body ++ alphabet.newline :: rest) <:+ buffer)
    (bound : buffer.length ≤ max + rest.length) :
    skipLoop buffer max (fuel + 1) (buffer.length - (c :: (body ++ alphabet.newline :: rest)).length) =
      skipLoop buffer max fuel (buffer.length - rest.length) := by
  have lineFeed : alphabet.newline = 0x0a := rfl
  rw [lineFeed] at opens inside suffix ⊢
  have long := suffix.length_le
  have size : (c :: (body ++ 0x0a :: rest)).length = body.length + rest.length + 2 := by simp; omega
  have slash : c = '/'.toUInt8 := opens.1
  have line : (0x0a : UInt8) ∉ c :: body := by
    rw [List.mem_cons, not_or]
    exact ⟨by rw [slash]; decide, inside⟩
  have stop : buffer.length - (c :: (body ++ 0x0a :: rest)).length + (c :: body).length =
      buffer.length - (0x0a :: rest).length := by
    rw [size, List.length_cons, List.length_cons]
    omega
  refine skipLoop_line opens suffix (by omega) ?_
  rw [← stop]
  refine skipLine_eq line ?_
  rw [stop, List.length_cons]
  omega

/-- `skipNoneCommand` goes to the next word. -/
theorem skipLoop_skips {c : UInt8} (skips : Skips alphabet text (c :: rest)) (begins : skipped c = false)
    (plain : ¬alphabet.Opens c rest) (follows : c = '/'.toUInt8 → rest ≠ []) (suffix : text <:+ buffer)
    (bound : buffer.length < max + (c :: rest).length) (enough : text.length ≤ fuel) :
    skipLoop buffer max fuel (buffer.length - text.length) = some (true, buffer.length - (c :: rest).length) := by
  generalize target : c :: rest = left at skips
  induction skips generalizing fuel with
  | here =>
    subst target
    have long := suffix.length_le
    rw [List.length_cons] at long bound
    obtain ⟨fuel, rfl⟩ := Nat.exists_eq_add_of_lt (Nat.lt_of_succ_le enough)
    have below : ¬max ≤ buffer.length - (c :: rest).length := by
      rw [List.length_cons]
      omega
    rw [skipLoop, if_neg below, drop_suffix suffix, comment_cons follows, decide_eq_false plain]
    simp only [Option.bind_some, Bool.false_eq_true, if_false, if_true, getElem_suffix suffix, begins]
  | @skipped d more left passed later ih =>
    subst target
    obtain ⟨fuel, rfl⟩ := Nat.exists_eq_add_of_le' (Nat.lt_of_lt_of_le (Nat.succ_pos _) enough)
    have shorter := later.suffix.length_le
    rw [skipLoop_cons passed suffix (by rw [List.length_cons]; omega)]
    exact ih ((List.suffix_cons d more).trans suffix) (by rw [List.length_cons] at enough; omega) rfl
  | @comment d body more left opens inside later ih =>
    subst target
    obtain ⟨fuel, rfl⟩ := Nat.exists_eq_add_of_le' (Nat.lt_of_lt_of_le (Nat.succ_pos _) enough)
    have shorter := later.suffix.length_le
    have feed : more <:+ buffer := by
      refine List.IsSuffix.trans ⟨d :: body ++ [0x0a], ?_⟩ suffix
      rw [List.append_assoc, List.cons_append]
      rfl
    rw [skipLoop_comment opens inside suffix (by rw [List.length_cons] at bound shorter; omega)]
    refine ih feed ?_ rfl
    rw [List.length_cons, List.length_append, List.length_cons] at enough
    omega

/-- `skipNoneCommand` finds that no word is left. -/
theorem skipLoop_end (skips : Skips alphabet text []) (suffix : text <:+ buffer) (bound : max = buffer.length)
    (enough : text.length < fuel) : skipLoop buffer max fuel (buffer.length - text.length) = some (false, max) := by
  generalize target : ([] : List UInt8) = left at skips
  induction skips generalizing fuel with
  | here =>
    subst target bound
    obtain ⟨fuel, rfl⟩ := Nat.exists_eq_add_of_lt enough
    rw [List.length_nil, Nat.sub_zero, Nat.zero_add, skipLoop, if_pos (Nat.le_refl _)]
  | @skipped d more left passed later ih =>
    obtain ⟨fuel, rfl⟩ := Nat.exists_eq_add_of_lt enough
    rw [skipLoop_cons passed suffix (by rw [List.length_cons]; omega)]
    exact ih ((List.suffix_cons d more).trans suffix) (by rw [List.length_cons]; omega) target
  | @comment d body more left opens inside later ih =>
    obtain ⟨fuel, rfl⟩ := Nat.exists_eq_add_of_lt enough
    have feed : more <:+ buffer := by
      refine List.IsSuffix.trans ⟨d :: body ++ [0x0a], ?_⟩ suffix
      rw [List.append_assoc, List.cons_append]
      rfl
    rw [skipLoop_comment opens inside suffix (by omega)]
    refine ih feed ?_ target
    rw [List.length_cons, List.length_append, List.length_cons]
    omega

/-- A word goes on to where it ends. -/
theorem wordEnd_runs {more : List UInt8} {pos : ℕ} (runs : Runs alphabet more rest) :
    wordEnd (more ++ rest) pos = some (pos + more.length) := by
  induction more generalizing pos with
  | nil =>
    cases rest with
    | nil => exact runs.elim
    | cons c rest =>
      have follows : c = '/'.toUInt8 → rest ≠ [] := by
        rintro rfl
        rcases runs with opens | ends
        · exact ne_nil_of_opens opens
        · cases ends
      rw [List.nil_append, wordEnd, comment_cons follows, Option.bind_some, if_pos, List.length_nil, Nat.add_zero]
      exact runs.imp_left decide_eq_true
  | cons c more ih =>
    obtain ⟨plain, goes, runs⟩ := runs
    have follows : c = '/'.toUInt8 → more ++ rest ≠ [] := fun _ => by simp [runs.ne_nil]
    rw [List.cons_append, wordEnd, comment_cons follows, Option.bind_some, if_neg, ih runs, List.length_cons]
    · congr 1
      omega
    · rw [decide_eq_false plain]
      change ¬(false = true ∨ alphabet.ends c = true)
      simp [goes]

/-- The parser at the place where this text is left of the file. -/
def before (parser : CTextParser) (text : List UInt8) : CTextParser :=
  { parser with m_curPos := parser.m_fileSize - text.length }

@[simp] theorem before_m_fileSize : (parser.before text).m_fileSize = parser.m_fileSize := rfl

@[simp] theorem before_m_fileBuffer : (parser.before text).m_fileBuffer = parser.m_fileBuffer := rfl

@[simp] theorem before_m_maxNameSpace : (parser.before text).m_maxNameSpace = parser.m_maxNameSpace := rfl

@[simp] theorem before_before : (parser.before text).before left = parser.before left := rfl

theorem skipNoneCommand_eq {c : UInt8} (size : parser.m_fileSize = parser.m_fileBuffer.length)
    (suffix : text <:+ parser.m_fileBuffer) (skips : Skips alphabet text (c :: rest)) (begins : skipped c = false)
    (plain : ¬alphabet.Opens c rest) (follows : c = '/'.toUInt8 → rest ≠ [])
    (bound : parser.m_fileSize < parser.m_maxNameSpace + (c :: rest).length) :
    skipNoneCommand (parser.before text) = some (true, parser.before (c :: rest)) := by
  have long := suffix.length_le
  have loop := @skipLoop_skips parser.m_fileBuffer text rest parser.m_maxNameSpace (parser.m_fileSize + 1) c skips
    begins plain follows suffix (by rwa [← size]) (by omega)
  rw [← size] at loop
  rw [skipNoneCommand]
  simp only [before, loop, Option.map_some]

/-- The next word, wherever the text is cut into words. -/
theorem getNextWord_eq {c : UInt8} {more : List UInt8} (size : parser.m_fileSize = parser.m_fileBuffer.length)
    (suffix : text <:+ parser.m_fileBuffer) (skips : Skips alphabet text (c :: (more ++ rest)))
    (begins : skipped c = false) (plain : ¬alphabet.Opens c (more ++ rest)) (runs : Runs alphabet more rest)
    (bound : parser.m_fileSize < parser.m_maxNameSpace + (c :: (more ++ rest)).length) :
    getNextWord (parser.before text) = some (some (c :: more), parser.before rest) := by
  have follows : c = '/'.toUInt8 → more ++ rest ≠ [] := fun _ => by simp [runs.ne_nil]
  have found := skipNoneCommand_eq size suffix skips begins plain follows bound
  have goes : alphabet.ends c = false := by
    by_contra ends
    have passed : skipped c = true := alphabet.skipped_of_ends c (by simpa using ends)
    rw [begins] at passed
    cases passed
  have feed : c :: (more ++ rest) <:+ parser.m_fileBuffer := skips.suffix.trans suffix
  have long := feed.length_le
  have here := drop_suffix feed
  rw [← size] at here long
  have runs' : Runs alphabet (c :: more) rest := ⟨plain, goes, runs⟩
  have stop : parser.m_fileSize - (c :: (more ++ rest)).length + (c :: more).length =
      parser.m_fileSize - rest.length := by
    simp only [List.length_cons, List.length_append] at long ⊢
    omega
  have ended : wordEnd (c :: (more ++ rest)) (parser.m_fileSize - (c :: (more ++ rest)).length) =
      some (parser.m_fileSize - rest.length) := by
    rw [← stop]
    exact wordEnd_runs runs'
  have count : parser.m_fileSize - rest.length - (parser.m_fileSize - (c :: (more ++ rest)).length) =
      (c :: more).length := by omega
  rw [getNextWord, found, Option.bind_some]
  simp only [if_true, before, here, ended, Option.map_some, count]
  rw [← List.cons_append, List.take_left]

/-- The next word of a stretch that ends between words. -/
theorem getNextWord_inside {w : List UInt8} {words : List (List UInt8)} {final : Mode UInt8}
    (size : parser.m_fileSize = parser.m_fileBuffer.length) (suffix : inside ++ after <:+ parser.m_fileBuffer)
    (bound : parser.m_fileSize ≤ parser.m_maxNameSpace + after.length)
    (first : split alphabet .between inside = (w :: words, final)) :
    ∃ rest, getNextWord (parser.before (inside ++ after)) = some (some w, parser.before (rest ++ after)) ∧
      rest <:+ inside ∧ rest.length < inside.length ∧ split alphabet .between rest = (words, final) := by
  obtain ⟨c, more, rest, rfl, skips, begins, plain, runs, later⟩ := split_first first
  have skips' := skips.append after
  rw [List.cons_append, List.append_assoc] at skips'
  have plain' : ¬alphabet.Opens c (more ++ (rest ++ after)) := by
    rwa [← List.append_assoc, opens_append after (by simp [runs.ne_nil])]
  have shorter := skips.suffix.length_le
  rw [List.length_cons, List.length_append] at shorter
  refine ⟨rest, getNextWord_eq size suffix skips' begins plain' (runs.append after) ?_, ?_, by omega, later⟩
  · simp only [List.length_cons, List.length_append]
    omega
  · exact (List.suffix_append (c :: more) rest).trans skips.suffix

/-- A word that the tokenizer takes as it stands. -/
structure Plain (word : List UInt8) : Prop where
  begins : ∃ c more, word = c :: more ∧ skipped c = false
  goes : ∀ c ∈ word, c ≠ '/'.toUInt8 ∧ ends c = false

/-- The next word, behind what has no word in it. -/
theorem getNextWord_plain {word : List UInt8} {d : UInt8} (size : parser.m_fileSize = parser.m_fileBuffer.length)
    (blank : split alphabet .between left = ([], .between)) (plain : Plain word) (stops : ends d = true)
    (suffix : left ++ (word ++ d :: rest) <:+ parser.m_fileBuffer)
    (bound : parser.m_fileSize < parser.m_maxNameSpace + (word ++ d :: rest).length) :
    getNextWord (parser.before (left ++ (word ++ d :: rest))) = some (some word, parser.before (d :: rest)) := by
  obtain ⟨⟨c, more, rfl, begins⟩, goes⟩ := plain
  obtain ⟨here, later⟩ := List.forall_mem_cons.mp goes
  have skips := (split_none blank).append (c :: more ++ d :: rest)
  exact getNextWord_eq size suffix skips begins (fun opens => here.1 opens.1) (runs_plain later stops) bound

theorem getNextWord_end (size : parser.m_fileSize = parser.m_fileBuffer.length)
    (blank : split alphabet .between left = ([], .between)) (suffix : left <:+ parser.m_fileBuffer)
    (bound : parser.m_maxNameSpace = parser.m_fileSize) :
    getNextWord (parser.before left) = some (none, parser.before []) := by
  have long := suffix.length_le
  have loop := @skipLoop_end parser.m_fileBuffer left parser.m_maxNameSpace (parser.m_fileSize + 1)
    (split_none blank) suffix (bound.trans size) (by omega)
  rw [← size, bound] at loop
  rw [getNextWord, skipNoneCommand]
  simp only [before, loop, Option.map_some, Option.bind_some, Bool.false_eq_true, if_false, bound, List.length_nil,
    Nat.sub_zero]

/-- A loop that goes on after these words passes over a stretch that has no other ones. -/
theorem loop_passes {β : Type*} (loop : ℕ → CTextParser → Option β) (Passed : List UInt8 → Prop)
    (goes : ∀ fuel here next word, getNextWord here = some (some word, next) → Passed word →
      loop (fuel + 1) here = loop fuel next)
    (size : parser.m_fileSize = parser.m_fileBuffer.length) (suffix : inside ++ after <:+ parser.m_fileBuffer)
    (bound : parser.m_fileSize ≤ parser.m_maxNameSpace + after.length)
    (closed : (split alphabet .between inside).2 = .between)
    (passed : ∀ word ∈ (split alphabet .between inside).1, Passed word) (enough : inside.length ≤ fuel) :
    ∃ left more, loop fuel (parser.before (inside ++ after)) = loop (fuel - more) (parser.before (left ++ after)) ∧
      left <:+ inside ∧ more + left.length ≤ inside.length ∧ split alphabet .between left = ([], .between) := by
  generalize same : split alphabet .between inside = seen at closed passed
  obtain ⟨words, final⟩ := seen
  obtain rfl : final = .between := closed
  induction words generalizing inside fuel with
  | nil => exact ⟨inside, 0, rfl, List.suffix_refl _, by omega, same⟩
  | cons word words ih =>
    obtain ⟨rest, read, shorter, fewer, later⟩ := getNextWord_inside size suffix bound same
    obtain ⟨here, others⟩ := List.forall_mem_cons.mp passed
    obtain ⟨fuel, rfl⟩ := Nat.exists_eq_add_of_le' (show 1 ≤ fuel by omega)
    have feed : rest ++ after <:+ parser.m_fileBuffer := by
      obtain ⟨front, rfl⟩ := shorter
      rw [List.append_assoc] at suffix
      exact (List.suffix_append front (rest ++ after)).trans suffix
    have enough' : rest.length ≤ fuel := by omega
    obtain ⟨left, more, went, inner, count, blank⟩ := ih feed enough' later others
    refine ⟨left, more + 1, ?_, inner.trans shorter, by omega, blank⟩
    rw [goes fuel _ _ word read here, went]
    congr 1
    omega

end LockFreeCore.CTextParser
