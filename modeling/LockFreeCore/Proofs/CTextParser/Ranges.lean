import LockFreeCore.Proofs.CTextParser.Tokens
import LockFreeCore.Proofs.CTextParser.Traced
import Mathlib.Data.List.TakeWhile

/-! # What a lookup does in the range that it searches

A range is the tokens that begin in it. A lookup passes over the tokens before the first one that is its key,
and what it returns and touches can be read off the tokens from there on.
-/

namespace LockFreeCore.CTextParser

open Words

/-- A word, and what is left of the file behind it. -/
abbrev Token := List UInt8 × List UInt8

/-- The tokens from this place on that begin in the range. -/
structure InRange (parser : CTextParser) (text : List UInt8) (range : List Token) : Prop where
  size : parser.m_fileSize = parser.m_fileBuffer.length
  limit : parser.m_maxNameSpace ≤ parser.m_fileSize
  suffix : text <:+ parser.m_fileBuffer
  inside : ∀ token ∈ range, parser.m_fileSize < parser.m_maxNameSpace + (token.1 ++ token.2).length
  outside : ∃ behind, tokens alphabet .between text = range ++ behind ∧
    ∀ token ∈ behind, parser.m_maxNameSpace + (token.1 ++ token.2).length ≤ parser.m_fileSize

variable {parser : CTextParser} {text : List UInt8} {token : Token} {range : List Token} {fuel : ℕ}

namespace InRange

theorem tokens_eq (inRange : InRange parser text (token :: range)) :
    ∃ behind, tokens alphabet .between text = (token.1, token.2) :: (range ++ behind) ∧
      ∀ token ∈ behind, parser.m_maxNameSpace + (token.1 ++ token.2).length ≤ parser.m_fileSize := inRange.outside

/-- The range goes on behind its first token. -/
theorem next (inRange : InRange parser text (token :: range)) :
    InRange parser token.2 range ∧ (Settled token.2 ↔ Settled text) := by
  obtain ⟨behind, same, past⟩ := inRange.tokens_eq
  obtain ⟨c, more, shape, skips, -, -, -, later, final⟩ := tokens_cons same
  rw [← List.cons_append, ← shape] at skips
  refine ⟨⟨inRange.size, inRange.limit, ?_, fun other member => ?_, behind, later, past⟩, by rw [Settled, final]; rfl⟩
  · exact (List.suffix_append _ _).trans (skips.suffix.trans inRange.suffix)
  · exact inRange.inside other (List.mem_cons_of_mem _ member)

theorem getNextWord (inRange : InRange parser text (token :: range)) :
    (parser.before text).getNextWord = some (some token.1, parser.before token.2) := by
  obtain ⟨behind, same, -⟩ := inRange.tokens_eq
  exact getNextWord_token inRange.size inRange.suffix same (inRange.inside token List.mem_cons_self)

theorem skipNoneCommand (inRange : InRange parser text (token :: range)) :
    (parser.before text).skipNoneCommand = some (true, parser.before (token.1 ++ token.2)) := by
  obtain ⟨behind, same, -⟩ := inRange.tokens_eq
  obtain ⟨c, more, shape, skips, begins, plain, runs, -⟩ := tokens_cons same
  have bound := inRange.inside token List.mem_cons_self
  rw [shape, List.cons_append] at bound ⊢
  exact skipNoneCommand_eq inRange.size inRange.suffix skips begins plain (fun _ => by simp [runs.ne_nil]) bound

/-- Behind the last token nothing begins before the end of the range. -/
theorem skips (inRange : InRange parser text []) (settled : Settled text) :
    ∃ left, Skips alphabet text left ∧ parser.m_maxNameSpace + left.length ≤ parser.m_fileSize := by
  obtain ⟨behind, same, past⟩ := inRange.outside
  cases behind with
  | nil =>
    have words := map_tokens (a := alphabet) .between text
    rw [same] at words
    exact ⟨[], split_none (Prod.ext words.symm settled), inRange.limit⟩
  | cons token behind =>
    obtain ⟨c, more, shape, skips, -⟩ := @tokens_cons _ _ _ _ token.2 token.1 behind same
    refine ⟨_, skips, ?_⟩
    have bound := past token List.mem_cons_self
    rwa [shape] at bound

theorem getNextWord_last (inRange : InRange parser text []) (settled : Settled text) :
    ∃ stop ≤ parser.m_fileSize,
      (parser.before text).getNextWord = some (none, { parser with m_curPos := stop }) := by
  obtain ⟨left, skips, bound⟩ := inRange.skips settled
  exact getNextWord_past inRange.size inRange.suffix skips bound

theorem skipNoneCommand_last (inRange : InRange parser text []) (settled : Settled text) :
    ∃ stop ≤ parser.m_fileSize,
      (parser.before text).skipNoneCommand = some (false, { parser with m_curPos := stop }) := by
  obtain ⟨left, skips, bound⟩ := inRange.skips settled
  exact skipNoneCommand_past inRange.size inRange.suffix skips bound

end InRange

/-- The cursor stays in the file, and what is copied is words of the range. -/
def Seen (parser : CTextParser) (range : List Token) (touches : List Touch) : Prop := ∀ touch ∈ touches,
  (∃ pos ≤ parser.m_fileSize, touch = .cursor pos) ∨ ∃ token ∈ range, touch = .copy token.1.length

theorem Seen.append {first second : List Touch} (seen : Seen parser range first) (later : Seen parser range second) :
    Seen parser range (first ++ second) := List.forall_mem_append.mpr ⟨seen, later⟩

theorem Seen.mono {touches : List Touch} {larger : List Token} (seen : Seen parser range touches)
    (subset : ∀ token ∈ range, token ∈ larger) : Seen parser larger touches := by
  intro touch member
  refine (seen touch member).imp_right ?_
  rintro ⟨token, inside, rfl⟩
  exact ⟨token, subset token inside, rfl⟩

theorem seen_cursor {stop : ℕ} (inFile : stop ≤ parser.m_fileSize) : Seen parser range [.cursor stop] :=
  List.forall_mem_singleton.mpr (.inl ⟨stop, inFile, rfl⟩)

theorem seen_copy (member : token ∈ range) : Seen parser range [.copy token.1.length] :=
  List.forall_mem_singleton.mpr (.inr ⟨token, member, rfl⟩)

theorem seen_token (parser : CTextParser) (rest : List UInt8) (member : token ∈ range) :
    Seen parser range [.cursor (parser.before rest).m_curPos, .copy token.1.length] :=
  (seen_cursor (Nat.sub_le _ _)).append (seen_copy member)

/-- The cursor stays in the file, and what is copied is the words of the range, each of them. -/
structure Copies (parser : CTextParser) (range : List Token) (touches : List Touch) : Prop where
  seen : Seen parser range touches
  each : ∀ token ∈ range, .copy token.1.length ∈ touches

namespace Copies

variable {touches more : List Touch} {behind : List Token}

theorem nil (parser : CTextParser) : Copies parser [] [] := ⟨List.forall_mem_nil _, List.forall_mem_nil _⟩

theorem append (copies : Copies parser range touches) (later : Copies parser behind more) :
    Copies parser (range ++ behind) (touches ++ more) := by
  refine ⟨(copies.seen.mono fun _ => List.mem_append_left _).append (later.seen.mono fun _ => List.mem_append_right _),
    List.forall_mem_append.mpr ⟨fun token member => ?_, fun token member => ?_⟩⟩
  · exact List.mem_append_left _ (copies.each token member)
  · exact List.mem_append_right _ (later.each token member)

theorem word (parser : CTextParser) (token : Token) (rest : List UInt8) :
    Copies parser [token] [.cursor (parser.before rest).m_curPos, .copy token.1.length] :=
  ⟨seen_token parser rest List.mem_cons_self, List.forall_mem_singleton.mpr (by simp)⟩

theorem cursor {stop : ℕ} (copies : Copies parser range touches) (inFile : stop ≤ parser.m_fileSize) :
    Copies parser range (touches ++ [.cursor stop]) :=
  ⟨copies.seen.append (seen_cursor inFile), fun token member => List.mem_append_left _ (copies.each token member)⟩

/-- The copies fit exactly when the words do. -/
theorem fit_iff (copies : Copies parser range touches) : Fit touches ↔ ∀ token ∈ range, token.1.length ≤ 255 := by
  refine ⟨fun fit token member => fit _ (copies.each token member), fun short touch member => ?_⟩
  rcases copies.seen touch member with ⟨pos, -, rfl⟩ | ⟨token, inside, rfl⟩
  · exact trivial
  · exact short token inside

end Copies

theorem tokenized_some {β γ : Type*} {step : Option (β × CTextParser)} {next : β → CTextParser → Traced γ} {result : β}
    {after : CTextParser} (ran : step = some (result, after)) :
    tokenized step next = (next result after).after [.cursor after.m_curPos] := by rw [ran]; rfl

/-- A loop passes over the words that do not stop it. -/
theorem traced_passes {β : Type*} (loop : ℕ → CTextParser → Traced β) (passed : List UInt8 → Bool)
    (goes : ∀ fuel here word next, getNextWord here = some (some word, next) → passed word = true →
      loop (fuel + 1) here = (loop fuel next).after [.cursor next.m_curPos, .copy word.length])
    (inRange : InRange parser text range) (enough : range.length < fuel) :
    ∃ touches rest more, loop fuel (parser.before text) = (loop more (parser.before rest)).after touches ∧
      InRange parser rest (range.dropWhile fun token => passed token.1) ∧ (Settled rest ↔ Settled text) ∧
      (range.dropWhile fun token => passed token.1).length < more ∧
      Copies parser (range.takeWhile fun token => passed token.1) touches := by
  induction range generalizing text fuel with
  | nil => exact ⟨[], text, fuel, rfl, inRange, Iff.rfl, enough, .nil parser⟩
  | cons token range ih =>
    rw [List.dropWhile_cons, List.takeWhile_cons]
    split_ifs with pass
    · obtain ⟨fuel, rfl⟩ := Nat.exists_eq_add_of_le' (Nat.one_le_of_lt enough)
      obtain ⟨later, settled⟩ := inRange.next
      obtain ⟨touches, rest, more, went, inner, final, spare, copies⟩ :=
        @ih token.2 fuel later (Nat.lt_of_succ_lt_succ enough)
      have step := goes fuel _ _ _ inRange.getNextWord pass
      rw [went, Traced.after_after] at step
      exact ⟨_, rest, more, step, inner, final.trans settled, spare, (Copies.word parser token token.2).append copies⟩
    · exact ⟨[], text, fuel, rfl, inRange, Iff.rfl, enough, .nil parser⟩

/-- The range from the first token on that is the key. -/
def fromKey (szName : List UInt8) (range : List Token) : List Token :=
  range.dropWhile fun token => decide (szName ≠ cString token.1)

/-- The words up to the key and the one behind it, which a lookup copies before it comes to the value. -/
def upToSign (szName : List UInt8) (range : List Token) : List Token :=
  (range.takeWhile fun token => decide (szName ≠ cString token.1)) ++ (fromKey szName range).take 2

theorem upToSign_absent {szName : List UInt8} (absent : fromKey szName range = []) : upToSign szName range = range := by
  rw [upToSign, absent, List.take_nil, List.append_nil]
  exact List.takeWhile_eq_self_iff.mpr (List.dropWhile_eq_nil_iff.mp absent)

/-- What stands in the range behind the key and an equals sign, and the word that is the equals sign. -/
def entry (szName : List UInt8) (range : List Token) : Option (List UInt8 × List Token) :=
  match fromKey szName range with
  | _ :: equals :: more => if cString equals.1 = ascii "=" then some (equals.1, more) else none
  | _ => none

/-- The token behind the equals sign is one. -/
theorem forall_entry {szName equals : List UInt8} {later : List Token} {P : Token → Prop}
    (found : entry szName range = some (equals, token :: later)) :
    (∀ equals token later, entry szName range = some (equals, token :: later) → P token) ↔ P token := by
  refine ⟨fun each => each equals token later found, fun here _ _ _ sign => ?_⟩
  rw [found] at sign
  cases sign
  exact here

/-- Where no token stands behind an equals sign. -/
theorem forall_no_entry {szName : List UInt8} {P : Token → Prop}
    (none : ((entry szName range).bind fun found => found.2.head?) = none) :
    ∀ equals token later, entry szName range = some (equals, token :: later) → P token := by
  intro equals token later sign
  rw [sign] at none
  cases none

theorem entry_absent {szName : List UInt8} (absent : fromKey szName range = []) : entry szName range = none := by
  rw [entry, absent]

section Values

variable {V : Type*} {value : List UInt8 → CTextParser → TracedResult V} {szName : List UInt8}

theorem fromKey_head {key : Token} {later : List Token} (same : fromKey szName range = key :: later) :
    szName = cString key.1 := by
  have stops := List.head?_dropWhile_not (fun token : Token => decide (szName ≠ cString token.1)) range
  rw [show range.dropWhile _ = key :: later from same] at stops
  simpa using stops

/-- The loop of the `getValue` functions comes to the key. -/
theorem valueTraced_passes (value : List UInt8 → CTextParser → TracedResult V) (szName : List UInt8)
    (inRange : InRange parser text range) (enough : range.length < fuel) :
    ∃ touches rest more, valueTraced value szName fuel (parser.before text) =
        (valueTraced value szName (more + 1) (parser.before rest)).after touches ∧
      InRange parser rest (fromKey szName range) ∧ (Settled rest ↔ Settled text) ∧
      Copies parser (range.takeWhile fun token => decide (szName ≠ cString token.1)) touches := by
  obtain ⟨touches, rest, more, went, inner, settled, spare, copies⟩ :=
    traced_passes (valueTraced value szName) (fun word => decide (szName ≠ cString word))
      (fun fuel here word next read other => by
        rw [valueTraced, tokenized_some read]
        dsimp only
        rw [if_neg (of_decide_eq_true other), Traced.after_after]
        rfl)
      inRange enough
  obtain ⟨more, rfl⟩ := Nat.exists_eq_add_of_le' (Nat.one_le_of_lt spare)
  exact ⟨touches, rest, more, went, inner, settled, copies⟩

/-- Without the key in the range the loop reads all of it, and reports success without a value. -/
theorem valueTraced_absent (value : List UInt8 → CTextParser → TracedResult V) (inRange : InRange parser text range)
    (settled : Settled text) (enough : range.length < fuel) (absent : fromKey szName range = []) :
    ∃ touches stop, valueTraced value szName fuel (parser.before text) =
        (touches, some ((true, none), { parser with m_curPos := stop })) ∧
      Copies parser (upToSign szName range) touches := by
  obtain ⟨touches, rest, more, went, inner, final, copies⟩ := valueTraced_passes value szName inRange enough
  rw [absent] at inner
  obtain ⟨stop, inFile, last⟩ := inner.getNextWord_last (final.mpr settled)
  rw [went, valueTraced, tokenized_some last, upToSign, absent, List.take_nil, List.append_nil]
  refine ⟨touches ++ [.cursor stop], stop, ?_, copies.cursor inFile⟩
  rw [Traced.after_after]
  exact Prod.ext (List.append_nil _) rfl

/-- The loop comes to what stands behind the equals sign. -/
theorem valueTraced_entry (value : List UInt8 → CTextParser → TracedResult V) (inRange : InRange parser text range)
    (settled : Settled text) (enough : range.length < fuel) {equals : List UInt8} {later : List Token}
    (found : entry szName range = some (equals, later)) :
    ∃ touches rest, valueTraced value szName fuel (parser.before text) =
        (value equals (parser.before rest)).after touches ∧
      InRange parser rest later ∧ Settled rest ∧ Copies parser (upToSign szName range) touches ∧
      ∃ token ∈ upToSign szName range, token.1 = equals := by
  obtain ⟨touches, rest, more, went, inner, final, copies⟩ := valueTraced_passes value szName inRange enough
  rw [entry] at found
  split at found
  · next key sign behind shape =>
    rw [shape] at inner
    split_ifs at found with equal
    obtain ⟨rfl, rfl⟩ := Prod.mk.inj (Option.some.inj found)
    have keyRead := inner.getNextWord
    obtain ⟨inner, settledKey⟩ := inner.next
    have signRead := inner.getNextWord
    obtain ⟨inner, settledSign⟩ := inner.next
    have ends := settledSign.mpr (settledKey.mpr (final.mpr settled))
    rw [upToSign, shape]
    refine ⟨_, sign.2, Eq.trans went ?_, inner, ends,
      copies.append ((Copies.word parser key key.2).append (Copies.word parser sign sign.2)), sign, by simp, rfl⟩
    rw [valueTraced, tokenized_some keyRead]
    dsimp only
    rw [if_pos (fromKey_head shape), tokenized_some signRead]
    dsimp only
    rw [if_pos equal]
    simp only [Traced.after_after, List.cons_append, List.nil_append]
  · cases found

/-- The loop reports a key without an equals sign. -/
theorem valueTraced_broken (value : List UInt8 → CTextParser → TracedResult V) (inRange : InRange parser text range)
    (settled : Settled text) (enough : range.length < fuel) (present : fromKey szName range ≠ [])
    (broken : entry szName range = none) :
    ∃ touches next, valueTraced value szName fuel (parser.before text) = (touches, some ((false, none), next)) ∧
      Copies parser (upToSign szName range) touches := by
  obtain ⟨touches, rest, more, went, inner, final, copies⟩ := valueTraced_passes value szName inRange enough
  obtain ⟨key, later, shape⟩ := List.exists_cons_of_ne_nil present
  rw [shape] at inner
  have keyRead := inner.getNextWord
  obtain ⟨inner, settledKey⟩ := inner.next
  rw [went, valueTraced, tokenized_some keyRead, upToSign, shape]
  dsimp only
  rw [if_pos (fromKey_head shape)]
  rw [entry, shape] at broken
  have keyCopied := Copies.word parser key key.2
  cases later with
  | nil =>
    obtain ⟨stop, inFile, last⟩ := inner.getNextWord_last (settledKey.mpr (final.mpr settled))
    refine ⟨_, { parser with m_curPos := stop }, ?_, copies.append (keyCopied.cursor inFile)⟩
    rw [tokenized_some last]
    rfl
  | cons sign behind =>
    dsimp only at broken
    split_ifs at broken with equal
    refine ⟨_, parser.before sign.2, ?_, copies.append (keyCopied.append (Copies.word parser sign sign.2))⟩
    rw [tokenized_some inner.getNextWord]
    dsimp only
    rw [if_neg equal]
    rfl

/-! ### Behind the equals sign -/

theorem wordTraced_last (convert : List UInt8 → V) (equals : List UInt8) (inRange : InRange parser text [])
    (settled : Settled text) : ∃ stop ≤ parser.m_fileSize, wordTraced convert equals (parser.before text) =
      ([.cursor stop], some ((false, none), { parser with m_curPos := stop })) := by
  obtain ⟨stop, inFile, last⟩ := inRange.getNextWord_last settled
  exact ⟨stop, inFile, tokenized_some last⟩

theorem wordTraced_token (convert : List UInt8 → V) (equals : List UInt8)
    (inRange : InRange parser text (token :: range)) : wordTraced convert equals (parser.before text) =
      ([.cursor (parser.before token.2).m_curPos, .copy token.1.length],
        some ((true, some (convert (cString token.1))), parser.before token.2)) :=
  tokenized_some inRange.getNextWord

/-- The token begins with a quote. -/
def Token.Quotes (token : Token) : Prop := token.1.head? = some '"'.toUInt8

instance decidableQuotes (token : Token) : Decidable token.Quotes := inferInstanceAs (Decidable (_ = _))

/-- What is left of the file behind the quote. -/
def Token.quoted (token : Token) : List UInt8 := token.1.tail ++ token.2

/-- The string up to the closing quote. -/
def Token.string (token : Token) : List UInt8 := token.quoted.takeWhile fun c => decide (c ≠ '"'.toUInt8)

theorem quoteEnd_mem {text : List UInt8} {pos : ℕ} : quoteEnd text pos = if '"'.toUInt8 ∈ text then
    some (pos + (text.takeWhile fun c => decide (c ≠ '"'.toUInt8)).length) else none := by
  induction text generalizing pos with
  | nil => rfl
  | cons c text ih =>
    rw [quoteEnd, ih, List.takeWhile_cons]
    by_cases quote : c = '"'.toUInt8
    · rw [if_pos quote, if_pos (quote ▸ List.mem_cons_self), if_neg (by simpa using quote)]
      rfl
    · have here : '"'.toUInt8 ∈ c :: text ↔ '"'.toUInt8 ∈ text := by simp [Ne.symm quote]
      simp only [if_neg quote, here, decide_eq_true quote, if_true, List.length_cons, Nat.add_assoc, Nat.add_comm 1]

theorem stringTraced_last (convert : List UInt8 → V) (equals : List UInt8) (inRange : InRange parser text [])
    (settled : Settled text) : ∃ stop ≤ parser.m_fileSize, stringTraced convert equals (parser.before text) =
      ([.cursor stop, .copy equals.length],
        some ((true, some (convert (cString equals))), { parser with m_curPos := stop })) := by
  obtain ⟨stop, inFile, last⟩ := inRange.skipNoneCommand_last settled
  refine ⟨stop, inFile, ?_⟩
  have read : (parser.before text).getStringWord = some ((true, none), { parser with m_curPos := stop }) := by
    rw [getStringWord, last]
    rfl
  rw [stringTraced, tokenized_some read]
  rfl

/-- `getStringWord` at a token. -/
theorem getStringWord_token (inRange : InRange parser text (token :: range)) :
    (parser.before text).getStringWord =
      if token.Quotes then
        if '"'.toUInt8 ∈ token.quoted then
          some ((true, some token.string), { parser with
            m_curPos := parser.m_fileSize - token.quoted.length + token.string.length })
        else none
      else some ((false, none), parser.before (token.1 ++ token.2)) := by
  have found := inRange.skipNoneCommand
  obtain ⟨behind, same, -⟩ := inRange.tokens_eq
  obtain ⟨c, more, shape, skips, -⟩ := tokens_cons same
  have feed : token.1 ++ token.2 <:+ parser.m_fileBuffer := by
    rw [shape]
    exact skips.suffix.trans inRange.suffix
  have here := drop_suffix feed
  have long := feed.length_le
  rw [← inRange.size] at here long
  have first : token.1 ++ token.2 = c :: token.quoted := by
    rw [Token.quoted, shape]
    rfl
  have quotes : token.Quotes ↔ c = '"'.toUInt8 := by
    rw [Token.Quotes, shape]
    exact Option.some_inj
  rw [first] at found here long ⊢
  rw [List.length_cons] at long
  have start : parser.m_fileSize - (c :: token.quoted).length + 1 = parser.m_fileSize - token.quoted.length := by
    rw [List.length_cons]
    omega
  have taken (n : ℕ) : token.quoted.take (n + token.string.length - n) = token.string := by
    rw [Nat.add_sub_cancel_left]
    exact (List.prefix_iff_eq_take.mp (List.takeWhile_prefix _)).symm
  have stops (pos : ℕ) : quoteEnd token.quoted pos =
      if '"'.toUInt8 ∈ token.quoted then some (pos + token.string.length) else none := quoteEnd_mem
  rw [getStringWord, found, Option.bind_some]
  simp only [if_true, before, here, start, quotes, stops, ne_eq, ite_not]
  split_ifs with quote closes
  · rw [Option.map_some, taken]
  · rfl
  · rfl

theorem stringTraced_token (convert : List UInt8 → V) (equals : List UInt8)
    (inRange : InRange parser text (token :: range)) : stringTraced convert equals (parser.before text) =
      if token.Quotes then
        if '"'.toUInt8 ∈ token.quoted then
          ([.cursor (parser.m_fileSize - token.quoted.length + token.string.length), .copy token.string.length],
            some ((true, some (convert (cString token.string))), { parser with
              m_curPos := parser.m_fileSize - token.quoted.length + token.string.length }))
        else ([], none)
      else ([.cursor (parser.before (token.1 ++ token.2)).m_curPos],
        some ((false, none), parser.before (token.1 ++ token.2))) := by
  rw [stringTraced, getStringWord_token inRange]
  split_ifs with quotes closes
  · rfl
  · rfl
  · rfl

/-- A string lies in the file. -/
theorem InRange.string_le (inRange : InRange parser text (token :: range)) :
    parser.m_fileSize - token.quoted.length + token.string.length ≤ parser.m_fileSize := by
  obtain ⟨behind, same, -⟩ := inRange.tokens_eq
  have member : token ∈ tokens alphabet .between text := same ▸ List.mem_cons_self
  have long := ((suffix_of_mem_tokens member).1.trans inRange.suffix).length_le
  have string : token.string.length ≤ token.quoted.length := (List.takeWhile_prefix _).length_le
  have quoted : token.quoted.length ≤ (token.1 ++ token.2).length := by simp [Token.quoted]
  have size := inRange.size
  omega

end Values

end LockFreeCore.CTextParser
