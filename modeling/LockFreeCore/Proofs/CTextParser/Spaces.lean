import LockFreeCore.Proofs.CTextParser.Ranges

/-! # The namespaces of any file

`checkNameSpace` records the namespaces that the tokens of the file spell, whatever the file is: a word that begins
with a colon opens one, and the next word that is a closing brace ends it.
-/

namespace LockFreeCore.CTextParser

open Words

/-- A part of the file that a lookup may search: where it begins, the tokens in it, and how much of the file lies
behind it. -/
structure Span where
  text : List UInt8
  range : List Token
  left : ℕ
deriving DecidableEq

def whole (file : List UInt8) : Span := ⟨file, tokens alphabet .between file, 0⟩

/-- A namespace: the bytes behind the colon, and what follows. -/
structure Space where
  name : List UInt8
  span : Span
deriving DecidableEq

def goesOn (word : List UInt8) : Bool := decide (cString word ≠ ascii "\x7d")

/-- The tokens from the first closing brace on. -/
def fromClose (later : List Token) : List Token := later.dropWhile fun token => goesOn token.1

/-- What follows a name, up to the closing brace and with it. -/
def spanBehind (name : Token) (later : List Token) : Span :=
  match fromClose later with
  | [] => ⟨name.2, later, 0⟩
  | close :: _ => ⟨name.2, (later.takeWhile fun token => goesOn token.1) ++ [close], close.2.length⟩

theorem length_fromClose_le (later : List Token) : (fromClose later).tail.length ≤ later.length :=
  ((List.tail_sublist _).trans (List.dropWhile_sublist _)).length_le

/-- The namespaces that these tokens spell. -/
def spaces : List Token → List Space
  | [] => []
  | token :: later =>
    if token.1.head? = some ':'.toUInt8 then
      ⟨token.1.tail, spanBehind token later⟩ :: spaces (fromClose later).tail
    else spaces later
termination_by range => range.length
decreasing_by
  · exact Nat.lt_succ_of_le (length_fromClose_le later)
  · exact Nat.lt_succ_self _

variable {parser : CTextParser} {text : List UInt8} {later : List Token} {NsCount fuel : ℕ}

/-- In a range that is the whole file every token begins in it. -/
theorem inRange_whole (size : parser.m_fileSize = parser.m_fileBuffer.length)
    (whole : parser.m_maxNameSpace = parser.m_fileSize) (suffix : text <:+ parser.m_fileBuffer) :
    InRange parser text (tokens alphabet .between text) := by
  refine ⟨size, Nat.le_of_eq whole, suffix, fun token member => ?_, [], (List.append_nil _).symm, List.forall_mem_nil _⟩
  have some := List.length_pos_iff.mpr (suffix_of_mem_tokens member).2
  rw [whole, List.length_append]
  omega

/-- At the end of the file the tokenizer stops, or runs out of a file that is not settled. -/
theorem InRange.getNextWord_ends (inRange : InRange parser text [])
    (whole : parser.m_maxNameSpace = parser.m_fileSize) :
    (Settled text ∧ (parser.before text).getNextWord = some (none, parser.before [])) ∨
      (¬Settled text ∧ (parser.before text).getNextWord = none) := by
  have empty : tokens alphabet .between text = [] := by
    obtain ⟨behind, same, past⟩ := inRange.outside
    cases behind with
    | nil => exact same
    | cons token behind =>
      have some := (suffix_of_mem_tokens (same ▸ List.mem_cons_self : token ∈ tokens alphabet .between text)).2
      have bound := past token List.mem_cons_self
      have long := List.length_pos_iff.mpr some
      rw [whole, List.length_append] at bound
      omega
  rcases Decidable.em (Settled text) with settled | ends
  · have words := map_tokens (a := alphabet) .between text
    rw [empty] at words
    exact .inl ⟨settled, getNextWord_end inRange.size (Prod.ext words.symm settled) inRange.suffix whole⟩
  · exact .inr ⟨ends, getNextWord_outside inRange.size whole inRange.suffix empty ends⟩

/-- The inner loop of `checkNameSpace` passes over what is no closing brace. -/
theorem closeTraced_passes (NsCount : ℕ) (inRange : InRange parser text later) (enough : later.length < fuel) :
    ∃ touches rest more, closeTraced NsCount fuel (parser.before text) =
        (closeTraced NsCount (more + 1) (parser.before rest)).after touches ∧
      InRange parser rest (fromClose later) ∧ (Settled rest ↔ Settled text) ∧
      Copies parser (later.takeWhile fun token => goesOn token.1) touches := by
  obtain ⟨touches, rest, more, went, inner, settled, spare, copies⟩ :=
    traced_passes (closeTraced NsCount) goesOn
      (fun fuel here word next read other => by
        rw [closeTraced, tokenized_some read]
        dsimp only
        rw [if_neg (of_decide_eq_true other), Traced.after_after]
        rfl)
      inRange enough
  obtain ⟨more, rfl⟩ := Nat.exists_eq_add_of_le' (Nat.one_le_of_lt spare)
  exact ⟨touches, rest, more, went, inner, settled, copies⟩

/-- It comes to the closing brace. -/
theorem closeTraced_close (NsCount : ℕ) (inRange : InRange parser text later) (enough : later.length < fuel)
    {name close : Token} {behind : List Token} (shape : fromClose later = close :: behind) :
    ∃ touches, closeTraced NsCount fuel (parser.before text) = (touches ++ [.slot NsCount],
        some (before { parser with
          m_nsMaxPos := Function.update parser.m_nsMaxPos NsCount (parser.m_fileSize - close.2.length) } close.2)) ∧
      Copies parser (spanBehind name later).range touches ∧ InRange parser close.2 behind ∧
      (Settled close.2 ↔ Settled text) := by
  obtain ⟨touches, rest, more, went, inner, final, copies⟩ := closeTraced_passes NsCount inRange enough
  have stops := List.head?_dropWhile_not (fun token : Token => goesOn token.1) later
  rw [show later.dropWhile _ = close :: behind from shape] at stops
  have closing : cString close.1 = ascii "\x7d" := by simpa [goesOn] using stops
  have range : (spanBehind name later).range = (later.takeWhile fun token => goesOn token.1) ++ [close] := by
    rw [spanBehind, shape]
  rw [shape] at inner
  rw [range]
  have read := inner.getNextWord
  obtain ⟨inner, settled⟩ := inner.next
  refine ⟨touches ++ [.cursor (parser.before close.2).m_curPos, .copy close.1.length], ?_,
    copies.append (Copies.word parser close close.2), inner, settled.trans final⟩
  rw [went, closeTraced, tokenized_some read]
  dsimp only
  rw [if_pos closing, Traced.after_after, Traced.after_after]
  exact Prod.ext (by simp [Traced.after]) rfl

/-- Without a closing brace it comes to the end of the file. -/
theorem closeTraced_ends (NsCount : ℕ) (inRange : InRange parser text later) (enough : later.length < fuel)
    (whole : parser.m_maxNameSpace = parser.m_fileSize) (shape : fromClose later = []) :
    ∃ touches, Copies parser later touches ∧
      ((Settled text ∧ closeTraced NsCount fuel (parser.before text) = (touches, some (parser.before []))) ∨
        (¬Settled text ∧ closeTraced NsCount fuel (parser.before text) = (touches, none))) := by
  obtain ⟨touches, rest, more, went, inner, final, copies⟩ := closeTraced_passes NsCount inRange enough
  rw [List.takeWhile_eq_self_iff.mpr (List.dropWhile_eq_nil_iff.mp shape)] at copies
  rw [shape] at inner
  rcases inner.getNextWord_ends whole with ⟨settled, last⟩ | ⟨ends, out⟩
  · refine ⟨_, copies.cursor (Nat.sub_le parser.m_fileSize 0), .inl ⟨final.mp settled, ?_⟩⟩
    rw [went, closeTraced, tokenized_some last, Traced.after_after]
    exact Prod.ext (List.append_nil _) rfl
  · refine ⟨touches, copies, .inr ⟨fun settled => ends (final.mpr settled), ?_⟩⟩
    rw [went, closeTraced, out]
    exact Prod.ext (List.append_nil _) rfl

/-- The name and the words of a namespace fit in the arrays that they are copied to. -/
def Space.Fits (space : Space) : Prop := space.name.length ≤ 255 ∧ ∀ token ∈ space.span.range, token.1.length ≤ 255

/-- The namespaces are recorded in the slots from `NsCount` on, and nothing else has changed. -/
structure Records (parser : CTextParser) (NsCount : ℕ) (list : List Space) (loaded : CTextParser) : Prop where
  size : loaded.m_fileSize = parser.m_fileSize
  file : loaded.m_fileBuffer = parser.m_fileBuffer
  slots : ∀ i (bound : i < list.length),
    loaded.m_nsPos (NsCount + i) = parser.m_fileSize - list[i].span.text.length ∧
    loaded.m_nsMaxPos (NsCount + i) = parser.m_fileSize - list[i].span.left ∧
    loaded.m_nsStr (NsCount + i) = cString list[i].name
  others : ∀ j, j < NsCount ∨ NsCount + list.length ≤ j →
    loaded.m_nsPos j = parser.m_nsPos j ∧ loaded.m_nsMaxPos j = parser.m_nsMaxPos j ∧
      loaded.m_nsStr j = parser.m_nsStr j

/-- What the outer loop of `checkNameSpace` touches and records, from the tokens before it. -/
structure Loads (parser : CTextParser) (NsCount : ℕ) (text : List UInt8) (range : List Token)
    (run : Traced CTextParser) : Prop where
  fits : Fit run.1 ↔ ((spaces range).length = 0 ∨ NsCount + (spaces range).length ≤ MAX_NAMESPACE_COUNT) ∧
    ∀ space ∈ spaces range, space.Fits
  cursor : ∀ m_curPos, .cursor m_curPos ∈ run.1 → m_curPos ≤ parser.m_fileSize
  ends : run.2.isSome = true ↔ Settled text
  records : ∀ loaded, run.2 = some loaded → Records parser NsCount (spaces range) loaded

theorem Records.cons {space : Space} {list : List Space} {mid loaded : CTextParser}
    (first : Records parser NsCount [space] mid) (rest : Records mid (NsCount + 1) list loaded) :
    Records parser NsCount (space :: list) loaded := by
  refine ⟨rest.size.trans first.size, rest.file.trans first.file, fun i bound => ?_, fun j outside => ?_⟩
  · cases i with
    | zero =>
      obtain ⟨pos, max, str⟩ := rest.others NsCount (.inl (Nat.lt_succ_self _))
      obtain ⟨pos', max', str'⟩ := first.slots 0 Nat.zero_lt_one
      exact ⟨pos.trans pos', max.trans max', str.trans str'⟩
    | succ i =>
      have place : NsCount + (i + 1) = NsCount + 1 + i := by omega
      have slot := rest.slots i (Nat.lt_of_succ_lt_succ bound)
      rw [place, List.getElem_cons_succ, ← first.size]
      exact slot
  · rw [List.length_cons] at outside
    obtain ⟨pos, max, str⟩ := rest.others j (by omega)
    obtain ⟨pos', max', str'⟩ := first.others j (by rw [List.length_singleton]; omega)
    exact ⟨pos.trans pos', max.trans max', str.trans str'⟩

namespace Loads

variable {range : List Token} {run : Traced CTextParser} {rest : List UInt8}

theorem done (settled : Settled text) : Loads parser NsCount text [] ([], some (parser.before [])) where
  fits := by
    rw [spaces]
    exact iff_of_true (List.forall_mem_nil _) ⟨.inl rfl, List.forall_mem_nil _⟩
  cursor := fun _ member => absurd member List.not_mem_nil
  ends := iff_of_true rfl settled
  records := by
    rintro loaded ⟨⟩
    rw [spaces]
    exact ⟨rfl, rfl, fun i bound => absurd bound (Nat.not_lt_zero _), fun _ _ => ⟨rfl, rfl, rfl⟩⟩

theorem out (ends : ¬Settled text) : Loads parser NsCount text [] ([], none) where
  fits := by
    rw [spaces]
    exact iff_of_true (List.forall_mem_nil _) ⟨.inl rfl, List.forall_mem_nil _⟩
  cursor := fun _ member => absurd member List.not_mem_nil
  ends := iff_of_false nofun ends
  records := nofun

/-- A step of the tokenizer comes first. -/
theorem after_cursor {stop : ℕ} (loads : Loads parser NsCount text range run) (inFile : stop ≤ parser.m_fileSize) :
    Loads parser NsCount text range (run.after [.cursor stop]) where
  fits := by
    rw [Traced.after, fit_append, and_iff_right (fit_cursor stop)]
    exact loads.fits
  cursor := by
    intro m_curPos member
    rcases List.mem_append.mp member with here | later
    · cases List.mem_singleton.mp here
      exact inFile
    · exact loads.cursor m_curPos later
  ends := loads.ends
  records := loads.records

/-- A word that opens no namespace is passed over. -/
theorem pass {token : Token} (loads : Loads parser NsCount rest range run) (settled : Settled rest ↔ Settled text)
    (plain : ¬token.1.head? = some ':'.toUInt8) : Loads parser NsCount text (token :: range) run where
  fits := by
    rw [spaces, if_neg plain]
    exact loads.fits
  cursor := loads.cursor
  ends := loads.ends.trans settled
  records := by
    rw [spaces, if_neg plain]
    exact loads.records

/-- A namespace comes first; its closing brace touches the slot once more. -/
theorem cons {space : Space} {touches slot : List Touch} {mid : CTextParser} {more : List Token}
    (loads : Loads mid (NsCount + 1) rest more run) (settled : Settled rest ↔ Settled text)
    (shape : spaces range = space :: spaces more) (first : Records parser NsCount [space] mid)
    (copies : Copies parser space.span.range touches) (again : ∀ touch ∈ slot, touch = .slot NsCount) :
    Loads parser NsCount text range
      (Traced.after [.copy space.name.length, .slot NsCount] (run.after (touches ++ slot))) where
  fits := by
    have here : Fit ([.copy space.name.length, .slot NsCount] ++ (touches ++ slot)) ↔
        NsCount < MAX_NAMESPACE_COUNT ∧ space.Fits := by
      have head : Fit [.copy space.name.length, .slot NsCount] ↔
          space.name.length ≤ 255 ∧ NsCount < MAX_NAMESPACE_COUNT :=
        List.forall_mem_cons.trans (and_congr_right fun _ => fit_singleton)
      have tail (few : NsCount < MAX_NAMESPACE_COUNT) : Fit slot := fun touch member => again touch member ▸ few
      rw [fit_append, fit_append, head, copies.fit_iff, Space.Fits]
      tauto
    rw [Traced.after_after, Traced.after, fit_append, here, loads.fits, shape, List.forall_mem_cons, List.length_cons]
    have slots : (NsCount < MAX_NAMESPACE_COUNT ∧ ((spaces more).length = 0 ∨
        NsCount + 1 + (spaces more).length ≤ MAX_NAMESPACE_COUNT)) ↔
        ((spaces more).length + 1 = 0 ∨ NsCount + ((spaces more).length + 1) ≤ MAX_NAMESPACE_COUNT) := by omega
    rw [← slots]
    tauto
  cursor := by
    intro m_curPos member
    rw [Traced.after_after, Traced.after] at member
    simp only [List.cons_append, List.nil_append, List.mem_cons, reduceCtorEq, List.mem_append, false_or] at member
    rcases member with (here | there) | later
    · obtain ⟨pos, inFile, same⟩ | ⟨token, -, same⟩ := copies.seen _ here
      · cases same
        exact inFile
      · cases same
    · cases again _ there
    · rw [← first.size]
      exact loads.cursor m_curPos later
  ends := loads.ends.trans settled
  records := by
    intro loaded ran
    rw [shape]
    exact first.cons (loads.records loaded ran)

end Loads

/-- The parser when `checkNameSpace` has read the name of a namespace. -/
def opened (parser : CTextParser) (NsCount : ℕ) (name : Token) : CTextParser :=
  { parser with
    m_nsPos := Function.update parser.m_nsPos NsCount (parser.m_fileSize - name.2.length)
    m_nsStr := Function.update parser.m_nsStr NsCount (cString name.1.tail) }

/-- The parser when the namespace is behind it. -/
theorem records_space {name : Token} {span : Span} {max : ℕ} (text : span.text = name.2)
    (left : max = parser.m_fileSize - span.left) : Records parser NsCount [⟨name.1.tail, span⟩]
      { parser.opened NsCount name with m_nsMaxPos := Function.update parser.m_nsMaxPos NsCount max } := by
  refine ⟨rfl, rfl, fun i bound => ?_, fun j outside => ?_⟩
  · obtain rfl : i = 0 := Nat.lt_one_iff.mp bound
    refine ⟨?_, ?_, ?_⟩
    · rw [List.getElem_singleton, text]
      exact Function.update_self ..
    · rw [List.getElem_singleton, ← left]
      exact Function.update_self ..
    · exact Function.update_self ..
  · have other : j ≠ NsCount := by
      rw [List.length_singleton] at outside
      omega
    exact ⟨Function.update_of_ne other .., Function.update_of_ne other .., Function.update_of_ne other ..⟩

theorem opened_inRange {range : List Token} (NsCount : ℕ) (name : Token) (inRange : InRange parser text range) :
    InRange (parser.opened NsCount name) text range :=
  ⟨inRange.size, inRange.limit, inRange.suffix, inRange.inside, inRange.outside⟩

/-- The file has more bytes than tokens are left. -/
theorem InRange.few (inRange : InRange parser text later) : later.length < parser.m_fileSize + 1 := by
  obtain ⟨behind, same, -⟩ := inRange.outside
  have fewer := length_tokens_le text
  have long := inRange.suffix.length_le
  rw [same, List.length_append] at fewer
  rw [← inRange.size] at long
  omega

section Namespace

variable {token close : Token} {behind : List Token} {next : CTextParser → Traced CTextParser}

/-- A namespace that no closing brace ends goes on to the end of the file. -/
theorem loads_unclosed (inRange : InRange parser text (token :: later))
    (whole : parser.m_maxNameSpace = parser.m_fileSize) (unset : parser.m_nsMaxPos NsCount = parser.m_fileSize)
    (colon : token.1.head? = some ':'.toUInt8) (shape : fromClose later = [])
    (rest : Loads (parser.opened NsCount token) (NsCount + 1) [] [] (next ((parser.opened NsCount token).before []))) :
    Loads parser NsCount text (token :: later) (Traced.after [.copy token.1.tail.length, .slot NsCount]
      (Traced.bind (closeTraced NsCount (parser.m_fileSize + 1) ((parser.opened NsCount token).before token.2))
        next)) := by
  obtain ⟨inner, settled⟩ := inRange.next
  have namespaces : spaces (token :: later) = ⟨token.1.tail, ⟨token.2, later, 0⟩⟩ :: spaces [] := by
    rw [spaces, spaces, if_pos colon, spanBehind, shape, List.tail_nil, spaces]
  have first := @records_space parser NsCount token ⟨token.2, later, 0⟩ (parser.m_nsMaxPos NsCount) rfl unset
  rw [Function.update_eq_self] at first
  obtain ⟨touches, copies, ⟨ends, ran⟩ | ⟨ends, ran⟩⟩ :=
    closeTraced_ends NsCount (opened_inRange NsCount token inner) inner.few whole shape
  · have empty : Settled [] := rfl
    rw [ran, ← List.append_nil touches]
    exact Loads.cons rest (iff_of_true empty (settled.mp ends)) namespaces first ⟨copies.seen, copies.each⟩
      (List.forall_mem_nil _)
  · have out := @Loads.out (parser.opened NsCount token) token.2 (NsCount + 1) ends
    have stops : Traced.bind (touches, none) next = Traced.after (touches ++ []) ([], none) := by
      simp [Traced.after, Traced.bind]
    rw [ran, stops]
    exact Loads.cons out settled namespaces first ⟨copies.seen, copies.each⟩ (List.forall_mem_nil _)

/-- A namespace goes on to its closing brace. -/
theorem loads_closed (inRange : InRange parser text (token :: later)) (colon : token.1.head? = some ':'.toUInt8)
    (shape : fromClose later = close :: behind)
    (rest : ∀ after, after = { parser.opened NsCount token with
        m_nsMaxPos := Function.update parser.m_nsMaxPos NsCount (parser.m_fileSize - close.2.length) } →
      InRange after close.2 behind → Loads after (NsCount + 1) close.2 behind (next (after.before close.2))) :
    Loads parser NsCount text (token :: later) (Traced.after [.copy token.1.tail.length, .slot NsCount]
      (Traced.bind (closeTraced NsCount (parser.m_fileSize + 1) ((parser.opened NsCount token).before token.2))
        next)) := by
  obtain ⟨inner, settled⟩ := inRange.next
  have namespaces : spaces (token :: later) = ⟨token.1.tail, spanBehind token later⟩ :: spaces behind := by
    rw [spaces, if_pos colon, shape, List.tail_cons]
  have left : (spanBehind token later).left = close.2.length := by rw [spanBehind, shape]
  have begins : (spanBehind token later).text = token.2 := by rw [spanBehind, shape]
  have first := @records_space parser NsCount token (spanBehind token later) (parser.m_fileSize - close.2.length) begins
    (by rw [left])
  obtain ⟨touches, ran, copies, inBehind, final⟩ :=
    @closeTraced_close _ _ _ _ NsCount (opened_inRange NsCount token inner) inner.few token close behind shape
  rw [ran]
  have goes := rest _ rfl ⟨inBehind.size, inBehind.limit, inBehind.suffix, inBehind.inside, inBehind.outside⟩
  exact Loads.cons goes (final.trans settled) namespaces first ⟨copies.seen, copies.each⟩
    (List.forall_mem_singleton.mpr rfl)

end Namespace

theorem nameTraced_loads (inRange : InRange parser text later) (enough : later.length < fuel)
    (whole : parser.m_maxNameSpace = parser.m_fileSize)
    (unset : ∀ j, NsCount ≤ j → parser.m_nsMaxPos j = parser.m_fileSize) :
    Loads parser NsCount text later (nameTraced fuel NsCount (parser.before text)) := by
  induction fuel generalizing parser text later NsCount with
  | zero => exact absurd enough (Nat.not_lt_zero _)
  | succ fuel ih =>
    rw [nameTraced]
    cases later with
    | nil =>
      rcases inRange.getNextWord_ends whole with ⟨settled, last⟩ | ⟨ends, out⟩
      · rw [tokenized_some last]
        exact (Loads.done settled).after_cursor (Nat.sub_le _ _)
      · rw [out]
        exact Loads.out ends
    | cons token later =>
      have spare := Nat.lt_of_succ_lt_succ enough
      rw [tokenized_some inRange.getNextWord]
      refine Loads.after_cursor ?_ (Nat.sub_le _ _)
      dsimp only
      split_ifs with colon
      · cases shape : fromClose later with
        | nil =>
          refine loads_unclosed inRange whole (unset NsCount (Nat.le_refl _)) colon shape ?_
          have last : InRange (parser.opened NsCount token) [] [] :=
            ⟨inRange.size, inRange.limit, List.nil_suffix, List.forall_mem_nil _, [], rfl, List.forall_mem_nil _⟩
          exact ih last (Nat.lt_of_le_of_lt (Nat.zero_le _) spare) whole fun j past => unset j (Nat.le_of_succ_le past)
        | cons close behind =>
          refine loads_closed inRange colon shape ?_
          rintro after rfl inBehind
          have fewer : behind.length < fuel := by
            have shorter := length_fromClose_le later
            rw [shape, List.tail_cons] at shorter
            omega
          refine ih inBehind fewer whole fun j past => ?_
          exact (Function.update_of_ne (Nat.ne_of_gt past) ..).trans (unset j (Nat.le_of_succ_le past))
      · obtain ⟨inner, settled⟩ := inRange.next
        exact (ih inner spare whole unset).pass settled colon

/-- What the slot holds after `loadText`: a name, and what a lookup of the name searches. A slot behind the
namespaces of the file keeps the name it had, and stands for the whole file. -/
def slot (leftover : ℕ → List UInt8) (file : List UInt8) (i : ℕ) : List UInt8 × Span :=
  ((spaces (tokens alphabet .between file))[i]?).elim (leftover i, whole file) fun space =>
    (cString space.name, space.span)

/-- What the parser knows of a file after `loadText`. -/
structure Knows (parser : CTextParser) (leftover : ℕ → List UInt8) (file : List UInt8) : Prop where
  size : parser.m_fileSize = file.length
  buffer : parser.m_fileBuffer = file
  name : ∀ i, parser.m_nsStr i = (slot leftover file i).1
  pos : ∀ i, parser.m_nsPos i = file.length - (slot leftover file i).2.text.length
  max : ∀ i, parser.m_nsMaxPos i = file.length - (slot leftover file i).2.left

theorem Records.knows {start loaded : CTextParser} {file : List UInt8}
    (records : Records start 0 (spaces (tokens alphabet .between file)) loaded) (size : start.m_fileSize = file.length)
    (buffer : start.m_fileBuffer = file) (pos : ∀ i, start.m_nsPos i = 0) (max : ∀ i, start.m_nsMaxPos i = file.length) :
    Knows loaded start.m_nsStr file := by
  have each (i : ℕ) : loaded.m_nsStr i = (slot start.m_nsStr file i).1 ∧
      loaded.m_nsPos i = file.length - (slot start.m_nsStr file i).2.text.length ∧
      loaded.m_nsMaxPos i = file.length - (slot start.m_nsStr file i).2.left := by
    rcases Nat.lt_or_ge i (spaces (tokens alphabet .between file)).length with below | behind
    · obtain ⟨begins, ends, name⟩ := records.slots i below
      rw [Nat.zero_add, size] at begins ends
      rw [Nat.zero_add] at name
      rw [slot, List.getElem?_eq_getElem below]
      exact ⟨name, begins, ends⟩
    · obtain ⟨begins, ends, name⟩ := records.others i (.inr (by omega))
      rw [slot, List.getElem?_eq_none behind]
      refine ⟨name, begins.trans ((pos i).trans ?_), ends.trans ((max i).trans ?_)⟩
      · exact (Nat.sub_self _).symm
      · rfl
  exact ⟨records.size.trans size, records.file.trans buffer, fun i => (each i).1, fun i => (each i).2.1,
    fun i => (each i).2.2⟩

/-- What `loadText` touches and learns. -/
theorem loadTraced_spec (parser : CTextParser) (file : List UInt8) :
    (Fit (parser.loadTraced file).1 ↔ (spaces (tokens alphabet .between file)).length ≤ MAX_NAMESPACE_COUNT ∧
      ∀ space ∈ spaces (tokens alphabet .between file), space.Fits) ∧
    (∀ m_curPos, .cursor m_curPos ∈ (parser.loadTraced file).1 → m_curPos ≤ file.length) ∧
    ((parser.loadTraced file).2.isSome = true ↔ Settled file) ∧
    ∀ loaded, (parser.loadTraced file).2 = some loaded → Knows loaded parser.m_nsStr file := by
  obtain ⟨start, begins⟩ : ∃ start : CTextParser, start = { parser with
      m_fileSize := file.length
      m_fileBuffer := file
      m_curPos := 0
      m_maxNameSpace := file.length
      m_nsPos := fun _ => 0
      m_nsMaxPos := fun _ => file.length } := ⟨_, rfl⟩
  have size : start.m_fileSize = file.length := by rw [begins]
  have buffer : start.m_fileBuffer = file := by rw [begins]
  have limit : start.m_maxNameSpace = start.m_fileSize := by rw [begins]
  have here : start.before file = start := by
    rw [before, size, Nat.sub_self, begins]
  have range : InRange start file (tokens alphabet .between file) :=
    inRange_whole (size.trans (congrArg List.length buffer.symm)) limit (buffer.symm ▸ List.suffix_refl file)
  have loads := nameTraced_loads range (Nat.lt_succ_of_le (length_tokens_le file)) limit
    (fun j (_ : 0 ≤ j) => by rw [begins])
  generalize same : nameTraced (file.length + 1) 0 (start.before file) = run at loads
  have traced : parser.loadTraced file = Traced.after ((List.range MAX_NAMESPACE_COUNT).map .slot)
      (run.bind fun parser => ([], some { parser with m_curPos := 0 })) := by
    rw [loadTraced, ← same, here, begins]
  have first : (parser.loadTraced file).1 = (List.range MAX_NAMESPACE_COUNT).map .slot ++ run.1 := by
    rw [traced]
    obtain ⟨touches, result⟩ := run
    cases result with
    | none => rfl
    | some loaded =>
      exact congrArg (fun last => (List.range MAX_NAMESPACE_COUNT).map .slot ++ last) (List.append_nil touches)
  have second : (parser.loadTraced file).2 = run.2.map fun parser => { parser with m_curPos := 0 } := by
    rw [traced]
    obtain ⟨touches, result⟩ := run
    cases result with
    | none => rfl
    | some loaded => rfl
  refine ⟨?_, fun m_curPos member => ?_, ?_, fun loaded ran => ?_⟩
  · rw [first, fit_append, and_iff_right fit_slots, loads.fits, Nat.zero_add]
    refine and_congr_left fun _ => ⟨fun few => few.elim (fun none => none ▸ Nat.zero_le _) id, .inr⟩
  · rw [first] at member
    rcases List.mem_append.mp member with slots | there
    · obtain ⟨i, -, other⟩ := List.mem_map.mp slots
      cases other
    · exact size ▸ loads.cursor m_curPos there
  · rw [second, Option.isSome_map]
    exact loads.ends
  · rw [second] at ran
    obtain ⟨other, there, rfl⟩ := Option.map_eq_some_iff.mp ran
    have leftover : start.m_nsStr = parser.m_nsStr := by rw [begins]
    have knows := (loads.records other there).knows size buffer (fun _ => by rw [begins]) (fun _ => by rw [begins])
    rw [leftover] at knows
    exact ⟨knows.size, knows.buffer, knows.name, knows.pos, knows.max⟩

/-! ### What a lookup searches -/

/-- The part of the file, as the tokenizer reads it. -/
structure Lies (span : Span) (file : List UInt8) : Prop where
  suffix : span.text <:+ file
  left : span.left ≤ file.length
  settled : Settled file → Settled span.text
  subset : ∀ token ∈ span.range, token ∈ tokens alphabet .between file
  inside : ∀ token ∈ span.range, span.left < (token.1 ++ token.2).length
  outside : ∃ behind, tokens alphabet .between span.text = span.range ++ behind ∧
    ∀ token ∈ behind, (token.1 ++ token.2).length ≤ span.left

theorem token_length {token : Token} {text : List UInt8} (member : token ∈ tokens alphabet .between text) :
    token.2.length < (token.1 ++ token.2).length := by
  have some := List.length_pos_iff.mpr (suffix_of_mem_tokens member).2
  rw [List.length_append]
  omega

theorem lies_whole (file : List UInt8) : Lies (whole file) file where
  suffix := List.suffix_refl file
  left := Nat.zero_le _
  settled := id
  subset := fun _ => id
  inside := fun _ member => Nat.lt_of_le_of_lt (Nat.zero_le _) (token_length member)
  outside := ⟨[], (List.append_nil _).symm, List.forall_mem_nil _⟩

/-- The tokens behind a token are those of what is left behind it. -/
theorem tokens_behind {text : List UInt8} {front behind : List Token} {token : Token}
    (same : tokens alphabet .between text = front ++ token :: behind) :
    tokens alphabet .between token.2 = behind ∧ token.2 <:+ text ∧ (Settled token.2 ↔ Settled text) := by
  induction front generalizing text with
  | nil =>
    obtain ⟨c, more, shape, skips, -, -, -, later, final⟩ := @tokens_cons _ _ _ _ token.2 token.1 behind same
    rw [← List.cons_append] at skips
    exact ⟨later, (List.suffix_append _ _).trans skips.suffix, by rw [Settled, final]; rfl⟩
  | cons first front ih =>
    obtain ⟨c, more, shape, skips, -, -, -, later, final⟩ :=
      @tokens_cons _ _ _ _ first.2 first.1 (front ++ token :: behind) same
    obtain ⟨same', suffix, settled⟩ := ih later
    rw [← List.cons_append] at skips
    refine ⟨same', suffix.trans ((List.suffix_append _ _).trans skips.suffix), settled.trans ?_⟩
    rw [Settled, final]
    rfl

/-- A namespace is a part of the file. -/
theorem lies_spanBehind {file text : List UInt8} {name : Token} {later : List Token} (suffix : text <:+ file)
    (settled : Settled file → Settled text) (same : tokens alphabet .between text = name :: later)
    (subset : ∀ token ∈ name :: later, token ∈ tokens alphabet .between file) :
    Lies (spanBehind name later) file := by
  obtain ⟨rest, shorter, final⟩ := @tokens_behind text [] later name same
  have begins := shorter.trans suffix
  have long := begins.length_le
  have parts := @List.takeWhile_append_dropWhile _ (fun token : Token => goesOn token.1) later
  rw [spanBehind]
  cases shape : fromClose later with
  | nil =>
    refine ⟨begins, Nat.zero_le _, fun whole => final.mpr (settled whole),
      fun token member => subset token (List.mem_cons_of_mem _ member), fun token member => ?_, [],
      rest.trans (List.append_nil _).symm, List.forall_mem_nil _⟩
    exact Nat.lt_of_le_of_lt (Nat.zero_le _) (token_length (rest ▸ member))
  | cons close behind =>
    rw [show later.dropWhile _ = close :: behind from shape] at parts
    generalize later.takeWhile _ = front at parts ⊢
    have order := pairwise_tokens name.2
    have member : close ∈ tokens alphabet .between name.2 := by
      rw [rest, ← parts]
      exact List.mem_append_right _ List.mem_cons_self
    have closeLong := token_length member
    have closeShort := (suffix_of_mem_tokens member).1.length_le
    rw [rest, ← parts, List.pairwise_append, List.pairwise_cons] at order
    obtain ⟨-, ⟨past, -⟩, ahead⟩ := order
    refine ⟨begins, ?_, fun whole => final.mpr (settled whole), fun token inside => ?_, fun token inside => ?_, behind,
      ?_, past⟩
    · change close.2.length ≤ file.length
      omega
    · refine subset token (List.mem_cons_of_mem _ ?_)
      rw [← parts]
      exact (List.append_subset.mpr ⟨List.subset_append_left _ _, by simp⟩) inside
    · rcases List.mem_append.mp inside with earlier | last
      · have there : token ∈ tokens alphabet .between name.2 := by
          rw [rest, ← parts]
          exact List.mem_append_left _ earlier
        have above := token_length there
        have below := ahead token earlier close List.mem_cons_self
        change close.2.length < _
        omega
      · obtain rfl := List.mem_singleton.mp last
        exact closeLong
    · rw [rest, ← parts, List.append_assoc]
      rfl

theorem lies_spaces {file text : List UInt8} {range : List Token} (suffix : text <:+ file)
    (settled : Settled file → Settled text) (same : tokens alphabet .between text = range)
    (subset : ∀ token ∈ range, token ∈ tokens alphabet .between file) :
    ∀ space ∈ spaces range, Lies space.span file := by
  induction range using spaces.induct generalizing text with
  | case1 =>
    rw [spaces]
    exact List.forall_mem_nil _
  | case2 name later colon ih =>
    rw [spaces, if_pos colon]
    refine List.forall_mem_cons.mpr ⟨lies_spanBehind suffix settled same subset, ?_⟩
    cases shape : fromClose later with
    | nil =>
      rw [List.tail_nil, spaces]
      exact List.forall_mem_nil _
    | cons close behind =>
      have parts := @List.takeWhile_append_dropWhile _ (fun token : Token => goesOn token.1) later
      rw [show later.dropWhile _ = close :: behind from shape] at parts
      rw [shape, List.tail_cons] at ih
      rw [← parts, ← List.cons_append] at same subset
      obtain ⟨rest, shorter, final⟩ := tokens_behind same
      exact ih (shorter.trans suffix) (fun whole => final.mpr (settled whole)) rest fun token member =>
        subset token (List.mem_append_right _ (List.mem_cons_of_mem _ member))
  | case3 name later plain ih =>
    rw [spaces, if_neg plain]
    obtain ⟨rest, shorter, final⟩ := @tokens_behind text [] later name same
    exact ih (shorter.trans suffix) (fun whole => final.mpr (settled whole)) rest fun token member =>
      subset token (List.mem_cons_of_mem _ member)

/-- What a lookup searches: the whole file, or what the last slot of the name stands for. -/
def searched (leftover : ℕ → List UInt8) (file NameSpace : List UInt8) : Option Span :=
  if NameSpace = [] then some (whole file)
  else ((List.range MAX_NAMESPACE_COUNT).reverse.find? fun i => decide (NameSpace = (slot leftover file i).1)).map
    fun i => (slot leftover file i).2

variable {leftover : ℕ → List UInt8} {file NameSpace : List UInt8} {span : Span}

theorem lies_slot (i : ℕ) : Lies (slot leftover file i).2 file := by
  rw [slot]
  cases found : (spaces (tokens alphabet .between file))[i]? with
  | none => exact lies_whole file
  | some space => exact lies_spaces (List.suffix_refl file) id rfl (fun _ => id) space (List.mem_of_getElem? found)

theorem lies_searched (found : searched leftover file NameSpace = some span) : Lies span file := by
  rw [searched] at found
  split_ifs at found
  · cases found
    exact lies_whole file
  · obtain ⟨i, -, rfl⟩ := Option.map_eq_some_iff.mp found
    exact lies_slot i

/-- The last slot of the name is the one that is taken. -/
theorem findSlot_last (NameSpace : List UInt8) (parser : CTextParser) (count : ℕ) :
    (List.range count).foldl (findSlot NameSpace) (false, parser) =
      (((List.range count).reverse.find? fun i => decide (NameSpace = parser.m_nsStr i)).elim (false, parser) fun i =>
        (true, parser.atSlot i)) := by
  induction count with
  | zero => rfl
  | succ count ih =>
    rw [List.range_succ, List.foldl_append, ih, List.reverse_append, List.reverse_singleton, List.singleton_append,
      List.find?_cons, List.foldl_cons, List.foldl_nil, findSlot]
    cases (List.range count).reverse.find? fun i => decide (NameSpace = parser.m_nsStr i) with
    | none =>
      by_cases here : NameSpace = parser.m_nsStr count
      · rw [decide_eq_true here]
        exact if_pos here
      · rw [decide_eq_false here]
        exact if_neg here
    | some i =>
      by_cases here : NameSpace = parser.m_nsStr count
      · rw [decide_eq_true here]
        exact if_pos here
      · rw [decide_eq_false here]
        exact if_neg here

/-- The parser when it is set to search a part of the file. -/
def searching (parser : CTextParser) (file : List UInt8) (span : Span) : CTextParser :=
  { parser with m_maxNameSpace := file.length - span.left }

theorem Knows.findNameSpace (knows : Knows parser leftover file) (NameSpace : List UInt8) :
    parser.findNameSpace NameSpace = (searched leftover file NameSpace).elim (false, parser) fun span =>
      (true, (parser.searching file span).before span.text) := by
  rw [CTextParser.findNameSpace, searched]
  split_ifs with empty
  · simp only [Option.elim_some, searching, before, whole, Nat.sub_self, Nat.sub_zero, knows.size]
  · simp only [findSlot_last, knows.name]
    cases (List.range MAX_NAMESPACE_COUNT).reverse.find? fun i => decide (NameSpace = (slot leftover file i).1) with
    | none => rfl
    | some i => simp only [Option.elim_some, Option.map_some, atSlot, searching, before, knows.pos, knows.max, knows.size]

/-- The tokens that begin in the part that is searched. -/
theorem Knows.inRange (knows : Knows parser leftover file) (lies : Lies span file) :
    InRange (parser.searching file span) span.text span.range := by
  obtain ⟨behind, same, past⟩ := lies.outside
  have size : (parser.searching file span).m_fileSize = file.length := knows.size
  have max : (parser.searching file span).m_maxNameSpace = file.length - span.left := rfl
  have left := lies.left
  refine ⟨?_, ?_, knows.buffer.symm ▸ lies.suffix, fun token member => ?_, behind, same, fun token member => ?_⟩
  · rw [size, ← knows.buffer]
    rfl
  · rw [size, max]
    exact Nat.sub_le _ _
  · have long := lies.inside token member
    rw [size, max]
    omega
  · have short := past token member
    rw [size, max]
    omega

end LockFreeCore.CTextParser
