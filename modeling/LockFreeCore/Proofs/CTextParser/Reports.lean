import LockFreeCore.Proofs.CTextParser.Lookup
import LockFreeCore.Proofs.CTextParser.Spaces

/-! # What the lookups report

A lookup reports success without a value when the key is nowhere in the range, and `getValueString` also where the
range or the closing quote ends behind the equals sign. Everywhere else it reports what the range holds.
-/

namespace LockFreeCore.CTextParser

open Words

variable {V : Type*} {parser : CTextParser} {leftover : ℕ → List UInt8} {file szName NameSpace : List UInt8}
  {span : Span} {value : List UInt8 → CTextParser → TracedResult V}

/-- The slots that a lookup compares. -/
def slots : List Touch := (List.range MAX_NAMESPACE_COUNT).map .slot

/-- How a lookup in a part of the file goes. -/
inductive Goes (parser : CTextParser) (file : List UInt8) (span : Span) (szName : List UInt8)
    (value : List UInt8 → CTextParser → TracedResult V) : TracedResult V → Prop where
  | absent (touches : List Touch) (next : CTextParser) (empty : fromKey szName span.range = [])
      (copies : Copies (parser.searching file span) (upToSign szName span.range) touches) :
      Goes parser file span szName value (slots ++ touches, some ((true, none), next))
  | broken (touches : List Touch) (next : CTextParser) (present : fromKey szName span.range ≠ [])
      (bare : entry szName span.range = none)
      (copies : Copies (parser.searching file span) (upToSign szName span.range) touches) :
      Goes parser file span szName value (slots ++ touches, some ((false, none), next))
  | found (touches : List Touch) (rest equals : List UInt8) (later : List Token)
      (present : fromKey szName span.range ≠ []) (found : entry szName span.range = some (equals, later))
      (inRange : InRange (parser.searching file span) rest later) (settled : Settled rest)
      (copies : Copies (parser.searching file span) (upToSign szName span.range) touches)
      (sign : ∃ token ∈ upToSign szName span.range, token.1 = equals) :
      Goes parser file span szName value
        ((value equals ((parser.searching file span).before rest)).after (slots ++ touches))

/-- A lookup in a loaded file. -/
theorem Knows.lookupTraced (knows : Knows parser leftover file) (settled : Settled file) (szName NameSpace : List UInt8)
    (value : List UInt8 → CTextParser → TracedResult V) :
    (searched leftover file NameSpace = none ∧
      parser.lookupTraced value szName NameSpace = (slots, some ((false, none), parser))) ∨
    ∃ span, searched leftover file NameSpace = some span ∧ Lies span file ∧
      Goes parser file span szName value (parser.lookupTraced value szName NameSpace) := by
  rw [CTextParser.lookupTraced, knows.findNameSpace]
  cases found : searched leftover file NameSpace with
  | none => exact .inl ⟨rfl, Prod.ext (List.append_nil _) rfl⟩
  | some span =>
    refine .inr ⟨span, rfl, lies_searched found, ?_⟩
    have lies := lies_searched found
    have inRange := knows.inRange lies
    have settledSpan := lies.settled settled
    have enough : span.range.length < file.length + 1 := by
      obtain ⟨behind, same, -⟩ := lies.outside
      have fewer := length_tokens_le span.text
      have long := lies.suffix.length_le
      rw [same, List.length_append] at fewer
      omega
    have size : ((parser.searching file span).before span.text).m_fileSize = file.length := knows.size
    simp only [Option.elim_some, if_true, size]
    cases shape : fromKey szName span.range with
    | nil =>
      obtain ⟨touches, stop, ran, copies⟩ := valueTraced_absent value inRange settledSpan enough shape
      rw [ran]
      exact .absent touches _ shape copies
    | cons key more =>
      have present : fromKey szName span.range ≠ [] := by simp [shape]
      cases sign : entry szName span.range with
      | none =>
        obtain ⟨touches, next, ran, copies⟩ := valueTraced_broken value inRange settledSpan enough present sign
        rw [ran]
        exact .broken touches next present sign copies
      | some pair =>
        obtain ⟨equals, later⟩ := pair
        obtain ⟨touches, rest, ran, inner, ends, copies, word⟩ :=
          valueTraced_entry value inRange settledSpan enough sign
        rw [ran, Traced.after_after]
        exact .found touches rest equals later present sign inner ends copies word

/-! ### The value that a range holds -/

/-- The key is in the range. -/
def HasKey (szName : List UInt8) (span : Span) : Prop := ∃ token ∈ span.range, szName = cString token.1

/-- The word behind the key and an equals sign; a closing brace is no value. -/
def wordIn (convert : List UInt8 → V) (szName : List UInt8) (span : Span) : Option V :=
  (entry szName span.range).bind fun found => found.2.head?.bind fun token =>
    if goesOn token.1 then some (convert (cString token.1)) else none

/-- What is left of the file from the closing quote on. -/
def Token.closing (token : Token) : List UInt8 := token.quoted.drop token.string.length

theorem Token.closes (token : Token) {left : ℕ} (ends : left < token.closing.length) : '"'.toUInt8 ∈ token.quoted := by
  by_contra unclosed
  have all : token.string = token.quoted :=
    List.takeWhile_eq_self_iff.mpr fun c member => decide_eq_true fun same => unclosed (same ▸ member)
  rw [Token.closing, all, List.drop_length] at ends
  exact Nat.not_lt_zero _ ends

/-- The string behind the key and an equals sign, if the closing quote is in the range. -/
def stringIn (szName : List UInt8) (span : Span) : Option (List UInt8) :=
  (entry szName span.range).bind fun found => found.2.head?.bind fun token =>
    if token.Quotes ∧ span.left < token.closing.length then some (cString token.string) else none

/-- No closing brace stands behind the key and an equals sign. -/
def WordEnds (szName : List UInt8) (span : Span) : Prop := ∀ equals token later,
  entry szName span.range = some (equals, token :: later) → goesOn token.1 = true

/-- Behind the key and an equals sign something begins in the range, and a string there ends in it. -/
def StringEnds (szName : List UInt8) (span : Span) : Prop := ∀ equals later,
  entry szName span.range = some (equals, later) →
    ∃ token more, later = token :: more ∧ (token.Quotes → span.left < token.closing.length)

/-- The words that a lookup of a number copies, the value among them, fit in a `chWord`. -/
def WordFits (szName : List UInt8) (span : Span) : Prop :=
  (∀ token ∈ upToSign szName span.range, token.1.length ≤ 255) ∧
    ∀ equals token later, entry szName span.range = some (equals, token :: later) → token.1.length ≤ 255

/-- The words that a lookup of a string copies fit in a `chWord`, and so does the string. -/
def StringFits (szName : List UInt8) (span : Span) : Prop :=
  (∀ token ∈ upToSign szName span.range, token.1.length ≤ 255) ∧
    ∀ equals token later, entry szName span.range = some (equals, token :: later) → token.Quotes →
      '"'.toUInt8 ∈ token.quoted → token.string.length ≤ 255

/-- What a lookup should report about a value that is there or not. -/
def reported (value : Option V) : Bool × Option V := (value.isSome, value)

theorem hasKey_iff : HasKey szName span ↔ fromKey szName span.range ≠ [] := by
  rw [fromKey, ne_eq, List.dropWhile_eq_nil_iff, HasKey]
  simp

theorem reported_ne (value : Option V) : (true, none) ≠ reported value := by
  cases value <;> simp [reported]

/-- The run reports this value. -/
def Reports (run : TracedResult V) (value : Option V) : Prop := ∃ next, run.2 = some (reported value, next)

theorem reports_iff {touches : List Touch} {out : Bool × Option V} {next : CTextParser} {held : Option V} :
    Reports (touches, some (out, next)) held ↔ out = reported held := by
  simp [Reports]

theorem reports_after {touches : List Touch} {run : TracedResult V} {held : Option V} :
    Reports (run.after touches) held ↔ Reports run held := Iff.rfl

/-- `getValueInt` or `getValueDouble` in a part of the file. -/
theorem Goes.word {convert : List UInt8 → V} {run : TracedResult V}
    (goes : Goes parser file span szName (wordTraced convert) run) :
    Reports run (wordIn convert szName span) ↔ HasKey szName span ∧ WordEnds szName span := by
  rw [hasKey_iff]
  cases goes with
  | absent touches _ empty _ =>
    exact iff_of_false (fun same => reported_ne _ (reports_iff.mp same)) fun both => both.1 empty
  | broken touches _ present bare _ =>
    refine iff_of_true (reports_iff.mpr ?_) ⟨present, forall_no_entry (by rw [bare]; rfl)⟩
    rw [wordIn, bare]
    rfl
  | found touches rest equals later present found inRange settled _ _ =>
    rw [reports_after]
    cases later with
    | nil =>
      obtain ⟨stop, -, same⟩ := wordTraced_last convert equals inRange settled
      rw [same]
      refine iff_of_true (reports_iff.mpr ?_) ⟨present, forall_no_entry (by rw [found]; rfl)⟩
      rw [wordIn, found]
      rfl
    | cons token later =>
      rw [wordTraced_token convert equals inRange, reports_iff, and_iff_right present, WordEnds, forall_entry found,
        wordIn, found, Option.bind_some, List.head?_cons, Option.bind_some]
      split_ifs with goes
      · exact iff_of_true rfl goes
      · exact iff_of_false (by simp [reported]) goes

/-- `getValueString` in a part of the file. -/
theorem Goes.string {run : TracedResult (List UInt8)} (goes : Goes parser file span szName (stringTraced id) run) :
    Reports run (stringIn szName span) ↔ HasKey szName span ∧ StringEnds szName span := by
  rw [hasKey_iff]
  cases goes with
  | absent touches _ empty _ =>
    exact iff_of_false (fun same => reported_ne _ (reports_iff.mp same)) fun both => both.1 empty
  | broken touches _ present bare _ =>
    refine iff_of_true (reports_iff.mpr ?_) ⟨present, fun equals later found => ?_⟩
    · rw [stringIn, bare]
      rfl
    · rw [bare] at found
      cases found
  | found touches rest equals later present found inRange settled _ _ =>
    rw [reports_after, and_iff_right present, stringIn, StringEnds, found, Option.bind_some]
    cases later with
    | nil =>
      obtain ⟨stop, -, same⟩ := stringTraced_last id equals inRange settled
      rw [same, reports_iff]
      refine iff_of_false (by simp [reported]) fun each => ?_
      obtain ⟨token, more, none, -⟩ := each equals [] rfl
      cases none
    | cons token later =>
      have each : (∀ equals' later', some (equals, token :: later) = some (equals', later') →
          ∃ token more, later' = token :: more ∧ (token.Quotes → span.left < token.closing.length)) ↔
          (token.Quotes → span.left < token.closing.length) := by
        refine ⟨fun each => ?_, fun ends _ _ same => ?_⟩
        · obtain ⟨_, _, same, ends⟩ := each equals (token :: later) rfl
          cases same
          exact ends
        · cases same
          exact ⟨token, later, rfl, ends⟩
      rw [each, List.head?_cons, Option.bind_some, stringTraced_token id equals inRange]
      by_cases quotes : token.Quotes
      · by_cases ends : span.left < token.closing.length
        · rw [if_pos quotes, if_pos (token.closes ends), if_pos ⟨quotes, ends⟩]
          exact iff_of_true (reports_iff.mpr rfl) fun _ => ends
        · have unended : ¬(token.Quotes ∧ span.left < token.closing.length) := fun both => ends both.2
          rw [if_pos quotes, if_neg unended]
          refine iff_of_false ?_ fun each => ends (each quotes)
          split_ifs
          · simp [reports_iff, reported]
          · simp [Reports]
      · have bare : ¬(token.Quotes ∧ span.left < token.closing.length) := fun both => quotes both.1
        rw [if_neg quotes, if_neg bare]
        exact iff_of_true (reports_iff.mpr rfl) fun quoted => absurd quoted quotes

theorem fit_slots_append {more : List Touch} : Fit (slots ++ more) ↔ Fit more := by
  rw [fit_append]
  exact and_iff_right fit_slots

theorem fit_copied {stop length : ℕ} : Fit [.cursor stop, .copy length] ↔ length ≤ 255 :=
  (@fit_append [.cursor stop] [.copy length]).trans ((and_iff_right (fit_cursor stop)).trans fit_singleton)

/-- A lookup of a number copies the words up to the value. -/
theorem Goes.word_fit {convert : List UInt8 → V} {run : TracedResult V}
    (goes : Goes parser file span szName (wordTraced convert) run) : Fit run.1 ↔ WordFits szName span := by
  cases goes with
  | absent touches next empty copies =>
    rw [WordFits, fit_slots_append, copies.fit_iff, and_iff_left (forall_no_entry (by rw [entry_absent empty]; rfl))]
  | broken touches next present bare copies =>
    rw [WordFits, fit_slots_append, copies.fit_iff, and_iff_left (forall_no_entry (by rw [bare]; rfl))]
  | found touches rest equals later present found inRange settled copies _ =>
    rw [Traced.after, fit_append, fit_slots_append, copies.fit_iff, WordFits]
    refine and_congr_right fun _ => ?_
    cases later with
    | nil =>
      obtain ⟨stop, -, same⟩ := wordTraced_last convert equals inRange settled
      rw [same]
      exact iff_of_true (fit_cursor stop) (forall_no_entry (by rw [found]; rfl))
    | cons token later =>
      rw [forall_entry (P := fun token => token.1.length ≤ 255) found, wordTraced_token convert equals inRange]
      exact fit_copied

/-- A lookup of a string copies them and the string. -/
theorem Goes.string_fit {convert : List UInt8 → V} {run : TracedResult V}
    (goes : Goes parser file span szName (stringTraced convert) run) : Fit run.1 ↔ StringFits szName span := by
  cases goes with
  | absent touches next empty copies =>
    rw [StringFits, fit_slots_append, copies.fit_iff, and_iff_left (forall_no_entry (by rw [entry_absent empty]; rfl))]
  | broken touches next present bare copies =>
    rw [StringFits, fit_slots_append, copies.fit_iff, and_iff_left (forall_no_entry (by rw [bare]; rfl))]
  | found touches rest equals later present found inRange settled copies word =>
    rw [Traced.after, fit_append, fit_slots_append, copies.fit_iff, StringFits]
    refine and_congr_right fun short => ?_
    cases later with
    | nil =>
      -- the equals sign is copied once more
      obtain ⟨stop, -, same⟩ := stringTraced_last convert equals inRange settled
      obtain ⟨sign, member, rfl⟩ := word
      rw [same]
      exact iff_of_true (fit_copied.mpr (short sign member)) (forall_no_entry (by rw [found]; rfl))
    | cons token later =>
      rw [forall_entry (P := fun token => token.Quotes → '"'.toUInt8 ∈ token.quoted → token.string.length ≤ 255) found,
        stringTraced_token convert equals inRange]
      split_ifs with quotes closes
      · rw [imp_iff_right quotes, imp_iff_right closes]
        exact fit_copied
      · exact iff_of_true (List.forall_mem_nil _) fun _ closed => absurd closed closes
      · exact iff_of_true (fit_cursor _) fun quoted => absurd quoted quotes

/-- A lookup that agrees with its run reports what the searched range holds exactly when it goes well in every part
of the file and what it copies there fits. -/
theorem Knows.reports (knows : Knows parser leftover file) (settled : Settled file) {held : Span → Option V}
    {Good Fits : Span → Prop} {call : Result V}
    (agrees : Agrees call (parser.lookupTraced value szName NameSpace))
    (goes : ∀ span run, Goes parser file span szName value run → (Reports run (held span) ↔ Good span) ∧
      (Fit run.1 ↔ Fits span)) :
    (∃ next, call = some (reported ((searched leftover file NameSpace).bind held), next)) ↔
      ∀ span, searched leftover file NameSpace = some span → Good span ∧ Fits span := by
  simp only [agrees _, exists_and_left]
  rcases knows.lookupTraced settled szName NameSpace value with ⟨none, same⟩ | ⟨span, found, -, lookup⟩
  · rw [same, none]
    exact iff_of_true ⟨fit_slots, parser, rfl⟩ fun span found => by cases found
  · obtain ⟨right, fits⟩ := goes span _ lookup
    rw [found, Option.bind_some, ← Reports, right, fits]
    simp [and_comm]

/-- A lookup moves the cursor and the limit only. -/
theorem Knows.moved (knows : Knows parser leftover file) (m_curPos m_maxNameSpace : ℕ) :
    Knows { parser with m_curPos, m_maxNameSpace } leftover file :=
  ⟨knows.size, knows.buffer, knows.name, knows.pos, knows.max⟩

/-- What the parser knows after `loadText` and any lookups. -/
theorem knows_loaded {loaded : CTextParser} (load : parser.loadText (some file) = some (true, loaded))
    (m_curPos m_maxNameSpace : ℕ) :
    Settled file ∧ Knows { loaded with m_curPos, m_maxNameSpace } parser.m_nsStr file := by
  obtain ⟨-, -, ends, knows⟩ := loadTraced_spec parser file
  have ran := ((loadText_agrees file parser _).mp load).2.2
  exact ⟨ends.mp (ran ▸ rfl), (knows loaded ran).moved m_curPos m_maxNameSpace⟩

/-- A lookup returns and reports what the searched range holds, exactly when the key is there, what stands behind it
and an equals sign ends in the range, and the words that are copied on the way fit. -/
theorem lookups_report_iff {Double : Type*} (atof : List UInt8 → Double) (parser loaded : CTextParser)
    (file szName NameSpace : List UInt8) (m_curPos m_maxNameSpace : ℕ)
    (load : parser.loadText (some file) = some (true, loaded)) :
    ((∃ next, getValueInt { loaded with m_curPos, m_maxNameSpace } szName NameSpace =
        some (reported ((searched parser.m_nsStr file NameSpace).bind (wordIn atoi szName)), next)) ↔
      ∀ span, searched parser.m_nsStr file NameSpace = some span →
        (HasKey szName span ∧ WordEnds szName span) ∧ WordFits szName span) ∧
    ((∃ next, getValueDouble { loaded with m_curPos, m_maxNameSpace } atof szName NameSpace =
        some (reported ((searched parser.m_nsStr file NameSpace).bind (wordIn atof szName)), next)) ↔
      ∀ span, searched parser.m_nsStr file NameSpace = some span →
        (HasKey szName span ∧ WordEnds szName span) ∧ WordFits szName span) ∧
    ((∃ next, getValueString { loaded with m_curPos, m_maxNameSpace } szName NameSpace =
        some (reported ((searched parser.m_nsStr file NameSpace).bind (stringIn szName)), next)) ↔
      ∀ span, searched parser.m_nsStr file NameSpace = some span →
        (HasKey szName span ∧ StringEnds szName span) ∧ StringFits szName span) := by
  obtain ⟨settled, knows⟩ := knows_loaded load m_curPos m_maxNameSpace
  refine ⟨?_, ?_, ?_⟩
  · exact knows.reports settled (getValueInt_agrees szName NameSpace _) fun _ _ goes => ⟨goes.word, goes.word_fit⟩
  · exact knows.reports settled (getValueDouble_agrees atof szName NameSpace _) fun _ _ goes =>
      ⟨goes.word, goes.word_fit⟩
  · exact knows.reports settled (getValueString_agrees szName NameSpace _)
      fun _ _ goes => ⟨goes.string, goes.string_fit⟩

/-- A namespace with one value in it. -/
def oneValue : List UInt8 := ascii ":A \x7b K = 5 \x7d "

theorem lookups_report_oneValue : ∃ loaded, fresh.loadText (some oneValue) = some (true, loaded) ∧
    (∃ next, loaded.getValueInt (ascii "K") [] = some ((true, some 5), next)) ∧
    (∃ next, loaded.getValueDouble (fun text => (atoi text : ℚ)) (ascii "K") [] = some ((true, some 5), next)) ∧
    ∃ next, loaded.getValueString (ascii "K") [] = some ((false, none), next) := by
  have loads : (fresh.loadText (some oneValue)).map Prod.fst = some true := by decide
  obtain ⟨⟨_, loaded⟩, load, rfl⟩ := Option.map_eq_some_iff.mp loads
  have behind : ∃ later, entry (ascii "K") (whole oneValue).range =
      some (ascii "=", (ascii "5", ascii " \x7d ") :: later) := ⟨_, rfl⟩
  have has : HasKey (ascii "K") (whole oneValue) := hasKey_iff.mpr (by decide)
  have short : ∀ token ∈ upToSign (ascii "K") (whole oneValue).range, token.1.length ≤ 255 := by decide
  obtain ⟨later, found⟩ := behind
  have ends : WordEnds (ascii "K") (whole oneValue) := fun _ _ _ same => by
    rw [found] at same
    cases same
    rfl
  have fits : WordFits (ascii "K") (whole oneValue) := ⟨short, fun _ _ _ same => by
    rw [found] at same
    cases same
    decide⟩
  have bare : StringEnds (ascii "K") (whole oneValue) := fun _ _ same => by
    rw [found] at same
    cases same
    exact ⟨_, later, rfl, fun quotes => absurd quotes (by decide)⟩
  have none : StringFits (ascii "K") (whole oneValue) := ⟨short, fun _ _ _ same quotes => by
    rw [found] at same
    cases same
    exact absurd quotes (by decide)⟩
  obtain ⟨int, double, string⟩ := lookups_report_iff (fun text => (atoi text : ℚ)) fresh loaded oneValue (ascii "K") []
    loaded.m_curPos loaded.m_maxNameSpace load
  refine ⟨loaded, load, int.mpr ?_, double.mpr ?_, string.mpr ?_⟩
  · exact fun _ same => Option.some_inj.mp same ▸ ⟨⟨has, ends⟩, fits⟩
  · exact fun _ same => Option.some_inj.mp same ▸ ⟨⟨has, ends⟩, fits⟩
  · exact fun _ same => Option.some_inj.mp same ▸ ⟨⟨has, bare⟩, none⟩

/-- A key that is not there is reported as found, and so is a string that is missing. -/
theorem silent_lookups :
    ((fresh.loadText (some oneValue)).bind fun loaded => (loaded.2.getValueInt (ascii "P") (ascii "A")).map Prod.fst) =
      some (true, none) ∧
    ((fresh.loadText (some (ascii "K = "))).bind fun loaded => (loaded.2.getValueString (ascii "K") []).map Prod.fst) =
      some (true, some (ascii "=")) ∧
    ¬∀ (parser loaded : CTextParser) (file szName NameSpace : List UInt8),
      parser.loadText (some file) = some (true, loaded) →
        ∀ out next, loaded.getValueInt szName NameSpace = some (out, next) →
          out = reported ((searched parser.m_nsStr file NameSpace).bind (wordIn atoi szName)) := by
  have silent : ((fresh.loadText (some oneValue)).bind fun loaded =>
      (loaded.2.getValueInt (ascii "P") (ascii "A")).map Prod.fst) = some (true, none) := by
    decide
  refine ⟨silent, by decide, fun always => ?_⟩
  obtain ⟨⟨_, loaded⟩, load, ran⟩ := Option.bind_eq_some_iff.mp silent
  obtain ⟨⟨out, next⟩, ran, rfl⟩ := Option.map_eq_some_iff.mp ran
  have found := ((loadText_agrees oneValue fresh _).mp load).1
  cases found
  exact reported_ne _ (always fresh loaded oneValue _ _ load _ next ran)

end LockFreeCore.CTextParser
