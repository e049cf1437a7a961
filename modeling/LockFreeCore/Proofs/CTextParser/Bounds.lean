import LockFreeCore.Proofs.CTextParser.Reports

/-! # Where the parser stays

The parser leaves the file exactly when the file ends inside a word or a comment, or a string that is looked up is
never closed. It leaves its arrays exactly when there are too many namespaces, or a word or such a string is too long.
-/

namespace LockFreeCore.CTextParser

open Words

variable {β V : Type*} {parser : CTextParser} {leftover : ℕ → List UInt8} {file szName NameSpace : List UInt8}
  {span : Span} {value : List UInt8 → CTextParser → TracedResult V} {touches : List Touch}

/-- What a run touches, and whether it ends without a read outside the file, has this property. -/
def Traced.Meets (holds : List Touch → Bool → Prop) (run : Traced β) : Prop := holds run.1 run.2.isSome

/-- `loadText` of the file has the property, and so has every lookup after it, in any order. -/
structure Throughout {Double Wide : Type*} (holds : List Touch → Bool → Prop) (parser : CTextParser)
    (atof : List UInt8 → Double) (mbstowcs : List UInt8 → Wide) (file : List UInt8) : Prop where
  load : (parser.loadTraced file).Meets holds
  lookups : ∀ loaded, (parser.loadTraced file).2 = some loaded → ∀ m_curPos m_maxNameSpace szName NameSpace,
    (lookupTraced { loaded with m_curPos, m_maxNameSpace } (wordTraced atoi) szName NameSpace).Meets holds ∧
    (lookupTraced { loaded with m_curPos, m_maxNameSpace } (wordTraced atof) szName NameSpace).Meets holds ∧
    (lookupTraced { loaded with m_curPos, m_maxNameSpace } (stringTraced id) szName NameSpace).Meets holds ∧
    (lookupTraced { loaded with m_curPos, m_maxNameSpace } (stringTraced mbstowcs) szName NameSpace).Meets holds

/-- The run ends, and the cursor stays in a file of this size. -/
def Inside (size : ℕ) (touches : List Touch) (ended : Bool) : Prop :=
  ended = true ∧ ∀ m_curPos, .cursor m_curPos ∈ touches → m_curPos ≤ size

/-- What a lookup of a string finds behind the key and an equals sign. -/
def Looked (leftover : ℕ → List UInt8) (file : List UInt8) (token : Token) : Prop :=
  ∃ NameSpace span szName equals later, searched leftover file NameSpace = some span ∧
    entry szName span.range = some (equals, token :: later) ∧ token.Quotes

/-! ### Inside the file -/

theorem Copies.inside {range : List Token} (copies : Copies parser range touches)
    (size : parser.m_fileSize = file.length) : Inside file.length touches true := by
  refine ⟨rfl, fun m_curPos member => ?_⟩
  rcases copies.seen _ member with ⟨pos, inFile, same⟩ | ⟨token, -, same⟩
  · cases same
    exact size ▸ inFile
  · cases same

theorem inside_append {size : ℕ} {more : List Touch} {ended : Bool} (first : Inside size touches true) :
    Inside size (touches ++ more) ended ↔ Inside size more ended := by
  simp only [Inside, List.mem_append]
  exact and_congr_right fun _ => ⟨fun both m_curPos later => both m_curPos (.inr later),
    fun later m_curPos member => member.elim (first.2 m_curPos) (later m_curPos)⟩

theorem inside_slots (size : ℕ) : Inside size slots true := by
  refine ⟨rfl, fun m_curPos member => ?_⟩
  obtain ⟨i, -, other⟩ := List.mem_map.mp member
  cases other

theorem inside_cursor {size pos : ℕ} (inFile : pos ≤ size) : Inside size [.cursor pos] true := by
  simpa [Inside] using inFile

theorem inside_copied {size pos length : ℕ} (inFile : pos ≤ size) : Inside size [.cursor pos, .copy length] true := by
  simpa [Inside] using inFile

/-- A lookup has a property when it has it in what it searches. -/
theorem Knows.lookup_meets {holds : List Touch → Bool → Prop} (knows : Knows parser leftover file)
    (settled : Settled file) (none : holds slots true)
    (each : ∀ span run, searched leftover file NameSpace = some span → Lies span file →
      Goes parser file span szName value run → run.Meets holds) :
    (parser.lookupTraced value szName NameSpace).Meets holds := by
  rcases knows.lookupTraced settled szName NameSpace value with ⟨-, same⟩ | ⟨span, found, lies, goes⟩
  · rw [same]
    exact none
  · exact each span _ found lies goes

/-- A lookup of a number stays in the file. -/
theorem Goes.word_inside {convert : List UInt8 → V} {run : TracedResult V} (size : parser.m_fileSize = file.length)
    (goes : Goes parser file span szName (wordTraced convert) run) : run.Meets (Inside file.length) := by
  cases goes with
  | absent touches next empty copies => exact (inside_append (inside_slots _)).mpr (copies.inside size)
  | broken touches next present bare copies => exact (inside_append (inside_slots _)).mpr (copies.inside size)
  | found touches rest equals later present found inRange settled copies _ =>
    rw [Traced.Meets, Traced.after, List.append_assoc, inside_append (inside_slots _),
      inside_append (copies.inside size)]
    cases later with
    | nil =>
      obtain ⟨stop, inFile, same⟩ := wordTraced_last convert equals inRange settled
      rw [same]
      exact inside_cursor (size ▸ inFile)
    | cons token later =>
      rw [wordTraced_token convert equals inRange]
      exact inside_copied (size ▸ Nat.sub_le _ _)

/-- A lookup of a string stays in the file exactly when a quote that it looks at is closed. -/
theorem Goes.string_inside {convert : List UInt8 → V} {run : TracedResult V} (size : parser.m_fileSize = file.length)
    (goes : Goes parser file span szName (stringTraced convert) run) : run.Meets (Inside file.length) ↔
      ∀ equals token later, entry szName span.range = some (equals, token :: later) → token.Quotes →
        '"'.toUInt8 ∈ token.quoted := by
  cases goes with
  | absent touches next empty copies =>
    refine iff_of_true ((inside_append (inside_slots _)).mpr (copies.inside size)) (forall_no_entry ?_)
    rw [entry_absent empty]
    rfl
  | broken touches next present bare copies =>
    refine iff_of_true ((inside_append (inside_slots _)).mpr (copies.inside size)) (forall_no_entry ?_)
    rw [bare]
    rfl
  | found touches rest equals later present found inRange settled copies _ =>
    rw [Traced.Meets, Traced.after, List.append_assoc, inside_append (inside_slots _),
      inside_append (copies.inside size)]
    cases later with
    | nil =>
      obtain ⟨stop, inFile, same⟩ := stringTraced_last convert equals inRange settled
      rw [same]
      refine iff_of_true (inside_copied (size ▸ inFile)) (forall_no_entry ?_)
      rw [found]
      rfl
    | cons token later =>
      rw [forall_entry (P := fun token => token.Quotes → '"'.toUInt8 ∈ token.quoted) found,
        stringTraced_token convert equals inRange]
      split_ifs with quotes closes
      · exact iff_of_true (inside_copied (size ▸ inRange.string_le)) fun _ => closes
      · exact iff_of_false (fun inside => Bool.false_ne_true inside.1) fun each => closes (each quotes)
      · exact iff_of_true (inside_cursor (size ▸ Nat.sub_le _ _)) fun quoted => absurd quoted quotes

/-- The parser stays in the file exactly when the file ends between words and every quote that is looked at is
closed. -/
theorem stays_inside_iff {Double Wide : Type*} (parser : CTextParser) (atof : List UInt8 → Double)
    (mbstowcs : List UInt8 → Wide) (file : List UInt8) :
    Throughout (Inside file.length) parser atof mbstowcs file ↔
      Settled file ∧ ∀ token, Looked parser.m_nsStr file token → '"'.toUInt8 ∈ token.quoted := by
  obtain ⟨-, cursor, ends, knows⟩ := loadTraced_spec parser file
  constructor
  · intro stays
    have settled := ends.mp stays.load.1
    obtain ⟨loaded, ran⟩ := Option.isSome_iff_exists.mp stays.load.1
    refine ⟨settled, fun token looked => ?_⟩
    obtain ⟨NameSpace, span, szName, equals, later, found, sign, quotes⟩ := looked
    have known := (knows loaded ran).moved 0 0
    have inside := (stays.lookups loaded ran 0 0 szName NameSpace).2.2.1
    rcases known.lookupTraced settled szName NameSpace (stringTraced id) with ⟨none, -⟩ | ⟨other, same, -, goes⟩
    · rw [found] at none
      cases none
    · rw [found] at same
      cases same
      exact (goes.string_inside known.size).mp inside equals token later sign quotes
  · rintro ⟨settled, closes⟩
    refine ⟨⟨ends.mpr settled, cursor⟩, fun loaded ran m_curPos m_maxNameSpace szName NameSpace => ?_⟩
    have known := (knows loaded ran).moved m_curPos m_maxNameSpace
    have quote (span : Span) (found : searched parser.m_nsStr file NameSpace = some span) (equals : List UInt8)
        (token : Token) (later : List Token) (sign : entry szName span.range = some (equals, token :: later))
        (quotes : token.Quotes) : '"'.toUInt8 ∈ token.quoted :=
      closes token ⟨NameSpace, span, szName, equals, later, found, sign, quotes⟩
    refine ⟨?_, ?_, ?_, ?_⟩
    · exact known.lookup_meets settled (inside_slots _) fun _ _ _ _ goes => goes.word_inside known.size
    · exact known.lookup_meets settled (inside_slots _) fun _ _ _ _ goes => goes.word_inside known.size
    · exact known.lookup_meets settled (inside_slots _) fun span _ found _ goes =>
        (goes.string_inside known.size).mpr (quote span found)
    · exact known.lookup_meets settled (inside_slots _) fun span _ found _ goes =>
        (goes.string_inside known.size).mpr (quote span found)

/-- A file that ends inside a word is read behind its end. -/
theorem word_at_end : ¬∀ (parser : CTextParser) (file : List UInt8), file ≠ [] →
    Throughout (Inside file.length) parser atoi id file := fun always =>
  absurd (always fresh (ascii "A") (by decide)).load.1 (by decide)

/-! ### Inside the arrays -/

/-- A lookup of a key that is nowhere copies every word. -/
theorem Goes.copies {run : TracedResult V} (goes : Goes parser file span szName value run)
    (absent : fromKey szName span.range = []) : ∀ token ∈ span.range, .copy token.1.length ∈ run.1 := by
  cases goes with
  | absent touches next empty copies =>
    rw [upToSign_absent absent] at copies
    exact fun token member => List.mem_append_right _ (copies.each token member)
  | broken touches next present => exact absurd absent present
  | found touches rest equals later present => exact absurd absent present

/-- The run ends in the file, and what it touches fits in the arrays. How long a word is that the file does not end
depends on what lies behind the file, and it is copied all the same, so a run that leaves the file keeps nothing. -/
def Kept (size : ℕ) (touches : List Touch) (ended : Bool) : Prop := Inside size touches ended ∧ Fit touches

end LockFreeCore.CTextParser
