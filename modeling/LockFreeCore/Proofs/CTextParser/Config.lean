import LockFreeCore.Proofs.CTextParser.Tokenizer
import Mathlib.Data.Nat.Digits.Defs
import Mathlib.Data.List.TakeWhile
import Mathlib.Tactic.Ring

/-! # Configurations and their files

A configuration together with the white space it is written with is a file. It is quiet when the tokenizer,
which does not know quotes, takes no part of a value for something else.
-/

namespace LockFreeCore.CTextParser

open Words

/-- An integer by its sign and decimal digits, or a string. -/
inductive Value where
  | int (negative : Bool) (digits : List (Fin 10))
  | str (text : List UInt8)
deriving DecidableEq

/-- A key with its value, and the white space behind each of the words `KEY = value`. -/
structure Entry where
  key : List UInt8
  afterKey : List UInt8
  afterEquals : List UInt8
  value : Value
  afterValue : List UInt8
deriving DecidableEq

/-- A namespace, and the white space behind its name and its braces. -/
structure NameSpace where
  name : List UInt8
  afterName : List UInt8
  afterOpen : List UInt8
  entries : List Entry
  afterClose : List UInt8
deriving DecidableEq

structure Config where
  lead : List UInt8
  nameSpaces : List NameSpace
deriving DecidableEq

/-- The character of a digit. -/
def char (digit : Fin 10) : UInt8 := '0'.toUInt8 + UInt8.ofNat digit.val

def Value.text : Value → List UInt8
  | .int negative digits => (if negative then ascii "-" else []) ++ digits.map char
  | .str text => ascii "\"" ++ text ++ ascii "\""

def Entry.text (entry : Entry) : List UInt8 :=
  entry.key ++ entry.afterKey ++ ascii "=" ++ entry.afterEquals ++ entry.value.text ++ entry.afterValue

/-- What stands between the name and the entries. -/
def NameSpace.opening (nameSpace : NameSpace) : List UInt8 :=
  nameSpace.afterName ++ (ascii "\x7b" ++ nameSpace.afterOpen)

/-- What follows the name. -/
def NameSpace.body (nameSpace : NameSpace) : List UInt8 :=
  nameSpace.opening ++ nameSpace.entries.flatMap Entry.text ++ (ascii "\x7d" ++ nameSpace.afterClose)

def NameSpace.text (nameSpace : NameSpace) : List UInt8 := ascii ":" ++ nameSpace.name ++ nameSpace.body

def Config.text (config : Config) : List UInt8 := config.lead ++ config.nameSpaces.flatMap NameSpace.text

/-- Space, tab, line feed or carriage return. -/
def Blank (c : UInt8) : Prop := c = 0x20 ∨ c = 0x09 ∨ c = 0x0a ∨ c = 0x0d

instance decidableBlank (c : UInt8) : Decidable (Blank c) := inferInstanceAs (Decidable (_ ∨ _))

/-- White space between words. -/
def Gap (gap : List UInt8) : Prop := gap ≠ [] ∧ ∀ c ∈ gap, Blank c

instance decidableGap (gap : List UInt8) : Decidable (Gap gap) :=
  @instDecidableAnd _ _ inferInstance (List.decidableBAll Blank gap)

/-- A letter or a digit. -/
def Letter (c : UInt8) : Prop := ('0'.toUInt8 ≤ c ∧ c ≤ '9'.toUInt8) ∨ ('A'.toUInt8 ≤ c ∧ c ≤ 'Z'.toUInt8) ∨
  ('a'.toUInt8 ≤ c ∧ c ≤ 'z'.toUInt8)

instance decidableLetter (c : UInt8) : Decidable (Letter c) := inferInstanceAs (Decidable (_ ∨ _ ∨ _))

/-- The name of a namespace or a key. -/
def Name (word : List UInt8) : Prop := word ≠ [] ∧ ∀ c ∈ word, Letter c

instance decidableName (word : List UInt8) : Decidable (Name word) :=
  @instDecidableAnd _ _ inferInstance (List.decidableBAll Letter word)

/-- The integer that sign and digits stand for. -/
def number (negative : Bool) (digits : List (Fin 10)) : ℤ :=
  (if negative then -1 else 1) * (Nat.ofDigits 10 (digits.reverse.map Fin.val) : ℕ)

def Value.WellFormed : Value → Prop
  | .int negative digits => digits ≠ [] ∧ (Value.int negative digits).text.length < 256 ∧
      -2 ^ 31 ≤ number negative digits ∧ number negative digits < 2 ^ 31
  | .str text => text.length < 256 ∧ '"'.toUInt8 ∉ text ∧ 0 ∉ text

instance decidableWellFormed : (value : Value) → Decidable value.WellFormed
  | .int _ _ => inferInstanceAs (Decidable (_ ∧ _ ∧ _ ∧ _))
  | .str _ => inferInstanceAs (Decidable (_ ∧ _ ∧ _))

structure Entry.WellFormed (entry : Entry) : Prop where
  key : Name entry.key ∧ entry.key.length < 256
  value : entry.value.WellFormed
  afterKey : Gap entry.afterKey
  afterEquals : Gap entry.afterEquals
  afterValue : Gap entry.afterValue

structure NameSpace.WellFormed (nameSpace : NameSpace) : Prop where
  name : Name nameSpace.name ∧ nameSpace.name.length < 255
  entries : ∀ entry ∈ nameSpace.entries, entry.WellFormed
  keys : (nameSpace.entries.map Entry.key).Nodup
  afterName : Gap nameSpace.afterName
  afterOpen : Gap nameSpace.afterOpen
  afterClose : Gap nameSpace.afterClose

structure Config.WellFormed (config : Config) : Prop where
  lead : ∀ c ∈ config.lead, Blank c
  few : config.nameSpaces.length ≤ MAX_NAMESPACE_COUNT
  names : (config.nameSpaces.map NameSpace.name).Nodup
  nameSpaces : ∀ nameSpace ∈ config.nameSpaces, nameSpace.WellFormed

/-- The tokenizer, which knows no quotes, comes out of the value between words, and none of the words it takes
the value for is too long, closes the namespace or is the key of a later entry. -/
def Entry.Quiet (entry : Entry) (later : List Entry) : Prop :=
  Only alphabet (fun word => word.length < 256 ∧ word ≠ ascii "\x7d" ∧ ∀ other ∈ later, word ≠ other.key)
    (entry.value.text ++ entry.afterValue)

/-- No value disturbs the entries behind it. -/
def NameSpace.Quiet (nameSpace : NameSpace) : Prop :=
  ∀ entry later, entry :: later <:+ nameSpace.entries → entry.Quiet later

/-- The lookup of the entry returns true and exactly its value. -/
def Recovers (parser : CTextParser) (nameSpace : NameSpace) (entry : Entry) : Prop :=
  match entry.value with
  | .int negative digits =>
      ∃ next, parser.getValueInt entry.key nameSpace.name = some ((true, some (number negative digits)), next)
  | .str text => ∃ next, parser.getValueString entry.key nameSpace.name = some ((true, some text), next)

/-- `loadText` of the configuration succeeds, and after it the lookups, in any order, find every value. -/
def FindsAll (parser : CTextParser) (config : Config) : Prop :=
  ∃ loaded, parser.loadText (some config.text) = some (true, loaded) ∧
    ∀ m_curPos m_maxNameSpace, ∀ nameSpace ∈ config.nameSpaces, ∀ entry ∈ nameSpace.entries,
      Recovers { loaded with m_curPos := m_curPos, m_maxNameSpace := m_maxNameSpace } nameSpace entry

/-! ### How the tokenizer sees the words of a configuration -/

theorem Blank.ends {c : UInt8} (blank : Blank c) : ends c = true := by
  rcases blank with rfl | rfl | rfl | rfl <;> decide

theorem Blank.skipped {c : UInt8} (blank : Blank c) : skipped c = true := alphabet.skipped_of_ends c blank.ends

theorem Gap.cons {gap : List UInt8} (white : Gap gap) :
    ∃ d rest, gap = d :: rest ∧ ends d = true ∧ ∀ c ∈ d :: rest, skipped c = true := by
  obtain ⟨some, blank⟩ := white
  obtain ⟨d, rest, rfl⟩ := List.exists_cons_of_ne_nil some
  exact ⟨d, rest, rfl, (blank d List.mem_cons_self).ends, fun c member => (blank c member).skipped⟩

theorem Gap.split {gap : List UInt8} (white : Gap gap) : Words.split alphabet .between gap = ([], .between) :=
  split_skipped fun c member => (white.2 c member).skipped

/-- The tokenizer takes a letter as part of a word. -/
theorem Letter.ordinary {c : UInt8} (letter : Letter c) :
    skipped c = false ∧ c ≠ '/'.toUInt8 ∧ ends c = false ∧ c ≠ 0 := by
  have apart (d : UInt8) (other : ¬Letter d) : c ≠ d := by
    rintro rfl
    exact other letter
  have goes : ends c = false := by
    simp only [ends, decide_eq_false_iff_not, not_or]
    and_intros <;> exact apart _ (by decide)
  refine ⟨?_, apart _ (by decide), goes, apart _ (by decide)⟩
  simp only [skipped, goes, Bool.false_eq_true, or_false, decide_eq_false_iff_not]
  exact apart _ (by decide)

/-- A word of one character. -/
theorem plain_mark {c : UInt8} (begins : skipped c = false) (goes : c ≠ '/'.toUInt8 ∧ ends c = false) : Plain [c] :=
  ⟨⟨c, [], rfl, begins⟩, List.forall_mem_singleton.mpr goes⟩

/-- A word of letters, behind a sign or a colon or not. -/
theorem plain_of_letters {front word : List UInt8} (some : front ++ word ≠ [])
    (lead : ∀ c ∈ front, skipped c = false ∧ c ≠ '/'.toUInt8 ∧ ends c = false ∧ c ≠ 0)
    (rest : ∀ c ∈ word, Letter c) : Plain (front ++ word) ∧ 0 ∉ front ++ word := by
  have all (c : UInt8) (member : c ∈ front ++ word) :
      skipped c = false ∧ c ≠ '/'.toUInt8 ∧ ends c = false ∧ c ≠ 0 :=
    (List.mem_append.mp member).elim (lead c) fun there => (rest c there).ordinary
  obtain ⟨c, more, same⟩ := List.exists_cons_of_ne_nil some
  have first : c ∈ front ++ word := by
    rw [same]
    exact List.mem_cons_self
  exact ⟨⟨⟨c, more, same, (all c first).1⟩, fun d member => ⟨(all d member).2.1, (all d member).2.2.1⟩⟩,
    fun zero => (all 0 zero).2.2.2 rfl⟩

theorem Name.plain {word : List UInt8} (name : Name word) : Plain word ∧ 0 ∉ word :=
  @plain_of_letters [] word name.1 (by simp) name.2

theorem Name.plain_colon {word : List UInt8} (name : Name word) : Plain (ascii ":" ++ word) :=
  (@plain_of_letters [':'.toUInt8] word (by simp) (List.forall_mem_singleton.mpr (by decide)) name.2).1

theorem char_range (digit : Fin 10) :
    '0'.toUInt8 ≤ char digit ∧ char digit ≤ '9'.toUInt8 ∧ (char digit).toNat = 48 + digit.val := by
  revert digit
  decide

theorem Value.plain_int {negative : Bool} {digits : List (Fin 10)} (some : digits ≠ []) :
    Plain (Value.int negative digits).text ∧ 0 ∉ (Value.int negative digits).text := by
  refine plain_of_letters (List.append_ne_nil_of_right_ne_nil _ (by simpa using some)) ?_ fun c member => ?_
  · cases negative with
    | false => exact fun _ absent => absurd absent List.not_mem_nil
    | true => exact List.forall_mem_singleton.mpr (by decide)
  · obtain ⟨digit, _, rfl⟩ := List.mem_map.mp member
    exact .inl ⟨(char_range digit).1, (char_range digit).2.1⟩

theorem chWord_eq {word : List UInt8} (short : word.length < 256) (text : 0 ∉ word) : chWord word = some word := by
  rw [chWord, if_pos short]
  refine congrArg some (List.takeWhile_eq_self_iff.mpr fun c member => ?_)
  exact decide_eq_true fun zero : c = 0 => text (zero ▸ member)

theorem foldl_digits (digits : List (Fin 10)) (number : ℤ) :
    (digits.map char).foldl (fun (number : ℤ) c => 10 * number + (c.toNat - 48 : ℕ)) number =
      number * 10 ^ digits.length + (Nat.ofDigits 10 (digits.reverse.map Fin.val) : ℕ) := by
  induction digits generalizing number with
  | nil => simp
  | cons digit digits ih =>
    have unit : (char digit).toNat - 48 = digit.val := by
      rw [(char_range digit).2.2]
      omega
    rw [List.map_cons, List.foldl_cons, ih, unit, List.reverse_cons, List.map_append, Nat.ofDigits_append]
    simp only [List.length_map, List.length_reverse, List.length_cons, List.map_cons, List.map_nil,
      Nat.ofDigits_singleton]
    push_cast
    ring

theorem takeWhile_digits (digits : List (Fin 10)) :
    (digits.map char).takeWhile (fun c => '0'.toUInt8 ≤ c ∧ c ≤ '9'.toUInt8) = digits.map char := by
  refine List.takeWhile_eq_self_iff.mpr fun c member => ?_
  obtain ⟨digit, _, rfl⟩ := List.mem_map.mp member
  exact decide_eq_true ⟨(char_range digit).1, (char_range digit).2.1⟩

/-- The characters before the digits of a number. -/
theorem char_begins (digit : Fin 10) :
    ¬(char digit = 0x20 ∨ (0x09 ≤ char digit ∧ char digit ≤ 0x0d)) ∧ char digit ≠ '-'.toUInt8 ∧
      char digit ≠ '+'.toUInt8 := by
  revert digit
  decide

theorem takeWhile_trail (digits : List (Fin 10)) {trail : List UInt8}
    (stops : ∀ c ∈ trail.head?, ¬('0'.toUInt8 ≤ c ∧ c ≤ '9'.toUInt8)) :
    (digits.map char ++ trail).takeWhile (fun c => '0'.toUInt8 ≤ c ∧ c ≤ '9'.toUInt8) = digits.map char := by
  have none : trail.takeWhile (fun c => '0'.toUInt8 ≤ c ∧ c ≤ '9'.toUInt8) = [] := by
    cases trail with
    | nil => rfl
    | cons c rest => exact List.takeWhile_cons_of_neg (mt of_decide_eq_true (stops c rfl))
  rw [List.takeWhile_append_of_pos (List.takeWhile_eq_self_iff.mp (takeWhile_digits digits)), none, List.append_nil]

/-- `atoi` gives the number back, whatever white space leads it and whatever but a digit trails it. -/
theorem atoi_numeral {lead trail : List UInt8} {negative : Bool} {digits : List (Fin 10)}
    (white : ∀ c ∈ lead, c = 0x20 ∨ (0x09 ≤ c ∧ c ≤ 0x0d))
    (stops : ∀ c ∈ trail.head?, ¬('0'.toUInt8 ≤ c ∧ c ≤ '9'.toUInt8)) (some : digits ≠ [])
    (least : -2 ^ 31 ≤ number negative digits) (most : number negative digits < 2 ^ 31) :
    atoi (lead ++ ((Value.int negative digits).text ++ trail)) = number negative digits := by
  have read := foldl_digits digits 0
  rw [zero_mul, zero_add] at read
  have clamp : max (-2 ^ 31) (min (number negative digits) (2 ^ 31 - 1)) = number negative digits := by omega
  have dropped (text : List UInt8) : (lead ++ text).dropWhile (fun c => c = 0x20 ∨ (0x09 ≤ c ∧ c ≤ 0x0d)) =
      text.dropWhile fun c => c = 0x20 ∨ (0x09 ≤ c ∧ c ≤ 0x0d) :=
    List.dropWhile_append_of_pos fun c member => decide_eq_true (white c member)
  have shown := takeWhile_trail digits stops
  rw [← clamp, atoi, dropped]
  cases negative with
  | false =>
    obtain ⟨digit, more, rfl⟩ := List.exists_cons_of_ne_nil some
    obtain ⟨white, minus, plus⟩ := char_begins digit
    have text : (Value.int false (digit :: more)).text ++ trail = char digit :: (more.map char ++ trail) := rfl
    rw [List.map_cons, List.cons_append] at shown
    rw [List.map_cons] at read
    simp only [text, List.dropWhile_cons, white, minus, plus, decide_false, Bool.false_eq_true, if_false,
      List.head?_cons, Option.some.injEq, or_self, shown, read, number, one_mul]
  | true =>
    have text : (Value.int true digits).text ++ trail = '-'.toUInt8 :: (digits.map char ++ trail) := rfl
    have white : ¬('-'.toUInt8 = 0x20 ∨ (0x09 ≤ '-'.toUInt8 ∧ '-'.toUInt8 ≤ 0x0d)) := by decide
    simp only [text, List.dropWhile_cons, white, decide_false, Bool.false_eq_true, if_false, List.head?_cons, true_or,
      if_true, shown, read, number, neg_one_mul]

theorem atoi_text {negative : Bool} {digits : List (Fin 10)} (fits : (Value.int negative digits).WellFormed) :
    atoi (Value.int negative digits).text = number negative digits := by
  have bare := @atoi_numeral [] [] _ _ (by simp) (by simp) fits.1 fits.2.2.1 fits.2.2.2
  rwa [List.nil_append, List.append_nil] at bare

end LockFreeCore.CTextParser
