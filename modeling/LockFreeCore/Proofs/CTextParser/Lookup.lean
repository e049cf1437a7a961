import LockFreeCore.Proofs.CTextParser.Config
import Mathlib.Data.List.Nodup

/-! # What the lookups find in a configuration

The loops over the words of a quiet configuration pass over every entry, so the braces that `checkNameSpace`
finds are those of the namespaces, and the first word equal to a key is the key itself.
-/

namespace LockFreeCore.CTextParser

open Words

variable {parser : CTextParser} {left gap word rest : List UInt8} {fuel : ℕ}

/-- The next word is one of the file, with white space behind it. -/
theorem getNextWord_gap (size : parser.m_fileSize = parser.m_fileBuffer.length)
    (blank : split alphabet .between left = ([], .between)) (plain : Plain word) (white : Gap gap)
    (suffix : left ++ (word ++ (gap ++ rest)) <:+ parser.m_fileBuffer)
    (bound : parser.m_fileSize < parser.m_maxNameSpace + (word ++ (gap ++ rest)).length) :
    getNextWord (parser.before (left ++ (word ++ (gap ++ rest)))) = some (some word, parser.before (gap ++ rest)) := by
  obtain ⟨d, more, rfl, stops, -⟩ := white.cons
  exact getNextWord_plain size blank plain stops suffix bound

/-- A word and the white space behind it. -/
theorem only_word {P : List UInt8 → Prop} (plain : Plain word) (white : Gap gap) (kind : P word) :
    Only alphabet P (word ++ gap) := by
  obtain ⟨⟨c, more, rfl, begins⟩, goes⟩ := plain
  obtain ⟨d, others, rfl, stops, blank⟩ := white.cons
  exact Only.plain begins goes stops blank kind

/-- The loops go on after this word: it fits in `chWord`, and is no closing brace and no key of these entries. -/
def Harmless (later : List Entry) (word : List UInt8) : Prop :=
  chWord word = some word ∧ word ≠ ascii "\x7d" ∧ ∀ other ∈ later, word ≠ other.key

theorem Name.ne {word mark : List UInt8} (name : Name word) (other : ¬Name mark) : word ≠ mark := by
  rintro rfl
  exact other name

theorem Blank.ne_zero {c : UInt8} (blank : Blank c) : c ≠ 0 := by
  rintro rfl
  exact absurd blank (by decide)

/-- No value has a NUL byte. -/
theorem Value.WellFormed.no_zero {value : Value} (wellFormed : value.WellFormed) : 0 ∉ value.text := by
  cases value with
  | int negative digits => exact (Value.plain_int wellFormed.1).2
  | str text =>
    obtain ⟨-, -, zero⟩ := wellFormed
    have quote : (0 : UInt8) ≠ '"'.toUInt8 := by decide
    simp [Value.text, ascii, zero, quote]

/-- The loops over the words pass over an entry that is not looked for. -/
theorem Entry.harmless {entry : Entry} {later : List Entry} (wellFormed : entry.WellFormed)
    (others : ∀ other ∈ later, Name other.key ∧ entry.key ≠ other.key) (quiet : entry.Quiet later) :
    Only alphabet (Harmless later) entry.text := by
  have key : Harmless later entry.key :=
    ⟨chWord_eq wellFormed.key.2 wellFormed.key.1.plain.2, wellFormed.key.1.ne (by decide),
      fun other member => (others other member).2⟩
  have equals : Harmless later (ascii "=") :=
    ⟨by decide, by decide, fun other member => ((others other member).1.ne (by decide)).symm⟩
  have value : Only alphabet (Harmless later) (entry.value.text ++ entry.afterValue) := by
    refine Only.imp quiet fun word inside ⟨short, close, apart⟩ => ⟨chWord_eq short fun zero => ?_, close, apart⟩
    rcases List.mem_append.mp (inside 0 zero) with there | there
    · exact wellFormed.value.no_zero there
    · exact (wellFormed.afterValue.2 0 there).ne_zero rfl
  have sign : Plain (ascii "=") := @plain_mark '='.toUInt8 (by decide) (by decide)
  have first := only_word wellFormed.key.1.plain.1 wellFormed.afterKey key
  have second := only_word sign wellFormed.afterEquals equals
  have all := (first.append second).append value
  rw [Entry.text]
  simpa only [List.append_assoc] using all

section NameSpaces

variable {nameSpace : NameSpace} {earlier later : List Entry} {entry : Entry}

theorem NameSpace.WellFormed.key_ne (wellFormed : nameSpace.WellFormed)
    (place : nameSpace.entries = earlier ++ entry :: later) : ∀ other ∈ later, entry.key ≠ other.key := by
  intro other member same
  have apart := wellFormed.keys
  rw [place, List.map_append, List.map_cons, List.nodup_append] at apart
  exact (List.nodup_cons.mp apart.2.1).1 (same ▸ List.mem_map_of_mem member)

theorem NameSpace.entry_harmless (wellFormed : nameSpace.WellFormed) (quiet : nameSpace.Quiet)
    (place : nameSpace.entries = earlier ++ entry :: later) : Only alphabet (Harmless later) entry.text := by
  have inside (other : Entry) (member : other ∈ entry :: later) : other.WellFormed := by
    refine wellFormed.entries other ?_
    rw [place]
    exact List.mem_append_right earlier member
  exact Entry.harmless (inside entry List.mem_cons_self)
    (fun other member => ⟨(inside other (List.mem_cons_of_mem _ member)).key.1, wellFormed.key_ne place other member⟩)
    (quiet entry later ⟨earlier, place.symm⟩)

/-- The loops pass over the opening brace of a namespace. -/
theorem NameSpace.opening_harmless (wellFormed : nameSpace.WellFormed) {others : List Entry}
    (inside : ∀ other ∈ others, other ∈ nameSpace.entries) :
    Only alphabet (Harmless others) nameSpace.opening := by
  have brace : Plain (ascii "\x7b") := @plain_mark '\x7b'.toUInt8 (by decide) (by decide)
  have kind : Harmless others (ascii "\x7b") :=
    ⟨by decide, by decide, fun other member =>
      ((wellFormed.entries other (inside other member)).key.1.ne (by decide)).symm⟩
  refine Only.append (Only.skipped fun c member => ?_) (only_word brace wellFormed.afterOpen kind)
  exact (wellFormed.afterName.2 c member).skipped

/-- The words of a namespace before one of its entries. -/
theorem NameSpace.before_entry (wellFormed : nameSpace.WellFormed) (quiet : nameSpace.Quiet)
    (place : nameSpace.entries = earlier ++ entry :: later) :
    Only alphabet (fun word => chWord word = some word ∧ entry.key ≠ word)
      (nameSpace.opening ++ earlier.flatMap Entry.text) := by
  have inside : ∀ other ∈ [entry], other ∈ nameSpace.entries := by
    simp [place]
  refine Only.append ((opening_harmless wellFormed inside).imp ?_) (Only.flatMap fun other member => ?_)
  · rintro word - ⟨fits, -, apart⟩
    exact ⟨fits, (apart entry List.mem_cons_self).symm⟩
  · obtain ⟨front, back, rfl⟩ := List.append_of_mem member
    rw [List.append_assoc, List.cons_append] at place
    refine (entry_harmless wellFormed quiet place).imp ?_
    rintro word - ⟨fits, -, apart⟩
    exact ⟨fits, (apart entry (List.mem_append_right back List.mem_cons_self)).symm⟩

/-- The words of a namespace before its closing brace. -/
theorem NameSpace.before_close (wellFormed : nameSpace.WellFormed) (quiet : nameSpace.Quiet) :
    Only alphabet (fun word => chWord word = some word ∧ word ≠ ascii "\x7d")
      (nameSpace.opening ++ nameSpace.entries.flatMap Entry.text) := by
  have weaker {others : List Entry} {text : List UInt8} (only : Only alphabet (Harmless others) text) :
      Only alphabet (fun word => chWord word = some word ∧ word ≠ ascii "\x7d") text :=
    only.imp fun word _ harmless => ⟨harmless.1, harmless.2.1⟩
  refine Only.append (weaker (@opening_harmless nameSpace wellFormed [] (by simp))) (Only.flatMap fun entry member => ?_)
  obtain ⟨front, back, place⟩ := List.append_of_mem member
  exact weaker (entry_harmless wellFormed quiet place)

end NameSpaces

section Load

variable {nameSpace : NameSpace} {nameSpaces : List NameSpace} {NsCount : ℕ}

/-- The inner loop of `checkNameSpace` goes to the closing brace and records what is behind it. -/
theorem closeLoop_eq (size : parser.m_fileSize = parser.m_fileBuffer.length) (whole : parser.m_maxNameSpace = parser.m_fileSize)
    {inside : List UInt8} (only : Only alphabet (fun word => chWord word = some word ∧ word ≠ ascii "\x7d") inside)
    (white : Gap gap) (suffix : inside ++ (ascii "\x7d" ++ (gap ++ rest)) <:+ parser.m_fileBuffer) :
    closeLoop NsCount (parser.m_fileSize + 1) (parser.before (inside ++ (ascii "\x7d" ++ (gap ++ rest)))) =
      some (before { parser with
        m_nsMaxPos := Function.update parser.m_nsMaxPos NsCount (parser.m_fileSize - (gap ++ rest).length) }
        (gap ++ rest)) := by
  have brace : Plain (ascii "\x7d") := @plain_mark '\x7d'.toUInt8 (by decide) (by decide)
  have long := suffix.length_le
  rw [← size, List.length_append] at long
  obtain ⟨left, more, went, inner, count, blank⟩ := loop_passes (closeLoop NsCount)
    (fun word => chWord word = some word ∧ word ≠ ascii "\x7d")
    (fun fuel here next word read ⟨fits, other⟩ => by
      simp only [closeLoop, read, Option.bind_some, fits, if_neg other])
    size suffix (by omega) only.closed only.words (show inside.length ≤ parser.m_fileSize + 1 by omega)
  obtain ⟨fuel, spare⟩ := Nat.exists_eq_add_of_le' (show 1 ≤ parser.m_fileSize + 1 - more by omega)
  have feed : left ++ (ascii "\x7d" ++ (gap ++ rest)) <:+ parser.m_fileBuffer := by
    obtain ⟨front, rfl⟩ := inner
    rw [List.append_assoc] at suffix
    exact (List.suffix_append front _).trans suffix
  have read := getNextWord_gap size blank brace white feed (by
    rw [whole, List.length_append]
    exact Nat.lt_add_of_pos_right (Nat.add_pos_left (by decide) _))
  rw [went, spare, closeLoop, read, Option.bind_some]
  rfl

/-- What `checkNameSpace` records when it has read the name of a namespace. -/
def entered (parser : CTextParser) (NsCount : ℕ) (nameSpace : NameSpace) (rest : List UInt8) : CTextParser :=
  { parser with
    m_nsPos := Function.update parser.m_nsPos NsCount (parser.m_fileSize - (nameSpace.body ++ rest).length)
    m_nsStr := Function.update parser.m_nsStr NsCount nameSpace.name }

/-- What `checkNameSpace` has recorded about a namespace when this is left of the file behind it. -/
def record (parser : CTextParser) (NsCount : ℕ) (nameSpace : NameSpace) (rest : List UInt8) : CTextParser :=
  { parser.entered NsCount nameSpace rest with
    m_nsMaxPos :=
      Function.update parser.m_nsMaxPos NsCount (parser.m_fileSize - (nameSpace.afterClose ++ rest).length) }

/-- The parser after `checkNameSpace` has recorded these namespaces, which the file ends with. -/
def recorded (parser : CTextParser) : ℕ → List NameSpace → CTextParser
  | _, [] => parser
  | NsCount, nameSpace :: nameSpaces =>
    recorded (parser.record NsCount nameSpace (nameSpaces.flatMap NameSpace.text)) (NsCount + 1) nameSpaces

/-- One turn of the outer loop of `checkNameSpace`. -/
theorem nameLoop_record (size : parser.m_fileSize = parser.m_fileBuffer.length)
    (whole : parser.m_maxNameSpace = parser.m_fileSize) (few : NsCount < MAX_NAMESPACE_COUNT)
    (wellFormed : nameSpace.WellFormed) (quiet : nameSpace.Quiet) (blank : split alphabet .between left = ([], .between))
    (suffix : left ++ (nameSpace.text ++ rest) <:+ parser.m_fileBuffer) :
    nameLoop (fuel + 1) NsCount (parser.before (left ++ (nameSpace.text ++ rest))) =
      nameLoop fuel (NsCount + 1) ((parser.record NsCount nameSpace rest).before (nameSpace.afterClose ++ rest)) := by
  have name : ascii ":" ++ nameSpace.name = ':'.toUInt8 :: nameSpace.name := rfl
  have first : nameSpace.body ++ rest = nameSpace.afterName ++ (ascii "\x7b" ++ nameSpace.afterOpen ++
      nameSpace.entries.flatMap Entry.text ++ (ascii "\x7d" ++ nameSpace.afterClose) ++ rest) := by
    simp only [NameSpace.body, NameSpace.opening, List.append_assoc]
  have last : nameSpace.body ++ rest = (nameSpace.opening ++ nameSpace.entries.flatMap Entry.text) ++
      (ascii "\x7d" ++ (nameSpace.afterClose ++ rest)) := by
    simp only [NameSpace.body, List.append_assoc]
  have text : nameSpace.text ++ rest = ascii ":" ++ nameSpace.name ++ (nameSpace.body ++ rest) := by
    rw [NameSpace.text, List.append_assoc]
  rw [text] at suffix ⊢
  have feed : nameSpace.body ++ rest <:+ parser.m_fileBuffer := by
    rw [← List.append_assoc] at suffix
    exact (List.suffix_append _ _).trans suffix
  have read : getNextWord (parser.before (left ++ (ascii ":" ++ nameSpace.name ++ (nameSpace.body ++ rest)))) =
      some (some (':'.toUInt8 :: nameSpace.name), parser.before (nameSpace.body ++ rest)) := by
    rw [first] at suffix ⊢
    refine getNextWord_gap size blank wellFormed.name.1.plain_colon wellFormed.afterName suffix ?_
    rw [whole, name, List.cons_append, List.length_cons]
    omega
  have fits := chWord_eq (Nat.lt_trans wellFormed.name.2 (by decide)) wellFormed.name.1.plain.2
  have closed : closeLoop NsCount (parser.m_fileSize + 1)
      ((parser.entered NsCount nameSpace rest).before (nameSpace.body ++ rest)) =
      some ((parser.record NsCount nameSpace rest).before (nameSpace.afterClose ++ rest)) := by
    rw [last] at feed ⊢
    exact @closeLoop_eq (parser.entered NsCount nameSpace rest) _ _ _ size whole _
      (NameSpace.before_close wellFormed quiet) wellFormed.afterClose feed
  rw [nameLoop, read, Option.bind_some]
  simp only [List.head?_cons, if_true, List.tail_cons, fits, Option.bind_some, if_pos few]
  exact congrArg (Option.bind · _) closed

/-- The outer loop of `checkNameSpace` records every namespace. -/
theorem nameLoop_eq (size : parser.m_fileSize = parser.m_fileBuffer.length)
    (whole : parser.m_maxNameSpace = parser.m_fileSize) (few : NsCount + nameSpaces.length ≤ MAX_NAMESPACE_COUNT)
    (wellFormed : ∀ nameSpace ∈ nameSpaces, nameSpace.WellFormed) (quiet : ∀ nameSpace ∈ nameSpaces, nameSpace.Quiet)
    (blank : split alphabet .between left = ([], .between))
    (suffix : left ++ nameSpaces.flatMap NameSpace.text <:+ parser.m_fileBuffer) (enough : nameSpaces.length < fuel) :
    nameLoop fuel NsCount (parser.before (left ++ nameSpaces.flatMap NameSpace.text)) =
      some ((parser.recorded NsCount nameSpaces).before []) := by
  induction nameSpaces generalizing parser NsCount left fuel with
  | nil =>
    obtain ⟨fuel, rfl⟩ := Nat.exists_eq_add_of_lt enough
    rw [List.flatMap_nil, List.append_nil] at suffix ⊢
    rw [List.length_nil, Nat.zero_add, nameLoop, getNextWord_end size blank suffix whole]
    rfl
  | cons nameSpace nameSpaces ih =>
    obtain ⟨fuel, rfl⟩ := Nat.exists_eq_add_of_le' (Nat.lt_of_lt_of_le (Nat.succ_pos _) (Nat.le_of_lt enough))
    obtain ⟨here, others⟩ := List.forall_mem_cons.mp wellFormed
    obtain ⟨quietHere, quietOthers⟩ := List.forall_mem_cons.mp quiet
    rw [List.flatMap_cons] at suffix ⊢
    rw [List.length_cons] at few enough
    rw [nameLoop_record size whole (by omega) here quietHere blank suffix]
    refine ih size whole (by omega) others quietOthers here.afterClose.split ?_ (by omega)
    refine List.IsSuffix.trans ?_ ((List.suffix_append left _).trans suffix)
    have text : nameSpace.text ++ nameSpaces.flatMap NameSpace.text = ascii ":" ++ nameSpace.name ++ nameSpace.opening ++
        nameSpace.entries.flatMap Entry.text ++ ascii "\x7d" ++
          (nameSpace.afterClose ++ nameSpaces.flatMap NameSpace.text) := by
      simp only [NameSpace.text, NameSpace.body, List.append_assoc]
    rw [text]
    exact List.suffix_append _ _

@[simp] theorem recorded_m_fileSize : (parser.recorded NsCount nameSpaces).m_fileSize = parser.m_fileSize := by
  induction nameSpaces generalizing parser NsCount with
  | nil => rfl
  | cons nameSpace nameSpaces ih => exact ih

@[simp] theorem recorded_m_fileBuffer : (parser.recorded NsCount nameSpaces).m_fileBuffer = parser.m_fileBuffer := by
  induction nameSpaces generalizing parser NsCount with
  | nil => rfl
  | cons nameSpace nameSpaces ih => exact ih

/-- The records of other numbers stay. -/
theorem recorded_outside {i : ℕ} (outside : i < NsCount ∨ NsCount + nameSpaces.length ≤ i) :
    (parser.recorded NsCount nameSpaces).m_nsPos i = parser.m_nsPos i ∧
      (parser.recorded NsCount nameSpaces).m_nsMaxPos i = parser.m_nsMaxPos i ∧
      (parser.recorded NsCount nameSpaces).m_nsStr i = parser.m_nsStr i := by
  induction nameSpaces generalizing parser NsCount with
  | nil => exact ⟨rfl, rfl, rfl⟩
  | cons nameSpace nameSpaces ih =>
    rw [List.length_cons] at outside
    have other : i ≠ NsCount := by omega
    obtain ⟨pos, max, str⟩ := @ih (parser.record NsCount nameSpace (nameSpaces.flatMap NameSpace.text)) (NsCount + 1)
      (by omega)
    exact ⟨pos.trans (Function.update_of_ne other _ _), max.trans (Function.update_of_ne other _ _),
      str.trans (Function.update_of_ne other _ _)⟩

/-- The record of each namespace. -/
theorem recorded_at {i : ℕ} (inside : i < nameSpaces.length) :
    (parser.recorded NsCount nameSpaces).m_nsPos (NsCount + i) =
        parser.m_fileSize - (nameSpaces[i].body ++ (nameSpaces.drop (i + 1)).flatMap NameSpace.text).length ∧
      (parser.recorded NsCount nameSpaces).m_nsMaxPos (NsCount + i) =
        parser.m_fileSize - (nameSpaces[i].afterClose ++ (nameSpaces.drop (i + 1)).flatMap NameSpace.text).length ∧
      (parser.recorded NsCount nameSpaces).m_nsStr (NsCount + i) = nameSpaces[i].name := by
  induction nameSpaces generalizing parser NsCount i with
  | nil => cases inside
  | cons nameSpace nameSpaces ih =>
    cases i with
    | zero =>
      obtain ⟨pos, max, str⟩ := @recorded_outside (parser.record NsCount nameSpace (nameSpaces.flatMap NameSpace.text))
        nameSpaces (NsCount + 1) NsCount (.inl (Nat.lt_succ_self _))
      exact ⟨pos.trans (Function.update_self _ _ _), max.trans (Function.update_self _ _ _),
        str.trans (Function.update_self _ _ _)⟩
    | succ i =>
      have later := @ih (parser.record NsCount nameSpace (nameSpaces.flatMap NameSpace.text)) (NsCount + 1) i
        (Nat.lt_of_succ_lt_succ inside)
      rw [Nat.add_right_comm] at later
      exact later

/-- The parser when `checkNameSpace` comes to its loop. -/
def started (parser : CTextParser) (file : List UInt8) : CTextParser :=
  { parser with
    m_fileSize := file.length
    m_fileBuffer := file
    m_curPos := 0
    m_maxNameSpace := file.length
    m_nsPos := fun _ => 0
    m_nsMaxPos := fun _ => file.length }

/-- The parser after `loadText` of a configuration. -/
def loaded (parser : CTextParser) (config : Config) : CTextParser :=
  { (parser.started config.text).recorded 0 config.nameSpaces with m_curPos := 0 }

theorem length_le_text : nameSpaces.length ≤ (nameSpaces.flatMap NameSpace.text).length := by
  induction nameSpaces with
  | nil => exact Nat.le_refl _
  | cons nameSpace nameSpaces ih =>
    have colon : 1 ≤ nameSpace.text.length := by
      simp [NameSpace.text, ascii]
    rw [List.flatMap_cons, List.length_append, List.length_cons]
    omega

/-- `loadText` of a configuration records its namespaces. -/
theorem loadText_eq {config : Config} (wellFormed : config.WellFormed)
    (quiet : ∀ nameSpace ∈ config.nameSpaces, nameSpace.Quiet) :
    parser.loadText (some config.text) = some (true, parser.loaded config) := by
  have blank : split alphabet .between config.lead = ([], .between) :=
    split_skipped fun c member => (wellFormed.lead c member).skipped
  have few : 0 + config.nameSpaces.length ≤ MAX_NAMESPACE_COUNT := (Nat.zero_add _).le.trans wellFormed.few
  have enough : config.nameSpaces.length < config.text.length + 1 := by
    have short := @length_le_text config.nameSpaces
    rw [Config.text, List.length_append]
    omega
  have read := @nameLoop_eq (parser.started config.text) config.lead (config.text.length + 1) config.nameSpaces 0 rfl rfl
    few wellFormed.nameSpaces quiet blank
    (List.suffix_refl _) enough
  have begins : config.text.length - (config.lead ++ config.nameSpaces.flatMap NameSpace.text).length = 0 :=
    Nat.sub_self _
  have place : (parser.started config.text).before (config.lead ++ config.nameSpaces.flatMap NameSpace.text) =
      parser.started config.text := by
    simp only [before, started, begins]
  rw [place] at read
  rw [loadText, checkNameSpace]
  change ((nameLoop (config.text.length + 1) 0 (parser.started config.text)).map _).map _ = _
  rw [read]
  rfl

end Load

section Lookup

variable {nameSpace : NameSpace} {earlier later : List Entry} {entry : Entry} {i : ℕ}

/-- The search for a name that only slot `i` has. -/
theorem foldl_findSlot {name : List UInt8} {slots : List ℕ} {isFind : Bool}
    (only : ∀ j ∈ slots, name = parser.m_nsStr j ↔ j = i) :
    slots.foldl (findSlot name) (isFind, parser) =
      if i ∈ slots then (true, parser.atSlot i) else (isFind, parser) := by
  induction slots generalizing isFind parser with
  | nil => rfl
  | cons j slots ih =>
    obtain ⟨here, others⟩ := List.forall_mem_cons.mp only
    rw [List.foldl_cons, findSlot]
    by_cases same : j = i
    · subst same
      have later := @ih (parser.atSlot j) true others
      have twice : (parser.atSlot j).atSlot j = parser.atSlot j := rfl
      rw [twice, ite_self] at later
      rw [if_pos (here.mpr rfl), if_pos List.mem_cons_self]
      exact later
    · rw [if_neg fun found => same (here.mp found), ih others]
      simp [Ne.symm same]

/-- The namespace that only slot `i` has the name of is found there. -/
theorem findNameSpace_eq {name : List UInt8} (some : name ≠ []) (inside : i < MAX_NAMESPACE_COUNT)
    (only : ∀ j < MAX_NAMESPACE_COUNT, name = parser.m_nsStr j ↔ j = i) :
    parser.findNameSpace name = (true, parser.atSlot i) := by
  rw [findNameSpace, if_neg some]
  refine (foldl_findSlot fun j member => only j (List.mem_range.mp member)).trans ?_
  rw [if_pos (List.mem_range.mpr inside)]

theorem Entry.text_append : entry.text ++ rest = entry.key ++ (entry.afterKey ++ (ascii "=" ++ (entry.afterEquals ++
    (entry.value.text ++ (entry.afterValue ++ rest))))) := by
  simp only [Entry.text, List.append_assoc]

/-- The loop of the `getValue` functions comes to the value behind the key. -/
theorem valueLoop_entry {V : Type*} {value : CTextParser → Result V} {inside : List UInt8}
    (size : parser.m_fileSize = parser.m_fileBuffer.length)
    (bound : parser.m_fileSize ≤ parser.m_maxNameSpace + rest.length) (wellFormed : entry.WellFormed)
    (only : Only alphabet (fun word => chWord word = some word ∧ entry.key ≠ word) inside)
    (suffix : inside ++ (entry.text ++ rest) <:+ parser.m_fileBuffer) :
    valueLoop value entry.key (parser.m_fileSize + 1) (parser.before (inside ++ (entry.text ++ rest))) =
      value (parser.before (entry.afterEquals ++ (entry.value.text ++ (entry.afterValue ++ rest)))) := by
  have sign : Plain (ascii "=") := @plain_mark '='.toUInt8 (by decide) (by decide)
  have long := suffix.length_le
  rw [← size, List.length_append] at long
  obtain ⟨left, more, went, inner, count, blank⟩ := loop_passes (valueLoop value entry.key)
    (fun word => chWord word = some word ∧ entry.key ≠ word)
    (fun fuel here next word read ⟨fits, other⟩ => by
      simp only [valueLoop, read, Option.bind_some, fits, if_neg other])
    size suffix (bound.trans (by rw [List.length_append]; omega)) only.closed only.words
    (show inside.length ≤ parser.m_fileSize + 1 by omega)
  obtain ⟨fuel, spare⟩ := Nat.exists_eq_add_of_le' (show 1 ≤ parser.m_fileSize + 1 - more by omega)
  have feed : left ++ (entry.text ++ rest) <:+ parser.m_fileBuffer := by
    obtain ⟨front, rfl⟩ := inner
    rw [List.append_assoc] at suffix
    exact (List.suffix_append front _).trans suffix
  have space := List.length_pos_iff.mpr wellFormed.afterValue.1
  rw [Entry.text_append] at feed went
  have key := getNextWord_gap size blank wellFormed.key.1.plain.1 wellFormed.afterKey feed (by
    simp only [List.length_append]
    omega)
  have feed' := (List.suffix_append entry.key _).trans ((List.suffix_append left _).trans feed)
  have equals := getNextWord_gap size wellFormed.afterKey.split sign wellFormed.afterEquals feed' (by
    simp only [List.length_append]
    omega)
  have fits := chWord_eq wellFormed.key.2 wellFormed.key.1.plain.2
  have fits' : chWord (ascii "=") = some (ascii "=") := by decide
  rw [Entry.text_append, went, spare, valueLoop, key]
  simp only [Option.bind_some, fits, if_true, equals, fits']

theorem quoteEnd_eq {text : List UInt8} {pos : ℕ} (inside : '"'.toUInt8 ∉ text) :
    quoteEnd (text ++ ascii "\"" ++ rest) pos = some (pos + text.length) := by
  induction text generalizing pos with
  | nil => rfl
  | cons c text ih =>
    rw [List.mem_cons, not_or] at inside
    rw [List.cons_append, List.cons_append, quoteEnd, if_neg (Ne.symm inside.1), ih inside.2, List.length_cons]
    congr 1
    omega

/-- `getStringWord` reads a string whole. -/
theorem getStringWord_eq {text : List UInt8} (size : parser.m_fileSize = parser.m_fileBuffer.length)
    (blank : split alphabet .between left = ([], .between)) (inside : '"'.toUInt8 ∉ text)
    (suffix : left ++ ((Value.str text).text ++ rest) <:+ parser.m_fileBuffer)
    (bound : parser.m_fileSize < parser.m_maxNameSpace + ((Value.str text).text ++ rest).length) :
    getStringWord (parser.before (left ++ ((Value.str text).text ++ rest))) =
      some ((true, some text), parser.before (ascii "\"" ++ rest)) := by
  have shape : (Value.str text).text ++ rest = '"'.toUInt8 :: (text ++ ascii "\"" ++ rest) := by
    simp only [Value.text, List.append_assoc]
    rfl
  have skips := (split_none blank).append ((Value.str text).text ++ rest)
  have feed := (List.suffix_append left _).trans suffix
  rw [List.nil_append] at skips
  rw [shape] at suffix bound skips feed ⊢
  have quote : skipped '"'.toUInt8 = false := by decide
  have slash : '"'.toUInt8 ≠ '/'.toUInt8 := by decide
  have found := skipNoneCommand_eq size suffix skips quote (fun opens => slash opens.1) (fun same => absurd same slash)
    bound
  have here := drop_suffix feed
  have long := feed.length_le
  rw [← size] at here long
  have ended := @quoteEnd_eq rest text
    (parser.m_fileSize - ('"'.toUInt8 :: (text ++ ascii "\"" ++ rest)).length + 1) inside
  have stop : parser.m_fileSize - ('"'.toUInt8 :: (text ++ ascii "\"" ++ rest)).length + 1 + text.length =
      parser.m_fileSize - (ascii "\"" ++ rest).length := by
    simp only [List.length_cons, List.length_append] at long ⊢
    omega
  have count : parser.m_fileSize - (ascii "\"" ++ rest).length -
      (parser.m_fileSize - ('"'.toUInt8 :: (text ++ ascii "\"" ++ rest)).length + 1) = text.length := by
    rw [← stop]
    omega
  rw [stop] at ended
  rw [getStringWord, found, Option.bind_some]
  simp only [if_true, before, here, ne_eq, not_true_eq_false, if_false, ended, Option.map_some, count]
  rw [List.append_assoc, List.take_left]

/-- The lookups find an entry of the namespace that one slot is the only one to have the name of. -/
theorem NameSpace.recovers (size : parser.m_fileSize = parser.m_fileBuffer.length) (wellFormed : nameSpace.WellFormed)
    (quiet : nameSpace.Quiet) (slot : i < MAX_NAMESPACE_COUNT)
    (only : ∀ j < MAX_NAMESPACE_COUNT, nameSpace.name = parser.m_nsStr j ↔ j = i)
    (pos : parser.m_nsPos i = parser.m_fileSize - (nameSpace.body ++ rest).length)
    (max : parser.m_nsMaxPos i = parser.m_fileSize - (nameSpace.afterClose ++ rest).length)
    (suffix : nameSpace.body ++ rest <:+ parser.m_fileBuffer)
    (place : nameSpace.entries = earlier ++ entry :: later) : Recovers parser nameSpace entry := by
  have member : entry ∈ nameSpace.entries := by
    rw [place]
    exact List.mem_append_right _ List.mem_cons_self
  have fine := wellFormed.entries entry member
  generalize behind : later.flatMap Entry.text ++ (ascii "\x7d" ++ (nameSpace.afterClose ++ rest)) = others
  have text : nameSpace.body ++ rest =
      (nameSpace.opening ++ earlier.flatMap Entry.text) ++ (entry.text ++ others) := by
    simp only [NameSpace.body, place, List.flatMap_append, List.flatMap_cons, List.append_assoc, behind]
  have shorter : (nameSpace.afterClose ++ rest).length ≤ others.length := by
    simp only [← behind, List.length_append]
    omega
  generalize same : { parser with m_maxNameSpace := parser.m_nsMaxPos i } = here
  have start : parser.atSlot i = here.before (nameSpace.body ++ rest) := by
    rw [atSlot, pos, ← same]
    rfl
  have size' : here.m_fileSize = here.m_fileBuffer.length := by
    rw [← same]
    exact size
  have bound : here.m_fileSize ≤ here.m_maxNameSpace + others.length := by
    rw [← same]
    change parser.m_fileSize ≤ parser.m_nsMaxPos i + others.length
    omega
  rw [text] at suffix start
  have lookup {V : Type} (value : CTextParser → Result V) : parser.getValue value entry.key nameSpace.name =
      value (here.before (entry.afterEquals ++ (entry.value.text ++ (entry.afterValue ++ others)))) := by
    have found := findNameSpace_eq wellFormed.name.1.1 slot only
    rw [getValue, found, start]
    refine valueLoop_entry size' bound fine (NameSpace.before_entry wellFormed quiet place) ?_
    rw [← same]
    exact suffix
  have feed : entry.afterEquals ++ (entry.value.text ++ (entry.afterValue ++ others)) <:+ here.m_fileBuffer := by
    rw [Entry.text_append] at suffix
    have file : here.m_fileBuffer = parser.m_fileBuffer := by rw [← same]
    rw [file]
    exact (List.suffix_append (ascii "=") _).trans ((List.suffix_append entry.afterKey _).trans
      ((List.suffix_append entry.key _).trans ((List.suffix_append _ _).trans suffix)))
  have space := List.length_pos_iff.mpr fine.afterValue.1
  have bound' : here.m_fileSize < here.m_maxNameSpace + (entry.value.text ++ (entry.afterValue ++ others)).length := by
    simp only [List.length_append]
    omega
  have value := fine.value
  rw [Recovers]
  cases kind : entry.value with
  | int negative digits =>
    rw [kind] at value feed bound'
    have plain := @Value.plain_int negative digits value.1
    have read := getNextWord_gap size' fine.afterEquals.split plain.1 fine.afterValue feed bound'
    refine ⟨here.before (entry.afterValue ++ others), ?_⟩
    rw [getValueInt, lookup, kind, read, Option.bind_some]
    simp only [chWord_eq value.2.1 plain.2, Option.map_some, atoi_text value]
  | str text =>
    rw [kind] at value feed bound'
    have read := getStringWord_eq size' fine.afterEquals.split value.2.1 feed bound'
    refine ⟨here.before (ascii "\"" ++ (entry.afterValue ++ others)), ?_⟩
    rw [getValueString, lookup, kind, read, Option.bind_some]
    simp only [if_true, Option.getD_some, chWord_eq value.1 value.2.2, Option.map_some]

end Lookup

/-- A name of the configuration is in no slot behind the namespaces read, whatever was there before. -/
def Unused (parser : CTextParser) (config : Config) : Prop := ∀ nameSpace ∈ config.nameSpaces,
  ∀ i, config.nameSpaces.length ≤ i → i < MAX_NAMESPACE_COUNT → parser.m_nsStr i ≠ nameSpace.name

theorem loaded_only {config : Config} {i : ℕ} (wellFormed : config.WellFormed) (unused : parser.Unused config)
    (below : i < config.nameSpaces.length) (j : ℕ) (slot : j < MAX_NAMESPACE_COUNT) :
    config.nameSpaces[i].name = (parser.loaded config).m_nsStr j ↔ j = i := by
  by_cases read : j < config.nameSpaces.length
  · obtain ⟨-, -, str⟩ := @recorded_at (parser.started config.text) config.nameSpaces 0 j read
    rw [Nat.zero_add] at str
    have apart := @List.Nodup.getElem_inj_iff _ _ wellFormed.names i (by simpa using below) j (by simpa using read)
    simp only [List.getElem_map] at apart
    rw [loaded, str, apart, eq_comm]
  · obtain ⟨-, -, str⟩ := @recorded_outside (parser.started config.text) config.nameSpaces 0 j (.inr (by omega))
    have other := unused _ (List.getElem_mem below) j (by omega) slot
    rw [loaded, str]
    exact ⟨fun same => absurd same.symm other, fun same => by omega⟩

theorem body_suffix {nameSpaces : List NameSpace} {i : ℕ} (below : i < nameSpaces.length) :
    nameSpaces[i].body ++ (nameSpaces.drop (i + 1)).flatMap NameSpace.text <:+ nameSpaces.flatMap NameSpace.text := by
  have parts : nameSpaces.flatMap NameSpace.text = (nameSpaces.take i).flatMap NameSpace.text ++
      (ascii ":" ++ nameSpaces[i].name) ++ (nameSpaces[i].body ++ (nameSpaces.drop (i + 1)).flatMap NameSpace.text) := by
    nth_rewrite 1 [← List.take_append_drop i nameSpaces, List.drop_eq_getElem_cons below]
    simp only [List.flatMap_append, List.flatMap_cons, NameSpace.text, List.append_assoc]
  rw [parts]
  exact List.suffix_append _ _

/-- The lookups in a quiet configuration find every value. -/
theorem config_lookup (parser : CTextParser) (config : Config) (wellFormed : config.WellFormed)
    (quiet : ∀ nameSpace ∈ config.nameSpaces, nameSpace.Quiet) (unused : parser.Unused config) :
    parser.FindsAll config := by
  refine ⟨parser.loaded config, loadText_eq wellFormed quiet, ?_⟩
  intro m_curPos m_maxNameSpace nameSpace member entry inside
  obtain ⟨earlier, later, place⟩ := List.append_of_mem inside
  obtain ⟨i, below, rfl⟩ := List.getElem_of_mem member
  obtain ⟨pos, max, -⟩ := @recorded_at (parser.started config.text) config.nameSpaces 0 i below
  have size : (parser.loaded config).m_fileSize = config.text.length := recorded_m_fileSize
  have file : (parser.loaded config).m_fileBuffer = config.text := recorded_m_fileBuffer
  have begins : (parser.started config.text).m_fileSize = (parser.loaded config).m_fileSize := size.symm
  have suffix : config.nameSpaces[i].body ++ (config.nameSpaces.drop (i + 1)).flatMap NameSpace.text <:+
      (parser.loaded config).m_fileBuffer := by
    rw [file]
    exact (body_suffix below).trans (List.suffix_append config.lead _)
  rw [Nat.zero_add, begins] at pos max
  exact NameSpace.recovers (size.trans (congrArg List.length file.symm)) (wellFormed.nameSpaces _ member)
    (quiet _ member) (Nat.lt_of_lt_of_le below wellFormed.few) (loaded_only wellFormed unused below) pos max suffix place

/-- A parser whose arrays are zero. -/
def fresh : CTextParser := ⟨0, [], 0, 0, fun _ => 0, fun _ => 0, fun _ => []⟩

/-- The server's own file. -/
def serverInfo : Config where
  lead := []
  nameSpaces := [{
    name := ascii "ServerInfo"
    afterName := [0x0a]
    afterOpen := [0x0a, 0x20]
    entries := [⟨ascii "PORT", [0x20], [0x20], .int false [6, 0, 0, 0], [0x0a, 0x20]⟩,
      ⟨ascii "IP", [0x20], [0x20], .str (ascii "127.0.0.1"), [0x0a]⟩]
    afterClose := [0x20] }]

theorem config_lookup_serverInfo : fresh.FindsAll serverInfo := by
  refine config_lookup fresh serverInfo ⟨List.forall_mem_nil _, by decide, by decide, ?_⟩ ?_ ?_
  · simp only [serverInfo, List.forall_mem_singleton]
    refine ⟨by decide, ?_, by decide, by decide, by decide, by decide⟩
    simp only [List.forall_mem_cons, List.not_mem_nil, false_imp_iff, implies_true, and_true]
    constructor <;> constructor <;> decide
  · simp only [serverInfo, List.forall_mem_singleton]
    intro entry later suffix
    simp only [List.suffix_cons_iff, List.cons.injEq, List.suffix_nil, reduceCtorEq, or_false] at suffix
    rcases suffix with ⟨rfl, rfl⟩ | ⟨rfl, rfl⟩ <;> exact ⟨by decide, by decide⟩
  · simp only [Unused, serverInfo, List.forall_mem_singleton]
    intro i _ _
    have other : ([] : List UInt8) ≠ ascii "ServerInfo" := by decide
    exact other

/-- A string with a closing brace in it, and an entry behind it. -/
def braceInside : Config where
  lead := []
  nameSpaces := [{
    name := ascii "A"
    afterName := [0x20]
    afterOpen := [0x20]
    entries := [⟨ascii "S", [0x20], [0x20], .str (ascii "a \x7d b"), [0x20]⟩,
      ⟨ascii "K", [0x20], [0x20], .int false [5], [0x20]⟩]
    afterClose := [0x20] }]

/-- The lookup of the entry returns true and writes no value. -/
theorem brace_ends_nameSpace : braceInside.WellFormed ∧
    ((fresh.loadText (some braceInside.text)).bind fun loaded => (loaded.2.getValueInt (ascii "K") (ascii "A")).map
      Prod.fst) = some (true, none) ∧ ¬fresh.FindsAll braceInside := by
  have silent : ((fresh.loadText (some braceInside.text)).bind fun loaded =>
      (loaded.2.getValueInt (ascii "K") (ascii "A")).map Prod.fst) = some (true, none) := by
    decide
  refine ⟨⟨List.forall_mem_nil _, by decide, by decide, ?_⟩, silent, ?_⟩
  · simp only [braceInside, List.forall_mem_singleton]
    refine ⟨by decide, ?_, by decide, by decide, by decide, by decide⟩
    simp only [List.forall_mem_cons, List.not_mem_nil, false_imp_iff, implies_true, and_true]
    constructor <;> constructor <;> decide
  · rintro ⟨loaded, load, found⟩
    obtain ⟨next, value⟩ := found loaded.m_curPos loaded.m_maxNameSpace _ List.mem_cons_self
      ⟨ascii "K", [0x20], [0x20], .int false [5], [0x20]⟩ (List.mem_cons_of_mem _ List.mem_cons_self)
    rw [load, Option.bind_some] at silent
    change loaded.getValueInt (ascii "K") (ascii "A") = _ at value
    rw [value] at silent
    cases silent

end LockFreeCore.CTextParser
