import LockFreeCore.Model.BotConfig
import LockFreeCore.Proofs.CTextParser.Config

/-! # A settings file means what its lines say

A line sets a number, sets the list, or is ignored. Whatever the lines and the white space, the empty entries of
the list and what trails the numbers, each setting is what the last line for it says, and without one its default.
-/

namespace LockFreeCore.BotConfig

open CTextParser (ascii atoi char number Value)

/-! ## Pieces of a text -/

theorem getlines_cons_ne {delim c : UInt8} (other : c ≠ delim) (rest : List UInt8) :
    getlines delim (c :: rest) = (c :: (getlines delim rest).headD []) :: (getlines delim rest).tail := by
  rw [getlines, if_neg other]
  cases getlines delim rest <;> rfl

/-- A piece without delimiters, up to the next one. -/
theorem getlines_append {delim : UInt8} {piece : List UInt8} (plain : delim ∉ piece) (rest : List UInt8) :
    getlines delim (piece ++ delim :: rest) = piece :: getlines delim rest := by
  induction piece with
  | nil => rw [List.nil_append, getlines, if_pos rfl]
  | cons c piece ih =>
    rw [List.mem_cons, not_or] at plain
    rw [List.cons_append, getlines_cons_ne (Ne.symm plain.1), ih plain.2]
    rfl

theorem getlines_last {delim : UInt8} {piece : List UInt8} (plain : delim ∉ piece) :
    getlines delim piece = [piece].filter fun line => line ≠ [] := by
  induction piece with
  | nil => rfl
  | cons c piece ih =>
    rw [List.mem_cons, not_or] at plain
    rw [getlines_cons_ne (Ne.symm plain.1), ih plain.2]
    cases piece <;> rfl

/-- Pieces that are joined with the delimiter are found again, but for empty ones. -/
theorem getlines_intercalate {delim : UInt8} {pieces : List (List UInt8)} (plain : ∀ piece ∈ pieces, delim ∉ piece) :
    (getlines delim ([delim].intercalate pieces)).filter (fun line => line ≠ []) =
      pieces.filter fun line => line ≠ [] := by
  induction pieces with
  | nil => rfl
  | cons piece rest ih =>
    obtain ⟨here, plain⟩ := List.forall_mem_cons.mp plain
    cases rest with
    | nil =>
      rw [List.intercalate_singleton, getlines_last here, List.filter_filter]
      simp
    | cons next rest =>
      have joined : [delim].intercalate (piece :: next :: rest) = piece ++ delim :: [delim].intercalate (next :: rest) := by
        rw [List.intercalate_cons_cons, List.append_assoc, List.singleton_append]
      rw [joined, getlines_append here]
      simp only [List.filter_cons, ih plain]

/-! ## Numbers -/

/-- What `atoi` passes over. -/
def White (c : UInt8) : Prop := c = 0x20 ∨ (0x09 ≤ c ∧ c ≤ 0x0d)

def Digit (c : UInt8) : Prop := '0'.toUInt8 ≤ c ∧ c ≤ '9'.toUInt8

instance (c : UInt8) : Decidable (White c) := inferInstanceAs (Decidable (_ ∨ _))

instance (c : UInt8) : Decidable (Digit c) := inferInstanceAs (Decidable (_ ∧ _))

/-- A number as a line spells it: white space, a sign and digits, and what trails them. -/
structure Numeral where
  lead : List UInt8
  negative : Bool
  digits : List (Fin 10)
  trail : List UInt8
deriving DecidableEq

namespace Numeral

def text (numeral : Numeral) : List UInt8 :=
  numeral.lead ++ ((Value.int numeral.negative numeral.digits).text ++ numeral.trail)

def value (numeral : Numeral) : ℤ := number numeral.negative numeral.digits

/-- An `int` with no digit behind its digits. -/
structure WellFormed (numeral : Numeral) : Prop where
  lead : ∀ c ∈ numeral.lead, White c
  digits : numeral.digits ≠ []
  trail : ∀ c ∈ numeral.trail.head?, ¬Digit c
  least : -2 ^ 31 ≤ numeral.value
  most : numeral.value < 2 ^ 31

-- Not by way of the finitely many bytes.
instance (numeral : Numeral) : Decidable numeral.WellFormed :=
  have := List.decidableBAll White numeral.lead
  have := Option.decidableForallMem (p := fun c => ¬Digit c) (o := numeral.trail.head?)
  decidable_of_iff ((∀ c ∈ numeral.lead, White c) ∧ numeral.digits ≠ [] ∧ (∀ c ∈ numeral.trail.head?, ¬Digit c) ∧
      -2 ^ 31 ≤ numeral.value ∧ numeral.value < 2 ^ 31)
    ⟨fun ⟨lead, digits, trail, least, most⟩ => ⟨lead, digits, trail, least, most⟩,
      fun fine => ⟨fine.lead, fine.digits, fine.trail, fine.least, fine.most⟩⟩

end Numeral

theorem Numeral.WellFormed.atoi {numeral : Numeral} (fine : numeral.WellFormed) : atoi numeral.text = numeral.value :=
  CTextParser.atoi_numeral fine.lead fine.trail fine.digits fine.least fine.most

/-! ## Lines -/

/-- The settings that are one number. -/
inductive Setting where
  | packetsPerConn
  | repeatIterations
  | sustainSeconds
deriving DecidableEq, Repr

def Setting.key : Setting → List UInt8
  | packetsPerConn => ascii "packets_per_conn"
  | repeatIterations => ascii "repeat_iterations"
  | sustainSeconds => ascii "sustain_seconds"

def Setting.store (cfg : BotConfig) (value : ℤ) : Setting → BotConfig
  | packetsPerConn => { cfg with packetsPerConn := value }
  | repeatIterations => { cfg with repeatIterations := value }
  | sustainSeconds => { cfg with sustainSeconds := value }

/-- A line sets one number, or the list, between whose commas there may be nothing, or says nothing. -/
inductive Line where
  | number (setting : Setting) (value : Numeral)
  | ccuList (tokens : List (Option Numeral))
  | other (text : List UInt8)
deriving DecidableEq

/-- A line that sets something is not blank and no comment, and a setting stands before its first `=`. -/
def Says (text : List UInt8) : Prop :=
  (text.find? fun c => !isSpace c).any (· ≠ '#'.toUInt8) ∧ (text.findIdx? (· = '='.toUInt8)).any fun eq =>
    text.take eq ∈ [ascii "ccu_list", ascii "packets_per_conn", ascii "repeat_iterations", ascii "sustain_seconds"]

instance (text : List UInt8) : Decidable (Says text) := inferInstanceAs (Decidable (_ ∧ _))

namespace Line

def token : Option Numeral → List UInt8
  | some numeral => numeral.text
  | none => []

def text : Line → List UInt8
  | number setting value => setting.key ++ '='.toUInt8 :: value.text
  | ccuList tokens => ascii "ccu_list" ++ '='.toUInt8 :: ([','.toUInt8].intercalate (tokens.map token))
  | other text => text

/-- Its parts are what they stand for, and it is one line. -/
def Proper : Line → Prop
  | number _ value => value.WellFormed
  | ccuList tokens => ∀ token ∈ tokens, ∀ numeral ∈ token, numeral.WellFormed ∧ ','.toUInt8 ∉ numeral.text
  | other text => ¬Says text

instance : (line : Line) → Decidable line.Proper
  | number _ value => inferInstanceAs (Decidable value.WellFormed)
  | ccuList tokens => inferInstanceAs (Decidable (∀ token ∈ tokens, ∀ numeral ∈ token, _ ∧ _))
  | other text => inferInstanceAs (Decidable ¬Says text)

structure WellFormed (line : Line) : Prop where
  oneLine : '\n'.toUInt8 ∉ line.text
  proper : line.Proper

instance (line : Line) : Decidable line.WellFormed :=
  decidable_of_iff ('\n'.toUInt8 ∉ line.text ∧ line.Proper)
    ⟨fun ⟨oneLine, proper⟩ => ⟨oneLine, proper⟩, fun fine => ⟨fine.oneLine, fine.proper⟩⟩

/-- What a line makes of the settings. -/
def set (cfg : BotConfig) : Line → BotConfig
  | number setting value => setting.store cfg value.value
  | ccuList tokens => { cfg with ccuList := (tokens.filterMap id).map Numeral.value }
  | other _ => cfg

end Line

/-- A line that begins with a key and an equals sign. -/
theorem readLine_key {key : List UInt8} (cfg : BotConfig) (value : List UInt8)
    (letters : ∃ c rest, key = c :: rest ∧ isSpace c = false ∧ c ≠ '#'.toUInt8) (plain : '='.toUInt8 ∉ key) :
    cfg.readLine (key ++ '='.toUInt8 :: value) =
      if key = ascii "ccu_list" then
        { cfg with ccuList := ((getlines ','.toUInt8 value).filter fun tok => tok ≠ []).map atoi }
      else if key = ascii "packets_per_conn" then { cfg with packetsPerConn := atoi value }
      else if key = ascii "repeat_iterations" then { cfg with repeatIterations := atoi value }
      else if key = ascii "sustain_seconds" then { cfg with sustainSeconds := atoi value }
      else cfg := by
  obtain ⟨c, rest, rfl, letter, mark⟩ := letters
  have first : ((c :: rest) ++ '='.toUInt8 :: value).find? (fun c => !isSpace c) = some c := by
    rw [List.cons_append, List.find?_cons_of_pos (by rw [letter]; rfl)]
  have here : ((c :: rest) ++ '='.toUInt8 :: value).findIdx? (· = '='.toUInt8) = some (c :: rest).length := by
    have none : (c :: rest).findIdx? (· = '='.toUInt8) = .none :=
      List.findIdx?_eq_none_iff.mpr fun x member => decide_eq_false fun same => plain (same ▸ member)
    rw [List.findIdx?_append, none, List.findIdx?_cons]
    simp
  have behind : ((c :: rest) ++ '='.toUInt8 :: value).drop ((c :: rest).length + 1) = value := by
    rw [← List.drop_drop, List.drop_left, List.drop_one, List.tail_cons]
  rw [readLine, first]
  simp only [if_neg mark, here, List.take_left, behind]

theorem Setting.letters (setting : Setting) :
    (∃ c rest, setting.key = c :: rest ∧ isSpace c = false ∧ c ≠ '#'.toUInt8) ∧ '='.toUInt8 ∉ setting.key := by
  cases setting with
  | packetsPerConn => exact ⟨⟨_, _, rfl, by decide, by decide⟩, by decide⟩
  | repeatIterations => exact ⟨⟨_, _, rfl, by decide, by decide⟩, by decide⟩
  | sustainSeconds => exact ⟨⟨_, _, rfl, by decide, by decide⟩, by decide⟩

theorem readLine_number (cfg : BotConfig) (setting : Setting) {value : Numeral} (fine : value.WellFormed) :
    cfg.readLine (Line.number setting value).text = setting.store cfg value.value := by
  obtain ⟨letters, plain⟩ := setting.letters
  rw [Line.text, readLine_key cfg value.text letters plain, fine.atoi]
  cases setting with
  | packetsPerConn => exact (if_neg (by decide)).trans (if_pos rfl)
  | repeatIterations => exact (if_neg (by decide)).trans ((if_neg (by decide)).trans (if_pos rfl))
  | sustainSeconds =>
    exact (if_neg (by decide)).trans ((if_neg (by decide)).trans ((if_neg (by decide)).trans (if_pos rfl)))

theorem Numeral.text_ne_nil {numeral : Numeral} (fine : numeral.WellFormed) : numeral.text ≠ [] := by
  have digits := fine.digits
  intro empty
  rw [text, Value.text] at empty
  simp_all

/-- The entries of the list that are not empty. -/
theorem atoi_tokens {tokens : List (Option Numeral)} (fine : ∀ token ∈ tokens, ∀ numeral ∈ token, numeral.WellFormed) :
    ((tokens.map Line.token).filter fun tok => tok ≠ []).map atoi = (tokens.filterMap id).map Numeral.value := by
  induction tokens with
  | nil => rfl
  | cons token rest ih =>
    obtain ⟨first, others⟩ := List.forall_mem_cons.mp fine
    cases token with
    | none => exact ih others
    | some numeral =>
      have here := first numeral rfl
      have there : decide (numeral.text ≠ []) = true := decide_eq_true (Numeral.text_ne_nil here)
      rw [List.map_cons, Line.token, List.filter_cons, if_pos there, List.map_cons, ih others, here.atoi]
      rfl

theorem readLine_ccuList (cfg : BotConfig) {tokens : List (Option Numeral)}
    (fine : ∀ token ∈ tokens, ∀ numeral ∈ token, numeral.WellFormed ∧ ','.toUInt8 ∉ numeral.text) :
    cfg.readLine (Line.ccuList tokens).text = { cfg with ccuList := (tokens.filterMap id).map Numeral.value } := by
  have plain : ∀ piece ∈ tokens.map Line.token, ','.toUInt8 ∉ piece := by
    intro piece member
    obtain ⟨token, inside, rfl⟩ := List.mem_map.mp member
    cases token with
    | none => exact List.not_mem_nil
    | some numeral => exact (fine _ inside numeral rfl).2
  have letters : ∃ c rest, ascii "ccu_list" = c :: rest ∧ isSpace c = false ∧ c ≠ '#'.toUInt8 :=
    ⟨_, _, rfl, by decide, by decide⟩
  rw [Line.text, readLine_key cfg _ letters (by decide), if_pos rfl, getlines_intercalate plain,
    atoi_tokens fun token inside numeral here => (fine token inside numeral here).1]

theorem readLine_other (cfg : BotConfig) {text : List UInt8} (silent : ¬Says text) : cfg.readLine text = cfg := by
  rw [readLine]
  cases first : text.find? fun c => !isSpace c with
  | none => rfl
  | some c =>
    by_cases comment : c = '#'.toUInt8
    · exact if_pos comment
    · cases here : text.findIdx? (· = '='.toUInt8) with
      | none => exact if_neg comment
      | some eq =>
        have unknown : text.take eq ∉
            [ascii "ccu_list", ascii "packets_per_conn", ascii "repeat_iterations", ascii "sustain_seconds"] := by
          intro known
          refine silent ⟨?_, ?_⟩
          · rw [first]
            exact decide_eq_true comment
          · rw [here]
            exact decide_eq_true known
        simp only [List.mem_cons, List.not_mem_nil, or_false, not_or] at unknown
        obtain ⟨list, packets, repetitions, seconds⟩ := unknown
        simp only [if_neg comment, if_neg list, if_neg packets, if_neg repetitions, if_neg seconds]

theorem Line.WellFormed.read {line : Line} (fine : line.WellFormed) (cfg : BotConfig) :
    cfg.readLine line.text = line.set cfg := by
  cases line with
  | number setting value => exact readLine_number cfg setting fine.proper
  | ccuList tokens => exact readLine_ccuList cfg fine.proper
  | other text => exact readLine_other cfg fine.proper

/-! ## The file -/

/-- A piece that is empty says nothing. -/
theorem foldl_readLine_filter (cfg : BotConfig) (lines : List (List UInt8)) :
    (lines.filter fun line => line ≠ []).foldl readLine cfg = lines.foldl readLine cfg := by
  induction lines generalizing cfg with
  | nil => rfl
  | cons line rest ih =>
    cases line with
    | nil => exact ih cfg
    | cons c line => exact ih _

/-- The text of some lines. -/
def fileText (lines : List Line) : List UInt8 := ['\n'.toUInt8].intercalate (lines.map Line.text)

/-- The settings that a file is read as are those that its lines set, one after another from the defaults on. A
file whose last line is ended has an empty line behind it. -/
theorem loadConfig_fileText (lines : List Line) (wellFormed : ∀ line ∈ lines, line.WellFormed) :
    loadConfig (some (fileText lines)) = lines.foldl Line.set {} := by
  have plain : ∀ piece ∈ lines.map Line.text, '\n'.toUInt8 ∉ piece := by
    intro piece member
    obtain ⟨line, inside, rfl⟩ := List.mem_map.mp member
    exact (wellFormed line inside).oneLine
  rw [loadConfig, fileText, ← foldl_readLine_filter, getlines_intercalate plain, foldl_readLine_filter, List.foldl_map]
  exact List.foldl_ext _ _ _ fun cfg line inside => (wellFormed line inside).read cfg

/-- Two lists, of which the last one counts, with an entry that is empty and one that trails off. -/
theorem loadConfig_fileText_twice :
    let lines : List Line := [.other (ascii "# packets_per_conn=7"), .ccuList [some ⟨[], false, [9], []⟩],
      .number .packetsPerConn ⟨[0x20], false, [5, 0], ascii " a client"⟩,
      .ccuList [some ⟨[], false, [1, 0, 0], []⟩, none, some ⟨[], true, [2], [0x20]⟩], .other []]
    loadConfig (some (fileText lines)) = lines.foldl Line.set {} := by
  refine loadConfig_fileText _ ?_
  simp only [List.forall_mem_cons]
  refine ⟨?_, ?_, ?_, ?_, ?_, fun _ member => absurd member List.not_mem_nil⟩
  · decide
  · decide
  · decide
  · decide
  · decide

end LockFreeCore.BotConfig
