import LockFreeCore.ToMathlib.Words
import Mathlib.Algebra.Order.Ring.Int

/-! # The configuration parser

`char*` pointers into the file are what is left of it from there on, and a read behind the end of the file has no
defined result and is `none`, as is a word of 256 bytes or more in a `chWord` and a twenty-first namespace. The
loops are given fuel, which the bytes of the file bound. What `m_nsStr` holds before the first namespace is
written may be anything, so it is a field of the parser that `loadText` is called on.
-/

namespace LockFreeCore

def MAX_NAMESPACE_COUNT : ℕ := 20

structure CTextParser where
  m_fileSize : ℕ
  m_fileBuffer : List UInt8
  m_curPos : ℕ
  m_maxNameSpace : ℕ
  m_nsPos : ℕ → ℕ
  m_nsMaxPos : ℕ → ℕ
  m_nsStr : ℕ → List UInt8

namespace CTextParser

/-- The bytes of a text. -/
def ascii (text : String) : List UInt8 := text.toList.map Char.toUInt8

/-- What ends a word in `getNextWord`. -/
def ends (c : UInt8) : Bool := c = ','.toUInt8 ∨ c = 0x20 ∨ c = 0x08 ∨ c = 0x09 ∨ c = 0x0a ∨ c = 0x0d

/-- What `skipNoneCommand` passes over. -/
def skipped (c : UInt8) : Bool := c = '.'.toUInt8 ∨ ends c

/-- A comment begins at the pointer; the byte behind it is read only after a slash. -/
def comment : List UInt8 → Option Bool
  | [] => none
  | c :: rest => if c = '/'.toUInt8 then rest.head?.map (· = '/'.toUInt8) else some false

/-- The inner loop of `skipNoneCommand`, up to the line feed: whether it gets there, and where it stops. -/
def skipLine (m_maxNameSpace : ℕ) : List UInt8 → ℕ → Option (Bool × ℕ)
  | [], _ => none
  | c :: chpBuffer, m_curPos =>
    if c = 0x0a then some (true, m_curPos)
    else if m_maxNameSpace ≤ m_curPos then some (false, m_curPos)
    else skipLine m_maxNameSpace chpBuffer (m_curPos + 1)

/-- The loop of `skipNoneCommand`. -/
def skipLoop (m_fileBuffer : List UInt8) (m_maxNameSpace : ℕ) : ℕ → ℕ → Option (Bool × ℕ)
  | 0, _ => none
  | fuel + 1, m_curPos =>
    if m_maxNameSpace ≤ m_curPos then some (false, m_curPos)
    else
      (comment (m_fileBuffer.drop m_curPos)).bind fun slashes =>
        (if slashes then skipLine m_maxNameSpace (m_fileBuffer.drop m_curPos) m_curPos
          else some (true, m_curPos)).bind fun (goes, m_curPos) =>
          if goes then
            m_fileBuffer[m_curPos]?.bind fun c =>
              if skipped c then skipLoop m_fileBuffer m_maxNameSpace fuel (m_curPos + 1) else some (true, m_curPos)
          else some (false, m_curPos)

/-- Where the word ends that the pointer is inside of. -/
def wordEnd : List UInt8 → ℕ → Option ℕ
  | [], _ => none
  | c :: chpBuffer, m_curPos =>
    (comment (c :: chpBuffer)).bind fun slashes =>
      if slashes ∨ ends c then some m_curPos else wordEnd chpBuffer (m_curPos + 1)

/-- Where the closing quote is. -/
def quoteEnd : List UInt8 → ℕ → Option ℕ
  | [], _ => none
  | c :: chpBuffer, m_curPos => if c = '"'.toUInt8 then some m_curPos else quoteEnd chpBuffer (m_curPos + 1)

/-- `chWord` after it is cleared and a word is copied to it, as a C string. -/
def chWord (word : List UInt8) : Option (List UInt8) :=
  if word.length < 256 then some (word.takeWhile (· ≠ 0)) else none

/-- `atoi`: white space, a sign, and digits up to the first other byte; a number that is no `int` becomes the
nearest one. -/
def atoi (text : List UInt8) : ℤ :=
  let text := text.dropWhile fun c => c = 0x20 ∨ (0x09 ≤ c ∧ c ≤ 0x0d)
  let digits := match text with
    | c :: rest => if c = '-'.toUInt8 ∨ c = '+'.toUInt8 then rest else text
    | [] => []
  let digits := digits.takeWhile fun c => '0'.toUInt8 ≤ c ∧ c ≤ '9'.toUInt8
  let number : ℤ := digits.foldl (fun number c => 10 * number + (c.toNat - 48 : ℕ)) 0
  let number := if text.head? = some '-'.toUInt8 then -number else number
  max (-2 ^ 31) (min number (2 ^ 31 - 1))

variable (parser : CTextParser)

def skipNoneCommand : Option (Bool × CTextParser) :=
  (skipLoop parser.m_fileBuffer parser.m_maxNameSpace (parser.m_fileSize + 1) parser.m_curPos).map
    fun (found, m_curPos) => (found, { parser with m_curPos := m_curPos })

/-- `getNextWord`, with the word that `chppBuffer` and `ipLength` describe. -/
def getNextWord : Option (Option (List UInt8) × CTextParser) :=
  parser.skipNoneCommand.bind fun (found, parser) =>
    if found then
      let chpBuffer := parser.m_fileBuffer.drop parser.m_curPos
      (wordEnd chpBuffer parser.m_curPos).map fun m_curPos =>
        (some (chpBuffer.take (m_curPos - parser.m_curPos)), { parser with m_curPos := m_curPos })
    else some (none, parser)

/-- `getStringWord`, with the string that `chppBuffer` and `ipLength` describe when it sets them. -/
def getStringWord : Option ((Bool × Option (List UInt8)) × CTextParser) :=
  parser.skipNoneCommand.bind fun (found, parser) =>
    if found then
      match parser.m_fileBuffer.drop parser.m_curPos with
      | [] => none
      | c :: chpBuffer =>
        if c ≠ '"'.toUInt8 then some ((false, none), parser)
        else
          let startPos := parser.m_curPos + 1
          (quoteEnd chpBuffer startPos).map fun m_curPos =>
            ((true, some (chpBuffer.take (m_curPos - startPos))), { parser with m_curPos := m_curPos })
    else some ((true, none), parser)

/-- The inner loop of `checkNameSpace`, up to the word `}`. -/
def closeLoop (NsCount : ℕ) : ℕ → CTextParser → Option CTextParser
  | 0, _ => none
  | fuel + 1, parser =>
    parser.getNextWord.bind fun (word, parser) =>
      match word with
      | none => some parser
      | some word =>
        (chWord word).bind fun word =>
          if word = ascii "\x7d" then
            some { parser with m_nsMaxPos := Function.update parser.m_nsMaxPos NsCount parser.m_curPos }
          else closeLoop NsCount fuel parser

/-- The outer loop of `checkNameSpace`. -/
def nameLoop : ℕ → ℕ → CTextParser → Option CTextParser
  | 0, _, _ => none
  | fuel + 1, NsCount, parser =>
    parser.getNextWord.bind fun (word, parser) =>
      match word with
      | none => some parser
      | some word =>
        if word.head? = some ':'.toUInt8 then
          (chWord word.tail).bind fun name =>
            if NsCount < MAX_NAMESPACE_COUNT then
              (closeLoop NsCount (parser.m_fileSize + 1) { parser with
                m_nsPos := Function.update parser.m_nsPos NsCount parser.m_curPos
                m_nsStr := Function.update parser.m_nsStr NsCount name }).bind fun parser =>
                nameLoop fuel (NsCount + 1) parser
            else none
        else nameLoop fuel NsCount parser

def checkNameSpace : Option CTextParser :=
  (nameLoop (parser.m_fileSize + 1) 0 { parser with
    m_curPos := 0
    m_maxNameSpace := parser.m_fileSize
    m_nsPos := fun _ => 0
    m_nsMaxPos := fun _ => parser.m_fileSize }).map fun parser => { parser with m_curPos := 0 }

/-- `loadText` of a file with these bytes, or of one that cannot be opened. -/
def loadText : Option (List UInt8) → Option (Bool × CTextParser)
  | none => some (false, parser)
  | some file =>
    (checkNameSpace { parser with m_fileSize := file.length, m_fileBuffer := file }).map fun parser => (true, parser)

/-- The parser set to the namespace of a slot. -/
def atSlot (i : ℕ) : CTextParser :=
  { parser with m_curPos := parser.m_nsPos i, m_maxNameSpace := parser.m_nsMaxPos i }

/-- One turn of the search for a namespace. -/
def findSlot (NameSpace : List UInt8) (found : Bool × CTextParser) (i : ℕ) : Bool × CTextParser :=
  if NameSpace = found.2.m_nsStr i then (true, found.2.atSlot i) else found

/-- The first part of the `getValue` functions: whether the namespace is found; the last one of the name is taken. -/
def findNameSpace (NameSpace : List UInt8) : Bool × CTextParser :=
  if NameSpace = [] then (true, { parser with m_curPos := 0, m_maxNameSpace := parser.m_fileSize })
  else (List.range MAX_NAMESPACE_COUNT).foldl (findSlot NameSpace) (false, parser)

section Values

variable {V : Type*}

/-- What a `getValue` function returns, and what it writes to `ipValue`. -/
abbrev Result (V : Type*) := Option ((Bool × Option V) × CTextParser)

/-- The loop of the `getValue` functions; `value` reads what follows the equals sign. -/
def valueLoop (value : CTextParser → Result V) (szName : List UInt8) : ℕ → CTextParser → Result V
  | 0, _ => none
  | fuel + 1, parser =>
    parser.getNextWord.bind fun (word, parser) =>
      match word with
      | none => some ((true, none), parser)
      | some word =>
        (chWord word).bind fun word =>
          if szName = word then
            parser.getNextWord.bind fun (word, parser) =>
              match word with
              | none => some ((false, none), parser)
              | some word =>
                (chWord word).bind fun word =>
                  if word = ascii "=" then value parser else some ((false, none), parser)
          else valueLoop value szName fuel parser

def getValue (value : CTextParser → Result V) (szName NameSpace : List UInt8) : Result V :=
  let (isFind, parser) := parser.findNameSpace NameSpace
  if isFind then valueLoop value szName (parser.m_fileSize + 1) parser else some ((false, none), parser)

end Values

def getValueInt : List UInt8 → List UInt8 → Result ℤ :=
  parser.getValue fun parser =>
    parser.getNextWord.bind fun (word, parser) =>
      match word with
      | none => some ((false, none), parser)
      | some word => (chWord word).map fun word => ((true, some (atoi word)), parser)

/-- `getValueInt` with `atof` in place of `atoi`. -/
def getValueDouble {Double : Type*} (atof : List UInt8 → Double) : List UInt8 → List UInt8 → Result Double :=
  parser.getValue fun parser =>
    parser.getNextWord.bind fun (word, parser) =>
      match word with
      | none => some ((false, none), parser)
      | some word => (chWord word).map fun word => ((true, some (atof word)), parser)

/-- Where `getStringWord` succeeds without a string, the word before it is still in place. -/
def getValueString : List UInt8 → List UInt8 → Result (List UInt8) :=
  parser.getValue fun parser =>
    parser.getStringWord.bind fun ((found, word), parser) =>
      if found then (chWord (word.getD (ascii "="))).map fun word => ((true, some word), parser)
      else some ((false, none), parser)

/-- `getValueString` with `mbstowcs` in place of `strcpy`. -/
def getValueWString {Wide : Type*} (mbstowcs : List UInt8 → Wide) : List UInt8 → List UInt8 → Result Wide :=
  parser.getValue fun parser =>
    parser.getStringWord.bind fun ((found, word), parser) =>
      if found then (chWord (word.getD (ascii "="))).map fun word => ((true, some (mbstowcs word)), parser)
      else some ((false, none), parser)

/-! ### The same loops with what they touch

An index or a length that does not fit is written down, and the loop goes on as if the array were larger. A read
behind the end of the file leaves the run without a result; where the code goes on there, it may copy a word of any
length. -/

/-- An entry of the namespace arrays, so many bytes copied to a `chWord` or an `m_nsStr`, or a place of the cursor. -/
inductive Touch where
  | slot (i : ℕ)
  | copy (length : ℕ)
  | cursor (m_curPos : ℕ)
deriving DecidableEq

/-- What is touched, and the result unless a read goes outside the file. -/
abbrev Traced (β : Type*) := List Touch × Option β

section Traced

variable {β γ V : Type*}

def Traced.after (touches : List Touch) (run : Traced β) : Traced β := (touches ++ run.1, run.2)

def Traced.bind (run : Traced β) (next : β → Traced γ) : Traced γ :=
  run.2.elim (run.1, none) fun result => (next result).after run.1

/-- A step of the tokenizer, and where it leaves the cursor. -/
def tokenized (step : Option (β × CTextParser)) (next : β → CTextParser → Traced γ) : Traced γ :=
  step.elim ([], none) fun (result, parser) => (next result parser).after [.cursor parser.m_curPos]

/-- A word in a `chWord`, as a C string. -/
def cString (word : List UInt8) : List UInt8 := word.takeWhile (· ≠ 0)

def closeTraced (NsCount : ℕ) : ℕ → CTextParser → Traced CTextParser
  | 0, _ => ([], none)
  | fuel + 1, parser =>
    tokenized parser.getNextWord fun word parser =>
      match word with
      | none => ([], some parser)
      | some word =>
        Traced.after [.copy word.length]
          (if cString word = ascii "\x7d" then
            ([.slot NsCount],
              some { parser with m_nsMaxPos := Function.update parser.m_nsMaxPos NsCount parser.m_curPos })
          else closeTraced NsCount fuel parser)

def nameTraced : ℕ → ℕ → CTextParser → Traced CTextParser
  | 0, _, _ => ([], none)
  | fuel + 1, NsCount, parser =>
    tokenized parser.getNextWord fun word parser =>
      match word with
      | none => ([], some parser)
      | some word =>
        if word.head? = some ':'.toUInt8 then
          Traced.after [.copy word.tail.length, .slot NsCount]
            (Traced.bind (closeTraced NsCount (parser.m_fileSize + 1) { parser with
              m_nsPos := Function.update parser.m_nsPos NsCount parser.m_curPos
              m_nsStr := Function.update parser.m_nsStr NsCount (cString word.tail) }) fun parser =>
                nameTraced fuel (NsCount + 1) parser)
        else nameTraced fuel NsCount parser

/-- `loadText` of a file with these bytes. -/
def loadTraced (file : List UInt8) : Traced CTextParser :=
  Traced.after ((List.range MAX_NAMESPACE_COUNT).map .slot)
    (Traced.bind (nameTraced (file.length + 1) 0 { parser with
      m_fileSize := file.length
      m_fileBuffer := file
      m_curPos := 0
      m_maxNameSpace := file.length
      m_nsPos := fun _ => 0
      m_nsMaxPos := fun _ => file.length }) fun parser => ([], some { parser with m_curPos := 0 }))

/-- What a `getValue` function touches, returns and writes to `ipValue`. -/
abbrev TracedResult (V : Type*) := Traced ((Bool × Option V) × CTextParser)

/-- The loop of the `getValue` functions; `value` gets the word that is the equals sign. -/
def valueTraced (value : List UInt8 → CTextParser → TracedResult V) (szName : List UInt8) :
    ℕ → CTextParser → TracedResult V
  | 0, _ => ([], none)
  | fuel + 1, parser =>
    tokenized parser.getNextWord fun word parser =>
      match word with
      | none => ([], some ((true, none), parser))
      | some word =>
        Traced.after [.copy word.length]
          (if szName = cString word then
            tokenized parser.getNextWord fun word parser =>
              match word with
              | none => ([], some ((false, none), parser))
              | some word =>
                Traced.after [.copy word.length]
                  (if cString word = ascii "=" then value word parser else ([], some ((false, none), parser)))
          else valueTraced value szName fuel parser)

def lookupTraced (value : List UInt8 → CTextParser → TracedResult V) (szName NameSpace : List UInt8) :
    TracedResult V :=
  let (isFind, parser) := parser.findNameSpace NameSpace
  Traced.after ((List.range MAX_NAMESPACE_COUNT).map .slot)
    (if isFind then valueTraced value szName (parser.m_fileSize + 1) parser else ([], some ((false, none), parser)))

/-- What `getValueInt` and `getValueDouble` do behind the equals sign. -/
def wordTraced (convert : List UInt8 → V) (_equals : List UInt8) (parser : CTextParser) : TracedResult V :=
  tokenized parser.getNextWord fun word parser =>
    match word with
    | none => ([], some ((false, none), parser))
    | some word => ([.copy word.length], some ((true, some (convert (cString word))), parser))

/-- What `getValueString` and `getValueWString` do behind the equals sign, the last word copied before. -/
def stringTraced (convert : List UInt8 → V) (equals : List UInt8) (parser : CTextParser) : TracedResult V :=
  tokenized parser.getStringWord fun (found, word) parser =>
    if found then
      ([.copy (word.getD equals).length], some ((true, some (convert (cString (word.getD equals)))), parser))
    else ([], some ((false, none), parser))

end Traced

end CTextParser

end LockFreeCore
