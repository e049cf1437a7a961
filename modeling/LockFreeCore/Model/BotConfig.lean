import LockFreeCore.Model.CTextParser

/-! # The settings of the load test

The text of the file is what its stream yields. `std::getline` is called until it fails, which it does at the end of
the text, so that a delimiter that ends the text opens no further piece.
-/

namespace LockFreeCore

structure BotConfig where
  ccuList : List ℤ := [100, 1000, 5000]
  packetsPerConn : ℤ := 5
  repeatIterations : ℤ := 2000
  sustainSeconds : ℤ := 15
deriving DecidableEq, Repr

namespace BotConfig

open CTextParser (ascii atoi)

/-- What `std::getline` yields, call after call. -/
def getlines (delim : UInt8) : List UInt8 → List (List UInt8)
  | [] => []
  | c :: rest =>
    if c = delim then [] :: getlines delim rest
    else match getlines delim rest with
      | [] => [[c]]
      | line :: more => (c :: line) :: more

/-- What `find_first_not_of` passes over. -/
def isSpace (c : UInt8) : Bool := c = 0x20 ∨ c = 0x09 ∨ c = 0x0d ∨ c = 0x0a

/-- The body of the loop of `loadConfig`. -/
def readLine (cfg : BotConfig) (line : List UInt8) : BotConfig :=
  match line.find? fun c => !isSpace c with
  | none => cfg
  | some firstNonSpace =>
    if firstNonSpace = '#'.toUInt8 then cfg
    else match line.findIdx? (· = '='.toUInt8) with
      | none => cfg
      | some eq =>
        let key := line.take eq
        let value := line.drop (eq + 1)
        if key = ascii "ccu_list" then
          { cfg with ccuList := ((getlines ','.toUInt8 value).filter fun tok => tok ≠ []).map atoi }
        else if key = ascii "packets_per_conn" then { cfg with packetsPerConn := atoi value }
        else if key = ascii "repeat_iterations" then { cfg with repeatIterations := atoi value }
        else if key = ascii "sustain_seconds" then { cfg with sustainSeconds := atoi value }
        else cfg

/-- `loadConfig`, with the text of the file when it can be opened. -/
def loadConfig : Option (List UInt8) → BotConfig
  | none => {}
  | some text => (getlines '\n'.toUInt8 text).foldl readLine {}

end BotConfig

end LockFreeCore
