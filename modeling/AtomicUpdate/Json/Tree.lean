/-! What a JSON text says, before anybody asks what it means. Numbers keep their spelling,
objects keep repeated members, and strings may hold halves of characters that no text has. -/
namespace AtomicUpdate.Json

inductive Piece
  | char (c : Char)
  | half (code : Nat)
  deriving DecidableEq, Repr

namespace Piece

def isHigh (code : Nat) : Bool := 0xd800 ≤ code && code < 0xdc00

def isLow (code : Nat) : Bool := 0xdc00 ≤ code && code < 0xe000

def ofCode (code : Nat) : Piece :=
  if isHigh code || isLow code then .half code else .char (Char.ofNat code)

def text? : List Piece → Option (List Char)
  | [] => some []
  | .char c :: rest => (text? rest).map (c :: ·)
  | .half high :: .half low :: rest =>
      if isHigh high && isLow low then
        (text? rest).map (Char.ofNat (0x10000 + (high - 0xd800) * 0x400 + (low - 0xdc00)) :: ·)
      else none
  | .half _ :: _ => none

end Piece

inductive Tree
  | null
  | bool (value : Bool)
  | number (spelling : List Char)
  | string (pieces : List Piece)
  | array (elements : List Tree)
  | object (members : List (List Piece × Tree))
  deriving Repr

end AtomicUpdate.Json
