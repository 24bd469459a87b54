import AtomicUpdate.Text.Extending
import AtomicUpdate.Text.Ignorable
import AtomicUpdate.Text.Unprintable

/-! Text between double quotes, for a developer's eyes: what cannot be seen or would join its
neighbour is written as an escape, so names that look alike stay apart. -/
namespace AtomicUpdate.Text

def isPlain (c : Char) : Bool :=
  if 0x20 ≤ c.toNat && c.toNat ≤ 0x7e then true
  else !(Extending.holds c.toNat || Ignorable.holds c.toNat || Unprintable.holds c.toNat)

def escape (c : Char) : List Char :=
  if c = '\x00' then ['\\', '0']
  else if c = '\t' then ['\\', 't']
  else if c = '\r' then ['\\', 'r']
  else if c = '\n' then ['\\', 'n']
  else if c = '\\' then ['\\', '\\']
  else if c = '"' then ['\\', '"']
  else if isPlain c then [c]
  else ['\\', 'u', '\x7b'] ++ Nat.toDigits 16 c.toNat ++ ['\x7d']

def quoted (s : String) : String :=
  String.ofList ('"' :: s.toList.flatMap escape ++ ['"'])

end AtomicUpdate.Text
