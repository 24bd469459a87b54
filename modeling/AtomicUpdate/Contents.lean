import AtomicUpdate.Path

/-! The contents of a file as a value of its own. -/
namespace AtomicUpdate

structure Contents where
  bytes : Bytes := []
  deriving DecidableEq, Repr

namespace Contents

def length (c : Contents) : Nat := c.bytes.length

def isEmpty (c : Contents) : Bool := c.bytes.isEmpty

def inspect (c : Contents) : String :=
  "BufferData \x7b buffer: [" ++ ", ".intercalate (c.bytes.map fun b => toString b.toNat) ++ "] \x7d"

end Contents
end AtomicUpdate
