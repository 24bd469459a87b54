import AtomicUpdate.Errno
import AtomicUpdate.Policy
import AtomicUpdate.Json.Decimal
import AtomicUpdate.Json.Reader

/-! Policies as JSON documents. A group of fields is written as an object, in any order and
among members that mean nothing here, or as an array of its first fields; a field that is
missing keeps its default. `write` gives the one canonical document of a policy. -/
namespace AtomicUpdate.Policy
open Json (Tree Piece)

abbrev Given := List (Option Tree)

def addMember (known : List String) (given : Given) (key : List Piece) (t : Tree) :
    Option Given := do
  let text ← Piece.text? key
  match known.idxOf? (String.ofList text) with
  | none => some given
  | some i =>
      match given[i]? with
      | some (some _) => none
      | _ => some (given.set i (some t))

def addMembers (known : List String) (given : Given) : List (List Piece × Tree) → Option Given
  | [] => some given
  | (key, t) :: rest => do
      let given ← addMember known given key t
      addMembers known given rest

def given (known : List String) : Tree → Option Given
  | .object members => addMembers known (known.map fun _ => none) members
  | .array elements =>
      if elements.length ≤ known.length then
        some (elements.map some ++ List.replicate (known.length - elements.length) none)
      else none
  | _ => none

def fieldOr {α : Type} (default : α) (read : Tree → Option α) (given : Given) (i : Nat) :
    Option α :=
  match given[i]? with
  | some (some t) => read t
  | _ => some default

def readBool : Tree → Option Bool
  | .bool b => some b
  | _ => none

def readWord : Tree → Option UInt64
  | .number spelling => do
      let n ← Json.Decimal.value? spelling
      if n < UInt64.size then some (.ofNat n) else none
  | _ => none

def variant? (key : List Piece) : Option CrossDevice := do
  let text ← Piece.text? key
  if text = "fail".toList then some .fail
  else if text = "copy_fallback".toList then some .copyFallback
  else none

def readCrossDevice : Tree → Option CrossDevice
  | .string name => variant? name
  | .object [(name, .null)] => variant? name
  | _ => none

def readDurability (t : Tree) : Option Durability := do
  let fields ← given ["sync_on_commit"] t
  let sync ← fieldOr ({} : Durability).syncOnCommit readBool fields 0
  some { syncOnCommit := sync }

def readCommitFlow (t : Tree) : Option CommitFlow := do
  let fields ← given ["exdev"] t
  let exdev ← fieldOr ({} : CommitFlow).exdev readCrossDevice fields 0
  some { exdev }

def readLocking (t : Tree) : Option Locking := do
  let fields ← given ["timeout_ms"] t
  let timeoutMs ← fieldOr ({} : Locking).timeoutMs readWord fields 0
  some { timeoutMs }

def ofTree (t : Tree) : Option Policy := do
  let fields ← given ["durability", "commit", "locking"] t
  let durability ← fieldOr {} readDurability fields 0
  let commit ← fieldOr {} readCommitFlow fields 1
  let locking ← fieldOr {} readLocking fields 2
  some { durability, commit, locking }

def read (text : String) : Except Errno Policy :=
  match (Json.Reader.read text.toList).bind ofTree with
  | some p => .ok p
  | none => .error .einval

def boolText : Bool → String
  | true => "true"
  | false => "false"

def crossDeviceText : CrossDevice → String
  | .fail => "fail"
  | .copyFallback => "copy_fallback"

def write (p : Policy) : String :=
  "\x7b\"durability\":\x7b\"sync_on_commit\":" ++ boolText p.durability.syncOnCommit ++
    "\x7d,\"commit\":\x7b\"exdev\":\"" ++ crossDeviceText p.commit.exdev ++
    "\"\x7d,\"locking\":\x7b\"timeout_ms\":" ++
    String.ofList (Json.Decimal.digits p.locking.timeoutMs.toNat) ++ "\x7d\x7d"

end AtomicUpdate.Policy
