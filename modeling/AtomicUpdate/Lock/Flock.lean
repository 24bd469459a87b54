import AtomicUpdate.Fs.Node

/-! Advisory locks on whole files. A lock belongs to one opening of a file, so two openings of
one file contend even within a program. Whoever asks for another kind of lock than it holds
gives up the one it holds first, and stays without where the new one is refused. -/
namespace AtomicUpdate

inductive LockKind
  | shared
  | exclusive
  deriving DecidableEq, Repr

abbrev Owner := Nat

structure HeldLock where
  ino : Ino
  owner : Owner
  kind : LockKind
  deriving DecidableEq, Repr

abbrev LockTable := List HeldLock

namespace LockTable

def conflicts (ino : Ino) (owner : Owner) (kind : LockKind) (held : HeldLock) : Bool :=
  held.ino = ino && held.owner ≠ owner && (kind = .exclusive || held.kind = .exclusive)

def release (t : LockTable) (owner : Owner) : LockTable := t.filter (fun l => l.owner ≠ owner)

def request (t : LockTable) (ino : Ino) (owner : Owner) (kind : LockKind) : Bool × LockTable :=
  if t.contains ⟨ino, owner, kind⟩ then (true, t)
  else
    let others := t.release owner
    if others.any (conflicts ino owner kind) then (false, others)
    else (true, ⟨ino, owner, kind⟩ :: others)

end LockTable
end AtomicUpdate
