import AtomicUpdate.Limits

/-! How a handle commits, and how long it waits for its lock. -/
namespace AtomicUpdate

/-- What a commit does when the rename reports a cross-device link: report it, or copy the
staged bytes over the base and remove the temp file, which readers can catch half done. -/
inductive CrossDevice
  | fail
  | copyFallback
  deriving DecidableEq, Repr

structure Durability where
  syncOnCommit : Bool := true
  deriving DecidableEq, Repr

structure CommitFlow where
  exdev : CrossDevice := .fail
  deriving DecidableEq, Repr

structure Locking where
  timeoutMs : UInt64 := .ofNat Limits.lockTimeout
  deriving DecidableEq, Repr

structure Policy where
  durability : Durability := {}
  commit : CommitFlow := {}
  locking : Locking := {}
  deriving DecidableEq, Repr

namespace Policy

def durable : Policy := {}

def relaxed : Policy :=
  { durability := { syncOnCommit := false }, commit := { exdev := .copyFallback } }

def inspect (p : Policy) : String :=
  let exdev := match p.commit.exdev with
    | .fail => "Fail"
    | .copyFallback => "CopyFallback"
  "Policy \x7b durability: Durability \x7b sync_on_commit: " ++ toString p.durability.syncOnCommit ++
    " \x7d, commit: CommitFlow \x7b exdev: " ++ exdev ++
    " \x7d, locking: Locking \x7b timeout_ms: " ++ toString p.locking.timeoutMs.toNat ++ " \x7d \x7d"

end Policy
end AtomicUpdate
