import AtomicUpdate.World

/-! Waiting for the write lock. An attempt is made at once and again after every pause, as long as
the lock is held by somebody else and the time is not up. The time is looked at after an attempt and
not before, so a lock that comes free during the last pause is still taken. A manager locks a file
that everybody who writes agrees on, or follows a script of answers, granting the lock where it has
come to its end. -/
namespace AtomicUpdate

inductive Attempt
  | granted
  | contended
  | failed (e : Errno)
  deriving DecidableEq, Repr

inductive Verdict
  | keep
  | pause
  | timeUp
  | giveUp (e : Errno)
  deriving DecidableEq, Repr

def Attempt.verdict (a : Attempt) (elapsed timeout : Nat) : Verdict :=
  match a with
  | .granted => .keep
  | .failed e => .giveUp e
  | .contended => if timeout ≤ elapsed then .timeUp else .pause

structure Waiting (σ : Type) where
  attempt : σ → Attempt × σ
  elapsed : σ → Nat
  pause : σ → σ

namespace Waiting

def run {σ : Type} (x : Waiting σ) (timeout : Nat) : Nat → σ → Verdict × σ
  | 0, s => (.timeUp, s)
  | bound + 1, s =>
      let (a, s) := x.attempt s
      match a.verdict (x.elapsed s) timeout with
      | .pause => x.run timeout bound (x.pause s)
      | verdict => (verdict, s)

def bound (timeout : Nat) : Nat := (timeout + Limits.lockPoll - 1) / Limits.lockPoll + 1

end Waiting

inductive LockManager
  | sidecar (path : Path)
  | scripted (answers : List (Option Errno))
  deriving DecidableEq, Repr

namespace LockManager

def besideBase (base : Path) : Path := base ++ Path.ofString Limits.lockSuffix

def polling (f : OpenFile) (since : Nat) : Waiting World where
  attempt w :=
    let (granted, locks) := w.locks.request f.ino f.owner .exclusive
    (if granted then .granted else .contended, { w with locks })
  elapsed w := w.clock - since
  pause w := w.wait Limits.lockPoll

def acquireSidecar (path : Path) (timeout : Nat) (w : World) : Except Errno Guard × World :=
  match Path.forbidNul .unknown path with
  | .error e => (.error e, w)
  | .ok () =>
    match w.fs.openCreate [.read, .write] 0o644 path with
    | .error e => (.error e, w)
    | .ok (i, fs) =>
        let (f, w) := (w.withFs fs).openNode i
        match (polling f w.clock).run timeout (Waiting.bound timeout) w with
        | (.keep, w) => (.ok (.sidecar f.owner), w)
        | (.giveUp e, w) =>
            (.error e, (w.logError s!"flock failed on {path.display}: {e.systemText}").close f)
        | (_, w) =>
            (.error .eagain,
              (w.logWarn s!"timeout acquiring write lock {path.display}").close f)

def acquire (m : LockManager) (timeout : Nat) (w : World) :
    Except Errno Guard × LockManager × World :=
  match m with
  | .sidecar path =>
      let (g, w) := acquireSidecar path timeout w
      (g, m, w)
  | .scripted answers =>
      let w := w.emit (.lockAcquire timeout)
      match answers with
      | some e :: rest => (.error e, .scripted rest, w)
      | _ => (.ok .scripted, .scripted answers.tail, w)

end LockManager
end AtomicUpdate
