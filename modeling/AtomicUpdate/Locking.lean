import AtomicUpdate.World

/-! Locking an open file by hand. -/
namespace AtomicUpdate.OpenFile

def tryLock (f : OpenFile) (kind : LockKind) (w : World) : Except Errno Unit × World :=
  let (granted, locks) := w.locks.request f.ino f.owner kind
  (if granted then .ok () else .error .eagain, { w with locks })

/-- Waits for a lock until it is granted, letting time pass up to each guard that falls due.
A wait that nothing due can end is reported as a deadlock. -/
def lock (f : OpenFile) (kind : LockKind) (w : World) : Except Errno Unit × World :=
  attempt w.due.length w
where
  attempt : Nat → World → Except Errno Unit × World
    | dues, w =>
        let (granted, locks) := w.locks.request f.ino f.owner kind
        let w : World := { w with locks }
        if granted then (.ok (), w)
        else match dues with
          | 0 => (.error .edeadlk, w)
          | dues + 1 =>
              match (w.due.map (·.1)).min? with
              | none => (.error .edeadlk, w)
              | some next => attempt dues (w.wait (next - w.clock))

def unlock (f : OpenFile) (w : World) : World := { w with locks := w.locks.release f.owner }

end AtomicUpdate.OpenFile
