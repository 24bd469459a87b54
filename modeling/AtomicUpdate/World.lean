import AtomicUpdate.Clock
import AtomicUpdate.Event
import AtomicUpdate.Fs.Call
import AtomicUpdate.Lock.Flock
import AtomicUpdate.Template

/-! All that an operation can see and change outside its own handle: the files, the locks on them,
the time, the environment, the suffixes still to be drawn, and the events so far. Time is in
milliseconds, and the newest event is the last. Guards that somebody else will let go are `due`,
each at its time. -/
namespace AtomicUpdate

inductive Guard
  | sidecar (owner : Owner)
  | scripted
  deriving DecidableEq, Repr

structure OpenFile where
  ino : Ino
  owner : Owner
  pos : Nat := 0
  deriving DecidableEq, Repr

structure World where
  fs : Fs
  locks : LockTable := []
  clock : Nat := 0
  due : List (Nat × Guard) := []
  env : Table String String := .empty
  draws : Nat → Suffix := Suffix.scattered
  drawn : Nat := 0
  owners : Owner := 0
  events : List Event := []

namespace World

def emit (w : World) (e : Event) : World := { w with events := w.events ++ [e] }

def logError (w : World) (message : String) : World := w.emit (.log .error message)

def logWarn (w : World) (message : String) : World := w.emit (.log .warn message)

def release (w : World) : Guard → World
  | .sidecar owner => { w with locks := w.locks.release owner }
  | .scripted => w.emit .lockRelease

def releaseAll (w : World) (guards : List Guard) : World := guards.foldl release w

def wait (w : World) (ms : Nat) : World :=
  let now := w.clock + ms
  let (fallen, due) := w.due.partition (fun g => g.1 ≤ now)
  let w : World := { w with clock := now, due }
  w.releaseAll (fallen.map (·.2))

def releaseAfter (w : World) (ms : Nat) (g : Guard) : World :=
  { w with due := w.due ++ [(w.clock + ms, g)] }

def openNode (w : World) (i : Ino) : OpenFile × World :=
  ({ ino := i, owner := w.owners }, { w with owners := w.owners + 1 })

def close (w : World) (f : OpenFile) : World := { w with locks := w.locks.release f.owner }

def draw (w : World) : Suffix × World := (w.draws w.drawn, { w with drawn := w.drawn + 1 })

def withFs (w : World) (fs : Fs) : World := { w with fs }

end World
end AtomicUpdate
