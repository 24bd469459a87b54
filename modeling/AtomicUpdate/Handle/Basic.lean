import AtomicUpdate.Lock.Manager
import AtomicUpdate.Names
import AtomicUpdate.Policy

/-! A handle on a file whose updates become visible all at once, and how it reports what it does:
every operation ends with one fact, and a failure is told in an audit line before it. A sink that
does not capture drops facts and passes audit lines on to the log. Whether commit renames report a
cross-device link is for the environment to say where the handle does not. -/
namespace AtomicUpdate
open Json (Value)

structure Sink where
  captures : Bool := true
  /-- What whoever is given a fact does to the files before the operation returns. -/
  react : Fact → Fs → Fs := fun _ fs => fs

structure Handle where
  names : Names
  policy : Policy := {}
  lock : Option LockManager := none
  guard : Option Guard := none
  forceExdev : Option Bool := none
  sink : Sink := {}

structure Ran (α : Type) where
  result : Except Errno α
  handle : Handle
  world : World

namespace Sink

def fact (s : Sink) (f : Fact) (w : World) : World :=
  if s.captures then
    let w := w.emit (.fact f)
    w.withFs (s.react f w.fs)
  else w

def audit (s : Sink) (level : Level) (message : String) (w : World) : World :=
  w.emit (if s.captures then .audit level message else .auditLog level message)

def failureLine (stage : Stage) (path : String) (e : Errno) : String :=
  s!"{stage.event} failed for {path}: {e.describe}"

def report {α : Type} (s : Sink) (stage : Stage) (path : String) (details : Value)
    (result : Except Errno α) (w : World) : World :=
  let draft := ((Fact.Draft.start stage).path path).field "details" details
  match result with
  | .ok _ => s.fact (draft.emit .success (Clock.text w.clock)) w
  | .error e =>
      let w := s.audit .warn (failureLine stage path e) w
      s.fact ((draft.error e).emit .failure (Clock.text w.clock)) w

end Sink

namespace Handle

def ofBase (base : String) : Handle := { names := .ofBase base }

def isPending (h : Handle) : Bool := h.names.temp?.isSome

def releaseGuard (h : Handle) (w : World) : World :=
  match h.guard with
  | some g => w.release g
  | none => w

def endCycle (h : Handle) (w : World) : Handle × World :=
  ({ h with names := h.names.closed, guard := none }, h.releaseGuard w)

def inspect (h : Handle) : String :=
  "AtomicFile \x7b entity: " ++ h.names.inspect ++ ", policy: " ++ h.policy.inspect ++
    ", locked: " ++ toString h.guard.isSome ++ ", .. \x7d"

end Handle

namespace Ran

def reported {α : Type} (r : Ran α) (stage : Stage) (path : String) (details : Value) : Ran α :=
  { r with world := r.handle.sink.report stage path details r.result r.world }

end Ran
end AtomicUpdate
