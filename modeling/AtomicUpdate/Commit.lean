import AtomicUpdate.Files

/-! Putting a staged file in the place of its base. Normally that is one rename inside the
directory that both share; where the rename reports a cross-device link and the policy allows
it, the bytes are copied over the base and the staged file is removed. -/
namespace AtomicUpdate

structure Committed where
  degraded : Bool
  duration : Nat
  deriving DecidableEq, Repr

namespace Commit

def forcedByEnv (env : Table String String) : Bool :=
  env.get? Limits.envAllow = some "1" && env.get? Limits.envForce = some "1"

def checkNames (temp base : Name) : Except Errno Unit := do
  Path.forbidNul .einval temp
  Path.forbidNul .einval base
  Fs.checkLength temp
  Fs.checkLength base

def prepare (fs : Fs) (temp base : Path) : Except Errno (Name × Name × Ino) :=
  match temp.fileName?, base.fileName? with
  | some t, some b => do
      let d ← Files.openDir fs base.folder
      .ok (t, b, d)
  | _, _ => .error .einval

/-- Copies the staged bytes over the base, flushes it and removes the staged file. What was
done before a step fails stays done. -/
def copyOver (temp base : Path) (w : World) : Except Errno Unit × World :=
  let (fs, copied) := Files.copy w.fs temp base
  let w := w.withFs fs
  match copied with
  | .error e => (.error e, w)
  | .ok () =>
    match Files.flush w.fs base with
    | .error e => (.error e, w)
    | .ok () =>
      match Files.remove w.fs temp with
      | .error e => (.error e, w)
      | .ok fs => (.ok (), w.withFs fs)

def rename (fs : Fs) (d : Ino) (temp base : Name) (forced : Bool) : Except Errno Fs :=
  if forced then .error .exdev
  else do
    checkNames temp base
    fs.renameIn d temp base

def run (temp base : Path) (allowCopy : Bool) (force : Option Bool) (w : World) :
    Except Errno Committed × World :=
  match prepare w.fs temp base with
  | .error e => (.error e, w)
  | .ok (t, b, d) =>
    let since := w.clock
    match rename w.fs d t b (force.getD (forcedByEnv w.env)) with
    | .ok fs =>
        let w := w.withFs fs
        (.ok ⟨false, w.clock - since⟩, w)
    | .error e =>
        if e = .exdev ∧ allowCopy = true then
          let w := w.logWarn s!"cross-device rename, falling back to copy for {base.display}"
          match copyOver temp base w with
          | (.ok (), w) => (.ok ⟨true, w.clock - since⟩, w)
          | (.error e, w) => (.error e, w)
        else (.error e, w)

end Commit
end AtomicUpdate
