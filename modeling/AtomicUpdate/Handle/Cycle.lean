import AtomicUpdate.Commit
import AtomicUpdate.Handle.Basic
import AtomicUpdate.Stream.Writer

/-! The write cycle. Starting one creates an empty temp file next to the base; finishing it puts
that file in the base's place; failing it removes the file. An operation that fails leaves the
cycle as it was, but for a temp file that had vanished before it could be removed. -/
namespace AtomicUpdate.Handle
open Json (Value)

def tempDetail (h : Handle) : Value := .object [("temp_path", .ofText? h.names.temp?)]

def takeGuard (h : Handle) (w : World) : Ran (Option Guard) :=
  match h.lock with
  | none => ⟨.ok none, h, w⟩
  | some m =>
      let (g, m, w) := m.acquire h.policy.locking.timeoutMs.toNat w
      ⟨g.map some, { h with lock := some m }, w⟩

def giveBack (g : Option Guard) (w : World) : World :=
  match g with
  | some g => w.release g
  | none => w

def createTemp (h : Handle) (w : World) : Except Errno String × World :=
  match Files.checkExists w.fs h.names.folder with
  | .error e =>
      (.error .enoent, w.logError s!"Parent directory does not exist, err:{e.number}")
  | .ok () =>
      match Files.createFrom h.names.staging w with
      | (.ok temp, w) => (.ok temp, w)
      | (.error e, w) => (.error .enoent, w.logError s!"Fail to create tmp file err:{e.number}!")

def openCycle (h : Handle) (w : World) : Ran String :=
  match h.names.temp? with
  | some temp => ⟨.error .ebusy, h, w.logError s!"Write already in progress, tmp file:{temp}"⟩
  | none =>
      let locked := h.takeGuard w
      match locked.result with
      | .error e => ⟨.error e, locked.handle, locked.world⟩
      | .ok g =>
          match locked.handle.createTemp locked.world with
          | (.error e, w) => ⟨.error e, locked.handle, giveBack g w⟩
          | (.ok temp, w) =>
              ⟨.ok temp,
                { locked.handle with names := locked.handle.names.openWith temp, guard := g }, w⟩

def startWrite (h : Handle) (w : World) : Ran String :=
  let r := h.openCycle w
  let details := match r.result with
    | .ok temp => .object [("temp_path", .string temp)]
    | .error _ => r.handle.tempDetail
  r.reported .startWrite r.handle.names.base details

def openTemp (temp : String) (w : World) : Except Errno Writer × World :=
  let path := Path.ofString temp
  match Files.openTruncate w.fs path with
  | .error e => (.error e, w.logError s!"Failed to create write stream, err:{e.number}")
  | .ok (i, fs) =>
      let (file, w) := (w.withFs fs).openNode i
      (.ok { file, path }, w)

/-- Opens a cycle and a writer on its temp file. Where the file cannot be opened the cycle
stays open. -/
def startWriteStream (h : Handle) (w : World) : Ran Writer :=
  let started := h.startWrite w
  match started.result with
  | .error e => ⟨.error e, started.handle, started.world⟩
  | .ok temp =>
      let (writer, w) := openTemp temp started.world
      ⟨writer, started.handle, w⟩

def pendingTemp (h : Handle) (w : World) : Except Errno String × World :=
  match h.names.temp? with
  | some temp => (.ok temp, w)
  | none => (.error .enoent, w.logError "No write in progress")

def flushStaged (h : Handle) (temp : Path) (w : World) : Except Errno Unit :=
  if h.policy.durability.syncOnCommit then Files.flush w.fs temp else .ok ()

def commitCycle (h : Handle) (w : World) : Ran Committed :=
  match h.pendingTemp w with
  | (.error e, w) => ⟨.error e, h, w⟩
  | (.ok temp, w) =>
      let temp := Path.ofString temp
      match h.flushStaged temp w with
      | .error e => ⟨.error e, h, w⟩
      | .ok () =>
          match Commit.run temp h.names.basePath (h.policy.commit.exdev = .copyFallback)
              h.forceExdev w with
          | (.error e, w) => ⟨.error e, h, w.logError s!"Rename failed, err:{e.number}"⟩
          | (.ok done, w) =>
              let (h, w) := h.endCycle w
              ⟨.ok done, h, w⟩

def finishWrite (h : Handle) (w : World) : Ran Unit :=
  let r := h.commitCycle w
  let details := match r.result with
    | .ok done => .object [("degraded", .bool done.degraded), ("fsync_ms", .int done.duration)]
    | .error _ => r.handle.tempDetail
  let r := r.reported .finishWrite r.handle.names.base details
  let world := match r.result with
    | .ok ⟨true, _⟩ =>
        r.handle.sink.audit .warn
          s!"degraded commit (copy fallback) for {r.handle.names.base}" r.world
    | _ => r.world
  ⟨r.result.map fun _ => (), r.handle, world⟩

def rollBack (h : Handle) (w : World) : Ran Unit :=
  match h.pendingTemp w with
  | (.error e, w) => ⟨.error e, h, w⟩
  | (.ok temp, w) =>
      match Files.remove w.fs (Path.ofString temp) with
      | .ok fs =>
          let (h, w) := h.endCycle (w.withFs fs)
          ⟨.ok (), h, w⟩
      | .error e =>
          if e = .enoent then
            let (h, w) := h.endCycle (w.logWarn s!"Tmp file already removed: {temp}")
            ⟨.error e, h, w⟩
          else ⟨.error e, h, w.logWarn s!"Failed to remove file, err:{e.number}"⟩

def failWrite (h : Handle) (w : World) : Ran Unit :=
  let details := h.tempDetail
  let r := h.rollBack w
  r.reported .failWrite r.handle.names.base details

end AtomicUpdate.Handle
