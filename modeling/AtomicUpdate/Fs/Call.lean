import AtomicUpdate.Fs.Lookup

/-! The calls by which files are opened, created, renamed, removed, read and written. A call
that fails gives back no file system, so it cannot have changed one. -/
namespace AtomicUpdate.Fs

def umask : Nat := 0o022

def openRead (fs : Fs) (p : Path) : Except Errno Ino := do
  let i ← fs.lookup p
  fs.demand i .read
  .ok i

def openDir (fs : Fs) (p : Path) : Except Errno Ino := do
  let i ← fs.lookup p
  if !fs.isDir i then .error .enotdir
  else do
    fs.demand i .read
    .ok i

def truncate (fs : Fs) (i : Ino) : Fs :=
  match fs.node? i with
  | some node => fs.replace i (node.rewritten [])
  | none => fs

def openTruncate (fs : Fs) (p : Path) : Except Errno (Ino × Fs) := do
  let i ← fs.lookup p
  if fs.isDir i then .error .eisdir
  else do
    fs.demand i .write
    .ok (i, fs.truncate i)

def openCreate (fs : Fs) (uses : List Access) (mode : Nat) (p : Path) :
    Except Errno (Ino × Fs) := do
  let place ← fs.locate .creating p
  match place.spot with
  | .top _ => .error .eisdir
  | .entry _ _ i =>
      if fs.isDir i then .error .eisdir
      else do
        uses.forM (fs.demand i)
        .ok (i, fs)
  | .vacant d n => fs.enter d n (.file [] mode)

def createNew (fs : Fs) (mode : Nat) (p : Path) : Except Errno (Ino × Fs) := do
  let place ← fs.locate .creatingNew p
  match place.spot with
  | .top _ => .error .eexist
  | .entry .. => .error .eexist
  | .vacant d n => fs.enter d n (.file [] mode)

def unlink (fs : Fs) (p : Path) : Except Errno Fs := do
  let place ← fs.locate .never p
  match place.spot with
  | .top _ => .error .eisdir
  | .vacant .. => .error .enoent
  | .entry d n i =>
      if place.slash then .error (if fs.isDir i then .eisdir else .enotdir)
      else do
        fs.demand d .write
        if fs.isDir i then .error .eisdir else .ok (fs.updateDir d (·.erase n))

def isEmptyDir (fs : Fs) (i : Ino) : Bool :=
  match fs.node? i with
  | some (.dir entries ..) => entries.isEmpty
  | _ => false

def mayReplace (fs : Fs) (i j : Ino) : Except Errno Unit :=
  if fs.isDir i then
    if !fs.isDir j then .error .enotdir
    else if fs.isEmptyDir j then .ok ()
    else .error .enotempty
  else if fs.isDir j then .error .eisdir
  else .ok ()

/-- Gives a name to a node instead of what had it. The entry counts as the newest then. -/
def supplant (n : Name) (i : Ino) (entries : Table Name Ino) : Table Name Ino :=
  (entries.erase n).set n i

def renameIn (fs : Fs) (d : Ino) (old new : Name) : Except Errno Fs := do
  match ← fs.child d old with
  | none => .error .enoent
  | some i =>
      let there ← fs.child d new
      -- Two names of one node are left as they are.
      if there = some i then .ok fs
      else do
        fs.demand d .write
        there.forM (fs.mayReplace i)
        .ok (fs.updateDir d (fun es => supplant new i (es.erase old)))

def readAt (fs : Fs) (i : Ino) (pos count : Nat) : Except Errno Bytes :=
  match fs.node? i with
  | some (.file bytes _) => .ok ((bytes.drop pos).take count)
  | some (.device .null) => .ok []
  | some (.device .full) => .ok (List.replicate count 0)
  | _ => .error .eisdir

/-- All bytes from a position on. An endless device gives none, there being no end. -/
def readRest (fs : Fs) (i : Ino) (pos : Nat) : Except Errno Bytes :=
  match fs.node? i with
  | some (.file bytes _) => .ok (bytes.drop pos)
  | some (.device _) => .ok []
  | _ => .error .eisdir

def overwrite (old : Bytes) (pos : Nat) (data : Bytes) : Bytes :=
  old.take pos ++ List.replicate (pos - old.length) 0 ++ data ++ old.drop (pos + data.length)

def writeAt (fs : Fs) (i : Ino) (pos : Nat) (data : Bytes) : Except Errno Fs :=
  match fs.node? i with
  | some (.file bytes mode) =>
      if data = [] then .ok fs
      else .ok (fs.replace i ((Node.file bytes mode).rewritten (overwrite bytes pos data)))
  | some (.device .null) => .ok fs
  | some (.device .full) => if data = [] then .ok fs else .error .enospc
  | _ => .error .eisdir

def sync (fs : Fs) (i : Ino) : Except Errno Unit :=
  match fs.node? i with
  | some (.device _) => .error .einval
  | _ => .ok ()

/-- The size that the system reports. The root directory is on a disk and takes up a block. -/
def size (fs : Fs) (i : Ino) : Nat :=
  if i = fs.root then 4096 else ((fs.node? i).map Node.size).getD 0

end AtomicUpdate.Fs
