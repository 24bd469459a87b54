import AtomicUpdate.Fs.Canonical
import AtomicUpdate.World

/-! The steps that operations are made of: each asks the system for one thing and passes on the
cause when it is refused. A NUL byte in a path is refused before the system is asked, by some
steps as an invalid argument and by others without a number. -/
namespace AtomicUpdate.Files

def canonical (fs : Fs) (p : Path) : Except Errno Path := do
  Path.forbidNul .unknown p
  fs.canonical p

def openReadOnly (fs : Fs) (p : Path) : Except Errno Ino := do
  Path.forbidNul .einval p
  fs.openRead p

def openDir (fs : Fs) (p : Path) : Except Errno Ino := do
  Path.forbidNul .einval p
  fs.openDir p

def checkExists (fs : Fs) (p : Path) : Except Errno Unit := do
  Path.forbidNul .einval p
  let _ ← fs.lookup p
  .ok ()

def isPresent (fs : Fs) (p : Path) : Except Errno Bool := do
  Path.forbidNul .unknown p
  match fs.lookupEntry p with
  | .ok _ => .ok true
  -- A path through something that is no directory names nothing.
  | .error e => if e = .enoent ∨ e = .enotdir then .ok false else .error e

def remove (fs : Fs) (p : Path) : Except Errno Fs := do
  Path.forbidNul .unknown p
  fs.unlink p

def flush (fs : Fs) (p : Path) : Except Errno Unit := do
  Path.forbidNul .unknown p
  let i ← fs.openRead p
  fs.sync i

def openTruncate (fs : Fs) (p : Path) : Except Errno (Ino × Fs) := do
  Path.forbidNul .unknown p
  fs.openTruncate p

def openBoth (fs : Fs) (source target : Path) : Except Errno (Ino × Nat × Ino × Fs) := do
  Path.forbidNul .unknown source
  let i ← fs.openRead source
  match fs.node? i with
  | some (.file _ mode) =>
      Path.forbidNul .unknown target
      let (j, fs) ← fs.openCreate [.write] (mode &&& (0o7777 ^^^ Fs.umask)) target
      .ok (i, mode, j, fs)
  | _ => .error .unknown

/-- Copies contents and permission bits of a regular file over what a path leads to. The source is
opened first, then the target is emptied, and only then is anything copied; so a target that is the
source itself ends up empty. -/
def copy (fs : Fs) (source target : Path) : Fs × Except Errno Unit :=
  match openBoth fs source target with
  | .error e => (fs, .error e)
  | .ok (i, mode, j, fs) =>
      let fs := fs.truncate j
      let fs := match fs.node? j with
        | some (.file bytes _) => fs.replace j (.file bytes mode)
        | _ => fs
      match fs.readRest i 0 with
      | .error e => (fs, .error e)
      | .ok bytes =>
          match fs.writeAt j 0 bytes with
          | .error e => (fs, .error e)
          | .ok fs => (fs, .ok ())

inductive Arrival (σ : Type)
  | bytes (got : Bytes) (next : σ)
  | interrupted (next : σ)
  deriving DecidableEq, Repr

/-- A source of bytes that hands out at most as many as asked for. Reads of it can be interrupted, but not
without end. -/
@[ext]
structure Source (σ : Type) where
  read : σ → Nat → Except Errno (Arrival σ)
  interruptions : σ → Nat
  fits : ∀ {s count got next}, read s count = .ok (.bytes got next) →
    got.length ≤ count ∧ interruptions next ≤ interruptions s
  fewer : ∀ {s count next}, read s count = .ok (.interrupted next) →
    interruptions next < interruptions s

structure ShortRead where
  filled : Nat
  cause : Errno
  deriving DecidableEq, Repr

structure Filling (σ : Type) where
  buffer : Bytes
  filled : Nat
  state : σ
  deriving DecidableEq, Repr

namespace Filling
variable {σ : Type}

def zeroed (size : Nat) (start : σ) : Filling σ := ⟨List.replicate size 0, 0, start⟩

def room (f : Filling σ) : Bytes := f.buffer.drop f.filled

def put (f : Filling σ) (got : Bytes) (next : σ) : Filling σ where
  buffer := f.buffer.take f.filled ++ got ++ f.room.drop got.length
  filled := f.filled + got.length
  state := next

def contents (f : Filling σ) : Bytes := f.buffer.take f.filled

end Filling

def fill {σ : Type} (source : Source σ) (size : Nat) (f : Filling σ) : Except ShortRead (Filling σ) :=
  if f.filled < size then
    match _ : source.read f.state f.room.length with
    | .error e => .error ⟨f.filled, e⟩
    | .ok (.bytes [] next) => .ok { f with state := next }
    | .ok (.bytes (b :: got) next) => fill source size (f.put (b :: got) next)
    | .ok (.interrupted next) => fill source size { f with state := next }
  else .ok f
termination_by size - f.filled + source.interruptions f.state
decreasing_by
  · have fewer := (source.fits ‹_›).2
    simp only [Filling.put, List.length_cons]
    omega
  · exact Nat.add_lt_add_left (source.fewer ‹_›) _

theorem readAtFits {fs : Fs} {i : Ino} {pos count : Nat} {got : Bytes}
    (ok : fs.readAt i pos count = .ok got) : got.length ≤ count := by
  unfold Fs.readAt at ok
  split at ok
  · cases ok
    exact List.length_take_le _ _
  · cases ok
    exact Nat.zero_le _
  · cases ok
    exact Nat.le_of_eq List.length_replicate
  · cases ok

def source (fs : Fs) (i : Ino) : Source Nat where
  read pos count := (fs.readAt i pos count).map fun got => .bytes got (pos + got.length)
  interruptions _ := 0
  fits := by
    intro pos count got next ok
    cases took : fs.readAt i pos count with
    | error e => rw [took] at ok; cases ok
    | ok bytes =>
      rw [took] at ok
      cases ok
      exact ⟨readAtFits took, Nat.le_refl 0⟩
  fewer := by
    intro pos count next ok
    cases took : fs.readAt i pos count with
    | error e => rw [took] at ok; cases ok
    | ok bytes => rw [took] at ok; cases ok

def reservable (size : Nat) : Bool := size < Limits.addressSpace

def readVia {σ : Type} (source : Source σ) (start : σ) (size : Nat) (w : World) :
    Except Errno Bytes × World :=
  if !reservable size then (.error .enomem, w)
  else match fill source size (.zeroed size start) with
    | .ok f => (.ok f.contents, w)
    | .error short =>
        (.error .eio, w.logError <|
          s!"Failed to read file, actual length is:{short.filled}, fileSize:{size}: " ++
            short.cause.systemText)

def readSized (w : World) (i : Ino) (size : Nat) : Except Errno Bytes × World :=
  readVia (source w.fs i) 0 size w

def createUnique (stem : List Char) : Nat → World → Except Errno String × World
  | 0, w => (.error .eexist, w)
  | tries + 1, w =>
      let (suffix, w) := w.draw
      let name := Template.fill stem suffix
      let made := do
        Path.forbidNul Errno.einval (Path.ofString name)
        w.fs.createNew 0o600 (Path.ofString name)
      match made with
      | .ok (_, fs) => (.ok name, w.withFs fs)
      | .error e => if e = .eexist then createUnique stem tries w else (.error e, w)

def createFrom (template : String) (w : World) : Except Errno String × World :=
  match Template.stem? template with
  | none => (.error .einval, w)
  | some stem => createUnique stem Limits.attempts w

end AtomicUpdate.Files
