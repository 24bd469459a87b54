import AtomicUpdate.Stream.Position

/-! Reading through a buffer. What has been delivered and what is buffered follow each other in
the file without gap or overlap, whichever mix of calls is used. -/
namespace AtomicUpdate

structure Reader where
  file : OpenFile
  path : Path
  buffer : Bytes := []
  deriving DecidableEq, Repr

namespace Reader

def pull (r : Reader) (fs : Fs) (count : Nat) : Except Errno (Bytes × Reader) := do
  let (bytes, file) ← r.file.read fs count
  .ok (bytes, { r with file })

def fill (r : Reader) (fs : Fs) : Except Errno Reader :=
  if r.buffer.isEmpty then do
    let (bytes, r) ← r.pull fs Limits.streamBuffer
    .ok { r with buffer := bytes }
  else .ok r

def read (r : Reader) (fs : Fs) (count : Nat) : Except Errno (Bytes × Reader) :=
  if r.buffer.isEmpty && Limits.streamBuffer ≤ count then r.pull fs count
  else do
    let r ← r.fill fs
    .ok (r.buffer.take count, { r with buffer := r.buffer.drop count })

def readAll (r : Reader) (fs : Fs) : Except Errno (Bytes × Reader) := do
  let (rest, file) ← r.file.readAll fs
  .ok (r.buffer ++ rest, { r with buffer := [], file })

def splitLines : Bytes → List Bytes
  | [] => []
  | b :: rest =>
      if b = 10 then [b] :: splitLines rest
      else match splitLines rest with
        | [] => [[b]]
        | line :: lines => (b :: line) :: lines

def lines (r : Reader) (fs : Fs) : Except Errno (List Bytes × Reader) := do
  let (bytes, r) ← r.readAll fs
  .ok (splitLines bytes, r)

def consume (r : Reader) (count : Nat) : Reader := { r with buffer := r.buffer.drop count }

theorem joinLines (bytes : Bytes) : (splitLines bytes).flatten = bytes := by
  induction bytes with
  | nil => rfl
  | cons b rest ih =>
      unfold splitLines
      split
      · simp [ih]
      · split
        · rename_i h; rw [h] at ih; simpa using ih
        · rename_i h; rw [h] at ih; simpa using ih

end Reader
end AtomicUpdate
