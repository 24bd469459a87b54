import AtomicUpdate.World

/-! Writing through a buffer. What is in the file and what is buffered, one after the other,
are all bytes written so far. -/
namespace AtomicUpdate

structure Writer where
  file : OpenFile
  path : Path
  buffer : Bytes := []
  deriving DecidableEq, Repr

namespace Writer

structure Stepped where
  result : Except Errno Unit
  writer : Writer
  fs : Fs

def push (wr : Writer) (fs : Fs) (data : Bytes) : Stepped :=
  match fs.writeAt wr.file.ino wr.file.pos data with
  | .ok fs =>
      ⟨.ok (), { wr with file := { wr.file with pos := wr.file.pos + data.length } }, fs⟩
  | .error e => ⟨.error e, wr, fs⟩

def flush (wr : Writer) (fs : Fs) : Stepped :=
  if wr.buffer.isEmpty then ⟨.ok (), wr, fs⟩
  else
    let pushed := wr.push fs wr.buffer
    match pushed.result with
    | .ok () => { pushed with writer := { pushed.writer with buffer := [] } }
    | .error _ => pushed

def makeRoom (wr : Writer) (fs : Fs) (data : Bytes) : Stepped :=
  if Limits.streamBuffer < wr.buffer.length + data.length then wr.flush fs
  else ⟨.ok (), wr, fs⟩

def write (wr : Writer) (fs : Fs) (data : Bytes) : Stepped :=
  let roomy := wr.makeRoom fs data
  match roomy.result with
  | .error _ => roomy
  | .ok () =>
      if Limits.streamBuffer ≤ data.length then roomy.writer.push roomy.fs data
      else { roomy with writer := { roomy.writer with buffer := roomy.writer.buffer ++ data } }

def drop (wr : Writer) (w : World) : World := (w.withFs (wr.flush w.fs).fs).close wr.file

def close (wr : Writer) (w : World) : Except Errno Unit × World :=
  let flushed := wr.flush w.fs
  (flushed.result, flushed.writer.drop (w.withFs flushed.fs))

end Writer
end AtomicUpdate
