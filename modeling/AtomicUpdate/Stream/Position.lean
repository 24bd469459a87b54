import AtomicUpdate.World

/-! Reading an open file at its own position, which moves on by what was read. -/
namespace AtomicUpdate.OpenFile

def read (f : OpenFile) (fs : Fs) (count : Nat) : Except Errno (Bytes × OpenFile) := do
  let bytes ← fs.readAt f.ino f.pos count
  .ok (bytes, { f with pos := f.pos + bytes.length })

def readAll (f : OpenFile) (fs : Fs) : Except Errno (Bytes × OpenFile) := do
  let bytes ← fs.readRest f.ino f.pos
  .ok (bytes, { f with pos := f.pos + bytes.length })

theorem readFile {f : OpenFile} {fs : Fs} {contents : Bytes} {mode : Nat}
    (file : fs.node? f.ino = some (.file contents mode)) (count : Nat) :
    f.read fs count = .ok ((contents.drop f.pos).take count,
      { f with pos := f.pos + ((contents.drop f.pos).take count).length }) := by
  simp only [read, Fs.readAt, file]
  rfl

end AtomicUpdate.OpenFile
