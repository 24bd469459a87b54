import AtomicUpdate.Files
import AtomicUpdate.Handle.Basic
import AtomicUpdate.Stream.Reader

/-! Reading what is committed. The base is resolved to its canonical path and opened there, so
that a commit made later puts another file in its place and leaves the open one alone. -/
namespace AtomicUpdate

structure BaseFile where
  file : OpenFile
  path : Path
  deriving DecidableEq, Repr

namespace BaseFile

def name? (b : BaseFile) : Option String := b.path.fileName?.bind Path.text?

def folder? (b : BaseFile) : Option Path := b.path.parent?

end BaseFile

namespace Handle
open Json (Value)

def readDetail (op : String) : Value := .object [("op", .string op)]

def resolve (h : Handle) (w : World) : Except Errno Path × World :=
  match Files.canonical w.fs h.names.basePath with
  | .ok path => (.ok path, w)
  | .error e => (.error e, w.logError s!"Failed to resolve real path, err:{e.number}")

def openResolved (h : Handle) (w : World) : Except Errno (Ino × Path) × World :=
  match h.resolve w with
  | (.error e, w) => (.error e, w)
  | (.ok path, w) =>
      match Files.openReadOnly w.fs path with
      | .ok i => (.ok (i, path), w)
      | .error e => (.error e, w.logError s!"Failed to open file, err:{e.number}")

def openBase (h : Handle) (w : World) : Except Errno BaseFile × World :=
  if Limits.pathMax ≤ h.names.base.utf8ByteSize then
    (.error .eperm, w.logError "Base file name is too long")
  else match h.openResolved w with
    | (.error e, w) => (.error e, w)
    | (.ok (i, path), w) =>
        let (file, w) := w.openNode i
        (.ok { file, path }, w)

def getBaseFile (h : Handle) (w : World) : Ran BaseFile :=
  let (result, w) := h.openBase w
  (Ran.mk result h w).reported .read h.names.base (readDetail "get_base_file")

def readContents (h : Handle) (w : World) : Except Errno Bytes × World :=
  match h.openResolved w with
  | (.error e, w) => (.error e, w)
  | (.ok (i, _), w) =>
      let size := w.fs.size i
      if size = 0 then (.error .eio, w.logError "Invalid file size")
      else Files.readSized w i size

def readFully (h : Handle) (w : World) : Ran Bytes :=
  let (result, w) := h.readContents w
  let details := match result with
    | .ok bytes => .object [("op", .string "read_fully"), ("length", .int bytes.length)]
    | .error _ => readDetail "read_fully"
  (Ran.mk result h w).reported .read h.names.base details

def openReader (h : Handle) (w : World) : Except Errno Reader × World :=
  match h.resolve w with
  | (.error e, w) => (.error e, w)
  | (.ok path, w) =>
      match Files.openReadOnly w.fs path with
      | .error e => (.error e, w)
      | .ok i =>
          let (file, w) := w.openNode i
          (.ok { file, path }, w)

def openRead (h : Handle) (w : World) : Ran Reader :=
  let (result, w) := h.openReader w
  (Ran.mk result h w).reported .read h.names.base (readDetail "open_read")

end Handle
end AtomicUpdate
