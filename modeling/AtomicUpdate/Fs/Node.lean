import AtomicUpdate.Errno
import AtomicUpdate.Limits
import AtomicUpdate.Path
import AtomicUpdate.Table

/-! A file system as a value: a list of nodes, to which entries of directories point by number. A
node is never taken away, so whoever has opened one keeps it when its last name goes. Everything
belongs to the one who calls, whom the owner's bits of a mode bind. Of the two devices one holds
nothing and takes everything, and the other holds zeros without end and takes nothing. -/
namespace AtomicUpdate

abbrev Ino := Nat

inductive Device
  | null
  | full
  deriving DecidableEq, Repr

inductive Node
  | file (bytes : Bytes) (mode : Nat)
  | dir (entries : Table Name Ino) (parent : Ino) (mode : Nat)
  | link (target : Path)
  | device (kind : Device)
  deriving DecidableEq, Repr

inductive Access
  | read
  | write
  | search
  deriving DecidableEq, Repr

def Access.bit : Access → Nat
  | .read => 0o400
  | .write => 0o200
  | .search => 0o100

structure Fs where
  nodes : Array Node
  root : Ino
  cwd : Ino
  deriving DecidableEq, Repr

namespace Node

def isDir : Node → Bool
  | .dir .. => true
  | _ => false

def isFile : Node → Bool
  | .file .. => true
  | _ => false

def mode : Node → Nat
  | .file _ mode => mode
  | .dir _ _ mode => mode
  | .link _ => 0o777
  | .device _ => 0o666

def withMode (mode : Nat) : Node → Node
  | .file bytes _ => .file bytes mode
  | .dir entries parent _ => .dir entries parent mode
  | node => node

def permits (node : Node) (a : Access) : Bool := node.mode &&& a.bit ≠ 0

/-- The mode of a file after its contents have changed. It does not lend the rights of its owner
any more, nor those of its group where the group may execute it. -/
def withdrawn (mode : Nat) : Nat :=
  mode &&& if mode &&& 0o010 = 0 then 0o3777 else 0o1777

def rewritten (bytes : Bytes) : Node → Node
  | .file _ mode => .file bytes (withdrawn mode)
  | node => node

def size : Node → Nat
  | .file bytes _ => bytes.length
  | .dir entries .. => 20 * (entries.size + 2)
  | .link target => target.length
  | .device _ => 0

end Node

namespace Fs

def bare : Fs where
  nodes := #[
    .dir ⟨[("dev".toUTF8.data.toList, 1)]⟩ 0 0o755,
    .dir ⟨[("null".toUTF8.data.toList, 2), ("full".toUTF8.data.toList, 3)]⟩ 0 0o755,
    .device .null,
    .device .full]
  root := 0
  cwd := 0

def node? (fs : Fs) (i : Ino) : Option Node := fs.nodes[i]?

def isDir (fs : Fs) (i : Ino) : Bool := (fs.node? i).any Node.isDir

def replace (fs : Fs) (i : Ino) (n : Node) : Fs :=
  { fs with nodes := fs.nodes.setIfInBounds i n }

def add (fs : Fs) (n : Node) : Ino × Fs :=
  (fs.nodes.size, { fs with nodes := fs.nodes.push n })

def permits (fs : Fs) (i : Ino) (a : Access) : Bool := (fs.node? i).any (·.permits a)

def demand (fs : Fs) (i : Ino) (a : Access) : Except Errno Unit :=
  if fs.permits i a then .ok () else .error .eacces

def isGone (fs : Fs) (d : Ino) : Bool :=
  d ≠ fs.root && match fs.node? d with
    | some (.dir _ parent _) =>
        match fs.node? parent with
        | some (.dir entries ..) => !entries.entries.any (fun e => e.2 = d)
        | _ => true
    | _ => true

def parent (fs : Fs) (d : Ino) : Except Errno Ino :=
  match fs.node? d with
  | some (.dir _ parent _) => if fs.permits d .search then .ok parent else .error .eacces
  | _ => .error .enotdir

/-- Looks a name up. A directory that has been removed has no names, however long. -/
def child (fs : Fs) (d : Ino) (n : Name) : Except Errno (Option Ino) :=
  match fs.node? d with
  | some (.dir entries ..) =>
      if !fs.permits d .search then .error .eacces
      else if fs.isGone d then .error .enoent
      else if Limits.nameMax < n.length then .error .enametoolong
      else .ok (entries.get? n)
  | _ => .error .enotdir

def updateDir (fs : Fs) (d : Ino) (change : Table Name Ino → Table Name Ino) : Fs :=
  match fs.node? d with
  | some (.dir entries parent mode) => fs.replace d (.dir (change entries) parent mode)
  | _ => fs

def enter (fs : Fs) (d : Ino) (n : Name) (node : Node) : Except Errno (Ino × Fs) := do
  fs.demand d .write
  let (i, fs) := fs.add node
  .ok (i, fs.updateDir d (·.set n i))

theorem nodeReplace (fs : Fs) (i j : Ino) (n : Node) :
    (fs.replace i n).node? j = if i = j ∧ i < fs.nodes.size then some n else fs.node? j := by
  simp only [node?, replace, Array.getElem?_setIfInBounds]
  by_cases same : i = j
  · subst same; by_cases h : i < fs.nodes.size <;> simp [h]
  · simp [same]

theorem nodeAdd (fs : Fs) (n : Node) (j : Ino) :
    (fs.add n).2.node? j = if j = fs.nodes.size then some n else fs.node? j := by
  simp [node?, add, Array.getElem?_push]

end Fs
end AtomicUpdate
