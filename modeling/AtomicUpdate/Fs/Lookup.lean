import AtomicUpdate.Fs.Node

/-! Following a path to what it names. A lookup goes name by name, through directories that may be
searched; at a symbolic link it goes on with the link's target in front of the names still to come,
and at most forty times. -/
namespace AtomicUpdate

inductive Spot
  | top (dir : Ino)
  | entry (dir : Ino) (name : Name) (ino : Ino)
  | vacant (dir : Ino) (name : Name)
  deriving DecidableEq, Repr

inductive Halt
  | arrived (spot : Spot)
  | link (dir : Ino) (name : Name) (ino : Ino) (target : Path) (rest : List Name)
  deriving DecidableEq, Repr

structure Place where
  spot : Spot
  slash : Bool
  deriving DecidableEq, Repr

structure Follow where
  through : Bool → Bool
  /-- Whether the name may be about to be created. One with a slash after it is then refused
  as a directory and not looked up. -/
  creates : Bool := false

namespace Follow

def always : Follow := { through := fun _ => true }

def never : Follow := { through := fun _ => false }

def atSlash : Follow := { through := fun slash => slash }

def creating : Follow := { always with creates := true }

def creatingNew : Follow := { never with creates := true }

end Follow

namespace Spot

def ino? : Spot → Option Ino
  | .top d => some d
  | .entry _ _ i => some i
  | .vacant .. => none

end Spot

namespace Fs

def advance (fs : Fs) (refuse : Bool) (d : Ino) : List Name → Except Errno Halt
  | [] => .ok (.arrived (.top d))
  | n :: rest =>
      match fs.parent d with
      | .error e => .error e
      | .ok up =>
        if n = Path.dot then fs.advance refuse d rest
        else if n = Path.dotDot then fs.advance refuse up rest
        else if refuse && rest.isEmpty then .error .eisdir
        else match fs.child d n with
          | .error e => .error e
          | .ok none => if rest = [] then .ok (.arrived (.vacant d n)) else .error .enoent
          | .ok (some i) =>
              match fs.node? i with
              | some (.link target) => .ok (.link d n i target rest)
              | _ => if rest = [] then .ok (.arrived (.entry d n i)) else fs.advance refuse i rest

def startOf (fs : Fs) (d : Ino) (p : Path) : Ino := if p.isAbsolute then fs.root else d

def walk (fs : Fs) (follow : Follow) : Nat → Ino → List Name → Bool → Except Errno Place
  | links, d, names, slash =>
    match fs.advance (follow.creates && slash) d names with
    | .error e => .error e
    | .ok (.arrived spot) => .ok ⟨spot, slash⟩
    | .ok (.link dir name ino target rest) =>
        if rest = [] ∧ follow.through slash = false then .ok ⟨.entry dir name ino, slash⟩
        else match links with
          | 0 => .error .eloop
          | links + 1 =>
              fs.walk follow links (fs.startOf dir target) (target.names ++ rest)
                (slash || (rest.isEmpty && target.endsInSlash))

def checkLength (p : Path) : Except Errno Unit :=
  if p = [] then .error .enoent
  else if Limits.pathMax ≤ p.length then .error .enametoolong
  else .ok ()

def locate (fs : Fs) (follow : Follow) (p : Path) : Except Errno Place := do
  checkLength p
  fs.walk follow Limits.linkMax (fs.startOf fs.cwd p) p.names p.endsInSlash

def nodeAt (fs : Fs) (place : Place) : Except Errno Ino :=
  match place.spot.ino? with
  | none => .error .enoent
  | some i => if place.slash && !fs.isDir i then .error .enotdir else .ok i

def lookup (fs : Fs) (p : Path) : Except Errno Ino := do
  let place ← fs.locate .always p
  fs.nodeAt place

def lookupEntry (fs : Fs) (p : Path) : Except Errno Ino := do
  let place ← fs.locate .atSlash p
  fs.nodeAt place

end Fs
end AtomicUpdate
