import AtomicUpdate.Fs.Lookup

/-! The one absolute path of a file that is free of links, of `.` and of `..`. It is found name by
name; the path asked for may have any length, but no path met on the way may reach the limit of a
single call. Numbers bound the links that are followed and the depth of a directory. -/
namespace AtomicUpdate

abbrev Trail := List (Name × Ino)

namespace Trail

def path : Trail → Path
  | [] => [Path.slash]
  | [(n, _)] => Path.slash :: n
  | (n, _) :: up => path up ++ Path.slash :: n

def node (fs : Fs) : Trail → Ino
  | [] => fs.root
  | (_, i) :: _ => i

def lengthWith (t : Trail) (n : Name) : Nat :=
  t.foldl (fun sum e => sum + e.1.length + 1) (n.length + 1)

end Trail

inductive Climb
  | done (trail : Trail)
  | link (trail : Trail) (target : Path) (rest : List Name)
  deriving DecidableEq, Repr

namespace Fs

/-- Whether the names after one oblige it to be a directory: `..` does, and so does an end that
only `.` or a slash fills. An ordinary name leaves the question to its own lookup. -/
def obliged (rest : List Name) : Bool :=
  !rest.isEmpty && match rest.dropWhile (fun n => n = Path.dot) with
    | [] => true
    | n :: _ => n = Path.dotDot

def childAlong (fs : Fs) (trail : Trail) (n : Name) : Except Errno (Option Ino) := do
  -- Below the root a name is looked up by its whole path.
  if !trail.isEmpty then
    (fs.root :: trail.tail.map (·.2)).forM (fs.demand · .search)
  fs.child (trail.node fs) n

def climb (fs : Fs) (trail : Trail) : List Name → Except Errno Climb
  | [] => .ok (.done trail)
  | n :: rest =>
      if n = Path.dot then fs.climb trail rest
      else if n = Path.dotDot then fs.climb trail.tail rest
      else if Limits.pathMax ≤ trail.lengthWith n then .error .enametoolong
      else match fs.childAlong trail n with
        | .error e => .error e
        | .ok none => .error .enoent
        | .ok (some i) =>
            match fs.node? i with
            | some (.link target) => .ok (.link trail target rest)
            | _ =>
                if obliged rest && !fs.isDir i then .error .enotdir
                else fs.climb ((n, i) :: trail) rest

def ascend (fs : Fs) : Nat → Trail → List Name → Except Errno Trail
  | links, trail, names =>
    match fs.climb trail names with
    | .error e => .error e
    | .ok (.done trail) => .ok trail
    | .ok (.link trail target rest) =>
        match links with
        | 0 => .error .eloop
        | links + 1 =>
            fs.ascend links (if target.isAbsolute then [] else trail) (target.steps ++ rest)

def trailOf? (fs : Fs) : Nat → Ino → Option Trail
  | 0, _ => none
  | depth + 1, d =>
      if d = fs.root then some []
      else match fs.node? d with
        | some (.dir _ parent _) =>
            match fs.node? parent with
            | some (.dir entries ..) => do
                let (n, _) ← entries.entries.find? (fun e => e.2 = d)
                let up ← fs.trailOf? depth parent
                some ((n, d) :: up)
            | _ => none
        | _ => none

def canonical (fs : Fs) (p : Path) : Except Errno Path := do
  if p = [] then .error .enoent
  else
    let trail ← if p.isAbsolute then .ok []
      else match fs.trailOf? (fs.nodes.size + 1) fs.cwd with
        | some t => .ok t
        | none => .error .enoent
    let trail ← fs.ascend Limits.linkMax trail p.steps
    .ok trail.path

end Fs
end AtomicUpdate
