import AtomicUpdate.Fs.Call

/-! What other programs do to the files: the ordinary changes that a handle has to live with. Where
a change is made of several calls, it gives back how far it got and whether it was done. Numbers
bound the depth of what is walked. -/
namespace AtomicUpdate.Fs

structure Change where
  fs : Fs
  done : Bool

def Change.ofExcept (before : Fs) (result : Except Errno Fs) : Change :=
  match result with
  | .ok fs => ⟨fs, true⟩
  | .error _ => ⟨before, false⟩

def dirMode (fs : Fs) (parent : Ino) : Nat :=
  0o755 ||| ((fs.node? parent).map (·.mode &&& 0o2000)).getD 0

def makeDir (fs : Fs) (p : Path) : Except Errno Fs := do
  let place ← fs.locate .never p
  match place.spot with
  | .vacant d n => (fs.enter d n (.dir .empty d (fs.dirMode d))).map (·.2)
  | _ => .error .eexist

def makeDirs (fs : Fs) : Nat → Path → Change
  | depth, p =>
      if p = [] then ⟨fs, true⟩
      else match fs.makeDir p with
        | .ok fs => ⟨fs, true⟩
        | .error e =>
            if e = .enoent then
              match depth, p.parent? with
              | depth + 1, some up =>
                  let made := fs.makeDirs depth up
                  if made.done then
                    match made.fs.makeDir p with
                    | .ok fs => ⟨fs, true⟩
                    | .error _ => ⟨made.fs, holdsDir made.fs p⟩
                  else made
              | _, _ => ⟨fs, false⟩
            else ⟨fs, holdsDir fs p⟩
where
  holdsDir (fs : Fs) (p : Path) : Bool :=
    match fs.lookup p with
    | .ok i => fs.isDir i
    | .error _ => false

def writeWhole (fs : Fs) (p : Path) (data : Bytes) : Change :=
  match fs.openCreate [.write] 0o644 p with
  | .error _ => ⟨fs, false⟩
  | .ok (i, fs) => .ofExcept fs ((fs.truncate i).writeAt i 0 data)

def symlink (fs : Fs) (p target : Path) : Except Errno Fs := do
  checkLength target
  let place ← fs.locate .never p
  match place.spot with
  | .vacant d n =>
      if place.slash then .error .enoent else (fs.enter d n (.link target)).map (·.2)
  | _ => .error .eexist

def hardLink (fs : Fs) (p existing : Path) : Except Errno Fs := do
  let i ← fs.lookupEntry existing
  let place ← fs.locate .never p
  match place.spot with
  | .vacant d n =>
      if place.slash then .error .enoent
      else do
        fs.demand d .write
        if fs.isDir i then .error .eperm else .ok (fs.updateDir d (·.set n i))
  | _ => .error .eexist

def isBelow (fs : Fs) (above : Ino) : Nat → Ino → Bool
  | 0, d => d = above
  | depth + 1, d =>
      d = above || match fs.node? d with
        | some (.dir _ parent _) => parent ≠ d && fs.isBelow above depth parent
        | _ => false

def rename (fs : Fs) (old new : Path) : Except Errno Fs := do
  let oldPlace ← fs.locate .never old
  let newPlace ← fs.locate .never new
  match oldPlace.spot with
  | .top _ => .error .ebusy
  | .vacant .. => .error .enoent
  | .entry d n i =>
      if !fs.isDir i && (oldPlace.slash || newPlace.slash) then .error .enotdir
      else
        let move (d2 : Ino) (n2 : Name) : Except Errno Fs :=
          if fs.isDir i && fs.isBelow i fs.nodes.size d2 then .error .einval
          else do
            fs.demand d .write
            fs.demand d2 .write
            if fs.isDir i && d ≠ d2 then fs.demand i .write
            let fs := (fs.updateDir d (·.erase n)).updateDir d2 (supplant n2 i)
            match fs.node? i with
            | some (.dir entries _ mode) => .ok (fs.replace i (.dir entries d2 mode))
            | _ => .ok fs
        match newPlace.spot with
        | .top _ => .error .ebusy
        | .vacant d2 n2 => move d2 n2
        | .entry d2 n2 j =>
            if i = j then .ok fs
            else do
              fs.mayReplace i j
              move d2 n2

def chmod (fs : Fs) (p : Path) (mode : Nat) : Except Errno Fs := do
  let i ← fs.lookup p
  match fs.node? i with
  | some node => .ok (fs.replace i (node.withMode (mode &&& 0o7777)))
  | none => .error .enoent

def permissions (fs : Fs) (p : Path) : Except Errno Nat := do
  let i ← fs.lookupEntry p
  match fs.node? i with
  | some node => .ok node.mode
  | none => .error .enoent

end AtomicUpdate.Fs
