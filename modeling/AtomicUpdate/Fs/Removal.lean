import AtomicUpdate.Fs.Outside

/-! Removing whole directories. What is in one goes first, entry by entry, and each directory on
the way must let itself be listed, searched and written; so one that does not keeps all above it
in place, and what had not been reached by then. -/
namespace AtomicUpdate.Fs

/-- Removes what is in a directory, the newest entry first, and stops at the first that stays.
The first number bounds the depth. -/
def emptyDir : Nat → Ino → Fs → Change
  | 0, _, fs => ⟨fs, false⟩
  | depth + 1, d, fs =>
      match fs.node? d with
      | some (.dir entries ..) =>
          if !fs.permits d .read then ⟨fs, false⟩
          else entries.entries.reverse.foldl (fun made (n, i) =>
            if !made.done || !made.fs.permits d .search then ⟨made.fs, false⟩
            else
              let cleared := if made.fs.isDir i then emptyDir depth i made.fs else made
              if cleared.done && cleared.fs.permits d .write then
                ⟨cleared.fs.updateDir d (·.erase n), true⟩
              else ⟨cleared.fs, false⟩) ⟨fs, true⟩
      | _ => ⟨fs, false⟩

def removeDir (fs : Fs) (p : Path) : Except Errno Fs := do
  let place ← fs.locate .never p
  match place.spot with
  | .top _ => .error .einval
  | .vacant .. => .error .enoent
  | .entry d n i => do
      fs.demand d .write
      if !fs.isDir i then .error .enotdir
      else if fs.isEmptyDir i then .ok (fs.updateDir d (·.erase n))
      else .error .enotempty

def removeTree (fs : Fs) (p : Path) : Change :=
  match fs.lookupEntry p with
  | .error _ => ⟨fs, false⟩
  | .ok i =>
      if fs.isDir i then
        let cleared := emptyDir (fs.nodes.size + 1) i fs
        if cleared.done then
          match cleared.fs.removeDir p with
          | .ok fs => ⟨fs, true⟩
          | .error e => ⟨cleared.fs, e = .enoent⟩
        else cleared
      else .ofExcept fs (fs.unlink p)

end AtomicUpdate.Fs
