import AtomicUpdate.Proofs.Fs.Likeness
import AtomicUpdate.Proofs.Fs.Reopened
import AtomicUpdate.Proofs.Staged.Holding

/-! What the readers of a base are told. Bytes that change elsewhere make no difference to them; and they are
given what is in the file that the base leads to, unless the base has no canonical path. -/
namespace AtomicUpdate

def Fs.Elsewhere (base : String) (k : Option Ino) (fs : Fs) : Prop :=
  ∀ i, (fs.lookup (Path.ofString base) = .ok i ∨
    ∃ q, Files.canonical fs (Path.ofString base) = .ok q ∧ fs.lookup q = .ok i) → k ≠ some i

namespace Fs.Worded
variable {k : Option Ino} {fs fs' : Fs}

theorem canonical (worded : Worded k fs fs') (p : Path) : Files.canonical fs' p = Files.canonical fs p := by
  rw [Files.canonical, Files.canonical, worded.likens.canonical worded.size]

theorem openReadOnly (worded : Worded k fs fs') (p : Path) :
    Files.openReadOnly fs' p = Files.openReadOnly fs p := by
  rw [Files.openReadOnly, Files.openReadOnly, openRead, openRead, worded.likens.alike.lookup]
  simp only [worded.likens.demand]

theorem bars (worded : Worded k fs fs') {p : Path} {e : Errno} (bars : fs.Bars p e) : fs'.Bars p e :=
  bars.imp (worded.canonical p).trans fun ⟨q, resolved, unopened⟩ =>
    ⟨q, (worded.canonical p).trans resolved, (worded.openReadOnly q).trans unopened⟩

theorem contents (worded : Worded k fs fs') {p : Path} (other : ∀ i, fs.lookup p = .ok i → k ≠ some i) :
    fs'.contents? p = fs.contents? p := by
  rw [contents?, contents?, worded.likens.alike.lookup]
  cases led : fs.lookup p with
  | error e => rfl
  | ok i =>
    dsimp only
    rw [worded.others i (other i led)]

end Fs.Worded

namespace Handle
variable {h : Handle} {w w' : World} {k : Option Ino}

theorem rereads (worded : Fs.Worded k w.fs w'.fs) (elsewhere : w.fs.Elsewhere h.names.base k) :
    (h.readFully w').result = (h.readFully w).result := by
  change (h.readContents w').1 = (h.readContents w).1
  rcases w.fs.barsOrOpens h.names.basePath with ⟨e, bars⟩ | ⟨q, i, resolved, opens⟩
  · rw [readContentsBarred bars, readContentsBarred (worded.bars bars)]
  · have same := worded.others i (elsewhere i (Or.inr ⟨q, resolved, Fs.openReadOnlyLed opens⟩))
    have size : w'.fs.size i = w.fs.size i := by
      rw [Fs.size, Fs.size, same, worded.likens.alike.root]
    have source : Files.source w'.fs i = Files.source w.fs i := Files.sourceSame same
    rw [readContents, readContents, openResolvedOf resolved opens,
      openResolvedOf ((worded.canonical _).trans resolved) ((worded.openReadOnly q).trans opens)]
    dsimp only
    rw [size]
    split
    · rfl
    · rw [Files.readSized, Files.readSized, Files.readVia, Files.readVia, source]
      split
      · rfl
      · split <;> rfl

theorem reopens (worded : Fs.Worded k w.fs w'.fs) (elsewhere : w.fs.Elsewhere h.names.base k)
    (quiet : h.Quiet) : openAnswer (h.openRead w') = openAnswer (h.openRead w) := by
  have after : ∀ w, (h.openRead w).world.fs = w.fs := fun w => (readFs quiet w).2.2
  have result : ∀ w, (h.openRead w).result = (h.openReader w).1 := fun _ => rfl
  rw [openAnswer, openAnswer, after, after, result, result]
  rcases w.fs.barsOrOpens h.names.basePath with ⟨e, bars⟩ | ⟨q, i, resolved, opens⟩
  · rw [openReaderBarred bars, openReaderBarred (worded.bars bars)]
    rfl
  · have same := worded.others i (elsewhere i (Or.inr ⟨q, resolved, Fs.openReadOnlyLed opens⟩))
    rw [openReaderOf resolved opens,
      openReaderOf ((worded.canonical _).trans resolved) ((worded.openReadOnly q).trans opens)]
    change (Reader.readAll _ w'.fs).map (·.1) = (Reader.readAll _ w.fs).map (·.1)
    simp only [Reader.readAll, OpenFile.readAll, Fs.readRest, same]
    cases w.fs.node? i with
    | none => rfl
    | some node => cases node <;> rfl

structure Rereads (h : Handle) (w w' : World) : Prop where
  contents : w'.fs.contents? h.names.basePath = w.fs.contents? h.names.basePath
  whole : (h.readFully w').result = (h.readFully w).result
  opened : openAnswer (h.openRead w') = openAnswer (h.openRead w)

theorem rereadsWorded (quiet : h.Quiet) (worded : Fs.Worded k w.fs w'.fs)
    (elsewhere : w.fs.Elsewhere h.names.base k) : Rereads h w w' :=
  ⟨worded.contents fun i led => elsewhere i (Or.inl led), rereads worded elsewhere,
    reopens worded elsewhere quiet⟩

/-- The base leads to these bytes. Readers are given them where the base has a canonical path, as a whole only if
there are any and a buffer can be reserved for all of them; and they are told why not where it has none. -/
structure Gives (h : Handle) (w : World) (c : Bytes) : Prop where
  contents : w.fs.contents? h.names.basePath = some c
  whole : ∀ q, Files.canonical w.fs h.names.basePath = .ok q → (h.readFully w).result = wholeOf (some c)
  opened : ∀ q, Files.canonical w.fs h.names.basePath = .ok q → openAnswer (h.openRead w) = .ok c
  unresolved : ∀ e, Files.canonical w.fs h.names.basePath = .error e →
    (h.readFully w).result = .error e ∧ openAnswer (h.openRead w) = .error e

theorem Gives.based {c : Bytes} {base : String} (gives : Gives h w c) (names : h.names = .ofBase base) :
    w.fs.contents? (Path.ofString base) = some c := by
  have contents := gives.contents
  rw [names] at contents
  exact contents

theorem gives (quiet : h.Quiet) (tidy : w.fs.Tidy) (upright : w.fs.Upright) (legible : w.fs.Legible)
    (root : w.fs.isDir w.fs.root = true) {i : Ino} {c : Bytes} {m : Nat}
    (led : w.fs.lookup h.names.basePath = .ok i) (file : w.fs.node? i = some (.file c m))
    (readable : (Node.file c m).permits .read = true) : Gives h w c where
  contents := Fs.contentsOf led file
  whole := by
    intro q canonical
    have reopened := Fs.canonicalOpens tidy upright legible root led file readable canonical
    exact readFullyOpened (openResolvedOf canonical reopened) file (Fs.sizeOf root file)
  opened := by
    intro q canonical
    have reopened := Fs.canonicalOpens tidy upright legible root led file readable canonical
    have opened : (h.openRead w).result = .ok { file := { ino := i, owner := w.owners }, path := q } :=
      congrArg Prod.fst (openReaderOf canonical reopened)
    have there : (h.openRead w).world.fs.node? i = some (.file c m) := by
      rw [(readFs quiet w).2.2]
      exact file
    exact openAnswerFile opened there
  unresolved := by
    intro e failed
    have bars : w.fs.Bars h.names.basePath e := Or.inl failed
    have unread : (h.readFully w).result = .error e := readContentsBarred bars
    have unopened : (h.openRead w).result = .error e := openReaderBarred bars
    exact ⟨unread, by rw [openAnswer, unopened]; rfl⟩

end Handle
end AtomicUpdate
