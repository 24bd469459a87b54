import AtomicUpdate.Proofs.Fs.Denotation
import AtomicUpdate.Proofs.Handle.Admission

/-! The folder of a cycle. A start asks for the parent of its template, from which slashes and dots have fallen
away, and then makes a file by the text as it is. It is one folder by both ways of writing it, for the template
as well as for every name that is made of it. -/
namespace AtomicUpdate
open Path (Plain)

namespace Names

def folderText (n : Names) : Path := Fs.ahead (Path.throughSlash n.stagingPath)

structure Lodged (base : String) (n : Names) : Prop where
  folder : n.folder = (ofBase base).folder
  text : n.folderText = (ofBase base).folderText
  bare : n.stagingPath.parent? = some [] ↔ Path.slash ∉ n.stagingPath
  fileName : n.stagingPath.fileName? = some (Path.afterSlash n.stagingPath)

variable {base : String}

theorem stagingBlank (base : String) : (ofBase base).stagingPath = folderOf base ++ blankOf base := blankPath base

theorem stagingDrawn (base : String) (s : Suffix) :
    (writing base s).stagingPath = folderOf base ++ s.after (leafOf base) := tempPath base s

theorem folderTextOf {n : Names} {leaf : Name} (plain : Plain leaf)
    (spelled : n.stagingPath = folderOf base ++ leaf) : n.folderText = Fs.ahead (folderOf base) := by
  rw [folderText, spelled, (Path.cutThrough (folderEnds base) plain.noSlash).1]

theorem folderBareExact {leaf : Name} (plain : Plain leaf) :
    folderOf base = [] ↔ Path.slash ∉ folderOf base ++ leaf := by
  rw [List.mem_append, not_or]
  constructor
  · intro bare
    rw [bare]
    exact ⟨List.not_mem_nil, plain.noSlash⟩
  · rintro ⟨none, _⟩
    rcases folderEnds base with bare | ⟨a, same⟩
    · exact bare
    · rw [same] at none
      exact absurd List.mem_concat_self none

theorem lodged {n : Names} {leaf : Name} (plain : Plain leaf)
    (spelled : n.stagingPath = folderOf base ++ leaf) : n.Lodged base where
  folder := by
    rw [folder, folder, spelled, stagingBlank, Path.folder, Path.folder, Path.parentThrough (folderEnds base) plain,
      Path.parentThrough (folderEnds base) (blankPlain base)]
  text := (folderTextOf plain spelled).trans (folderTextOf (blankPlain base) (stagingBlank base)).symm
  bare := by rw [spelled, ← folderBareExact plain, Path.parentBlank (folderEnds base) plain]
  fileName := by
    rw [spelled, (Path.cutThrough (folderEnds base) plain.noSlash).2, Path.fileNameThrough (folderEnds base) plain]

theorem folderShown (base : String) : Path.SameDir (ofBase base).folder (ofBase base).folderText := by
  rw [folderTextOf (blankPlain base) (stagingBlank base), folder, stagingBlank]
  exact (Path.folderPadded (folderEnds base) (blankPlain base)).sameDir

end Names

namespace Handle
variable {base : String} {h : Handle} {w : World}

structure Enters (h : Handle) (w : World) (temp : String) (d new : Ino) : Prop where
  checked : (h.takeGuard w).world.fs.lookup h.names.folder = .ok d
  dir : (h.takeGuard w).world.fs.isDir d = true
  free : (h.takeGuard w).world.fs.named? d (Path.afterSlash (Path.ofString temp)) = none
  made : (h.openCycle w).world.fs.Holds d (Path.afterSlash (Path.ofString temp)) new [] 0o600
  again : (h.openCycle w).world.fs.lookup (Path.ofString temp).folder = .ok d

theorem startEnters (built : Over base h.names) {temp : String} (started : (h.startWrite w).result = .ok temp) :
    ∃ d new, h.Enters w temp d new := by
  obtain ⟨g, idle, _, created⟩ := openedBy started
  have names := h.takeGuardNames w
  obtain ⟨s, d, live, rfl, home, proper, free, _, made⟩ := createdIn (names ▸ built) (names ▸ idle) created
  have plain := afterPlain base s
  have after := (Path.cutThrough (folderEnds base) plain.noSlash).2
  rw [← tempPath] at after
  have folder : h.names.folder = (folderOf base ++ s.after (leafOf base)).folder := by
    rw [← names, live, ← Names.stagingDrawn]
    exact (Names.lodged plain (Names.stagingDrawn base s)).folder.symm
  have home' := home.kept (Fs.keepsBorn (fun _ => True) free 0o600)
  refine ⟨d, (h.takeGuard w).world.fs.nodes.size, ?_, home.dir, after.symm ▸ free, ?_, ?_⟩
  · rw [folder]
    exact home.folder proper
  · rw [made, after]
    exact Fs.bornHolds home.dir _ _
  · rw [made, tempPath]
    exact home'.folder proper

/-- Whatever a base is, the folder that its starts look for and the text of the template up to the last slash
are two ways to write one directory; both are the same for each name made of the template, and the rest of the
text is the file's name. A start that succeeds has made its file in the very folder that it looked for. -/
theorem entersFolderChecked (base : String) :
    Path.SameDir (Names.ofBase base).folder (Names.ofBase base).folderText ∧
      (Names.ofBase base).Lodged base ∧ (∀ s : Suffix, (Names.writing base s).Lodged base) ∧
      ∀ (h : Handle) (w : World) (temp : String), Over base h.names → (h.startWrite w).result = .ok temp →
        ∃ d new, h.Enters w temp d new := by
  refine ⟨Names.folderShown base, ?_, fun s => ?_, fun h w temp built started => startEnters built started⟩
  · exact Names.lodged (blankPlain base) (Names.stagingBlank base)
  · exact Names.lodged (afterPlain base s) (Names.stagingDrawn base s)

theorem enteredThroughDots :
    let h := Handle.ofBase "dev/.//f"
    let w : World := { fs := .bare }
    h.names.folderText = Path.ofString "dev/.//" ∧ h.names.folder = Path.ofString "dev" ∧
      w.fs.lookup h.names.folder = .ok 1 ∧ w.fs.isDir 1 = true ∧
      (∀ e, w.fs.Denotes h.names.folderText e ↔ e = 1) ∧ w.fs.lookup h.names.folderText = .ok 1 ∧
      ∃ temp, (h.startWrite w).result = .ok temp ∧ ∃ d new, h.Enters w temp d new := by
  intro h w
  obtain ⟨same, _, _, enters⟩ := entersFolderChecked "dev/.//f"
  have folder : w.fs.lookup h.names.folder = .ok 1 := by decide +kernel
  have dir : w.fs.isDir 1 = true := by decide +kernel
  obtain ⟨denotes, led⟩ := same.found w.fs 1 folder dir
  have started : (h.startWrite w).result.isOk = true := by decide +kernel
  cases answer : (h.startWrite w).result with
  | error e =>
    rw [answer] at started
    cases started
  | ok temp =>
    exact ⟨by decide +kernel, by decide +kernel, folder, dir, denotes, led.trans (by decide +kernel), temp, rfl,
      enters h w temp .live answer⟩

end Handle
end AtomicUpdate
