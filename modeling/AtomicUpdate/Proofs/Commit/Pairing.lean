import AtomicUpdate.Proofs.Commit.Agreement
import AtomicUpdate.Proofs.Staged.Holding

/-! The two ways in which the path of a temp file is taken. A start appends to the text of the base, while a
commit splits both paths into a folder and a name, with slashes and dots at the end left out of account. The
two agree where the base ends in a name and nowhere else; and where they do, what a commit renames is what
the start has made. -/
namespace AtomicUpdate
open Path (Plain Proper)

namespace Path

theorem fileNamePlain {p : Path} {n : Name} (named : fileName? p = some n) :
    n ≠ [] ∧ n ≠ dot ∧ n ≠ dotDot := by
  unfold fileName? at named
  split at named
  · rename_i first rest counted
    split at named
    · cases named
    · rename_i other
      cases named
      have counts := List.head?_dropWhile_not isIdle (segments (p.drop p.lead.length)).reverse
      rw [← backwards, counted] at counts
      have counts : isIdle n = false := by simpa using counts
      refine ⟨?_, ?_, other⟩
      · rintro rfl
        cases counts
      · rintro rfl
        cases counts
  · cases named

theorem folderShared {pre n k : Path} (ends : pre = [] ∨ ∃ a, pre = a ++ [slash]) (plain : Plain n)
    (plain' : Plain k) : folder (pre ++ n) = folder (pre ++ k) := by
  rw [folder, folder, parentThrough ends plain, parentThrough ends plain']

end Path

structure Paired (base temp : Path) (s : Suffix) : Prop where
  folder : temp.folder = base.folder
  named : ∃ n, base.fileName? = some n ∧ temp.fileName? = some (s.after n)

theorem pairedExact (base : String) (s : Suffix) :
    Paired (Path.ofString base) (Path.ofString (Template.fill (Template.stemOf base) s)) s ↔
      Plain (leafOf base) := by
  have temp := Path.fileNameThrough (folderEnds base) (afterPlain base s)
  rw [tempPath]
  constructor
  · rintro ⟨_, n, named, same⟩
    rw [temp] at same
    have same : leafOf base = n := List.append_cancel_right (Option.some.inj same)
    obtain ⟨nonempty, notDot, notDotDot⟩ := Path.fileNamePlain named
    rw [← same] at nonempty notDot notDotDot
    exact ⟨nonempty, notDot, notDotDot, Path.afterNoSlash _⟩
  · intro plain
    rw [basePath]
    exact ⟨Path.folderShared (folderEnds base) (afterPlain base s) plain, leafOf base,
      Path.fileNameThrough (folderEnds base) plain, temp⟩

namespace Commit
variable {fs : Fs} {pre : Path} {d i : Ino} {t b : Name} {c : Bytes} {m : Nat}

theorem preparedTakes {base : String} {n t b : Name} (plain : Plain (leafOf base))
    (temp : Proper (folderOf base) n)
    (ready : prepare fs (folderOf base ++ n) (folderOf base ++ leafOf base) = .ok (t, b, d)) (i : Ino) :
    fs.child d t = .ok (some i) ↔ fs.lookupEntry (folderOf base ++ n) = .ok i := by
  have ends := folderEnds base
  obtain ⟨rfl, rfl, led⟩ := prepared plain temp.plain ready
  rw [Path.folderShared ends plain temp.plain] at led
  refine ⟨fun child => ?_, fun found => ?_⟩
  · have home := Fs.homeOfFolder ends temp.plain led child
    exact home.lookupEntry temp (Fs.childExact child).2.2.2.2
  · obtain ⟨e, home, entry, short⟩ := Fs.entryHome ends temp.plain found
    cases (home.folder temp).symm.trans led
    rw [home.child short, entry]

def verdict (readable forced allowCopy : Bool) : Except Errno Unit :=
  if !readable then .error .eacces
  else if forced && !allowCopy then .error .exdev
  else .ok ()

structure Clear (fs : Fs) (d : Ino) (b : Name) (i : Ino) (c : Bytes) (m : Nat) (copies : Bool) : Prop where
  tidy : fs.Tidy
  write : fs.permits d .write = true
  file : fs.node? i = some (.file c m)
  readable : (Node.file c m).permits .read = true
  replaceable : ∀ j, fs.named? d b = some j → fs.isDir j = false ∧ (copies = true →
    j ≠ i ∧ fs.permits j .write = true ∧ ∃ c' m', fs.node? j = some (.file c' m'))

namespace Clear

theorem renames {copies : Bool} (clear : Clear fs d b i c m copies) (home : fs.Home pre d) (temp : Proper pre t)
    (base : Proper pre b) (staged : fs.named? d t = some i) :
    ∃ fs', rename fs d t b false = .ok fs' ∧ fs'.Holds d b i c m := by
  by_cases linked : fs.named? d b = some i
  · refine ⟨fs, ?_, linked, clear.file⟩
    rw [renameNamed temp base, Fs.renameIn, home.child temp.short, home.child base.short, staged, linked]
    exact if_pos rfl
  · refine ⟨_, renamed home temp base clear.write ⟨staged, clear.file⟩ fun j taken =>
      ⟨(clear.replaceable j taken).1, ?_⟩, ?_, Fs.fileUpdateDir _ clear.file⟩
    · rintro rfl
      exact linked taken
    · rw [Fs.entryMove home.dir, if_pos rfl, if_pos rfl]

theorem copies (clear : Clear fs d b i c m true) (home : fs.Home pre d) (temp : Proper pre t)
    (base : Proper pre b) (other : b ≠ t) (staged : fs.named? d t = some i) (w : World) (here : w.fs = fs) :
    ∃ fs' j m', copyOver (pre ++ t) (pre ++ b) w = (.ok (), w.withFs fs') ∧ fs'.Holds d b j c m' := by
  have desk : Desk fs pre d t b i c m := {
    home, temp, base, other
    tidy := clear.tidy
    write := clear.write
    staged := ⟨staged, clear.file⟩
    readable := clear.readable
    committed := by
      cases taken : fs.named? d b with
      | none => exact Or.inl rfl
      | some j =>
        obtain ⟨_, writable⟩ := clear.replaceable j taken
        obtain ⟨apart, _, c', m', file⟩ := writable rfl
        exact Or.inr ⟨j, c', m', ⟨taken, file⟩, apart⟩ }
  rcases desk.copies w here with ⟨⟨j, taken, sealed'⟩, _⟩ | ⟨fs', copied, commits⟩
  · cases sealed'.symm.trans ((clear.replaceable j taken).2 rfl).2.1
  · obtain ⟨j, m', placed, _⟩ := commits.base
    exact ⟨fs', j, m', copied, placed⟩

theorem runs {w : World} {force : Option Bool} {allowCopy : Bool}
    (clear : Clear w.fs d b i c m (force.getD (forcedByEnv w.env) && allowCopy)) (home : w.fs.Home pre d)
    (temp : Proper pre t) (base : Proper pre b) (other : b ≠ t) (staged : w.fs.named? d t = some i) :
    (run (pre ++ t) (pre ++ b) allowCopy force w).1.map (fun _ => ()) =
        verdict (w.fs.permits d .read) (force.getD (forcedByEnv w.env)) allowCopy ∧
      ((verdict (w.fs.permits d .read) (force.getD (forcedByEnv w.env)) allowCopy = .ok ()) →
        ∃ j m', (run (pre ++ t) (pre ++ b) allowCopy force w).2.fs.Holds d b j c m' ∧
          (force.getD (forcedByEnv w.env) = false → j = i)) := by
  have prepared := preparedHome home temp base
  cases read : w.fs.permits d .read with
  | false =>
    rw [read, if_neg Bool.false_ne_true] at prepared
    rw [runUnready prepared]
    exact ⟨rfl, fun ok => by cases ok⟩
  | true =>
    rw [read, if_pos rfl] at prepared
    cases forced : force.getD (forcedByEnv w.env) with
    | false =>
      obtain ⟨fs', moved, placed⟩ := clear.renames home temp base staged
      rw [runRenames prepared forced, moved]
      exact ⟨rfl, fun _ => ⟨i, m, placed, fun _ => rfl⟩⟩
    | true =>
      cases allowCopy with
      | false =>
        rw [runBarred prepared forced rfl]
        exact ⟨rfl, fun ok => by cases ok⟩
      | true =>
        rw [forced] at clear
        obtain ⟨fs', j, m', copied, placed⟩ :=
          clear.copies home temp base other staged (warned (pre ++ b) w) rfl
        rw [runCopies prepared forced rfl, copied]
        exact ⟨rfl, fun _ => ⟨j, m', placed, fun wrong => by cases wrong⟩⟩

end Clear
end Commit

namespace Handle
variable {base : String} {s : Suffix} {d i : Ino} {c : Bytes} {m : Nat} {h : Handle} {w : World}

theorem startedName {temp : String} (built : Over base h.names) (started : (h.startWrite w).result = .ok temp) :
    ∃ k, temp = Files.drawName (Template.stemOf base) (h.takeGuard w).world k := by
  obtain ⟨_, idle, _, created⟩ := openedBy started
  obtain ⟨stem, k, template, name⟩ := Files.createdName (createdTemp created)
  rw [h.takeGuardNames w] at template
  obtain ⟨_, rfl⟩ := built.drawn idle template
  exact ⟨k, name⟩

theorem finishWriteClear (names : h.names = .writing base s) (home : w.fs.Home (folderOf base) d)
    (temp : Proper (folderOf base) (s.after (leafOf base))) (plain : Plain (leafOf base))
    (staged : w.fs.named? d (s.after (leafOf base)) = some i)
    (clear : Commit.Clear w.fs d (leafOf base) i c m (h.forced w && h.allowsCopy)) :
    (h.finishWrite w).result = Commit.verdict (w.fs.permits d .read) (h.forced w) h.allowsCopy ∧
      ((h.finishWrite w).result = .ok () → ∃ fs j m', h.Told fs (h.finishWrite w).world.fs ∧
        fs.Holds d (leafOf base) j c m' ∧ (h.forced w = false → j = i)) := by
  have pending : h.names.temp? = some (Template.fill (Template.stemOf base) s) := by
    rw [names]
    rfl
  have flushed : h.flushStaged (tempOf base s) w = .ok () := by
    unfold flushStaged
    split
    · rw [tempOf, tempPath]
      exact home.flush temp ⟨staged, clear.file⟩ clear.readable
    · rfl
  obtain ⟨result, placed⟩ := clear.runs home temp (temp.shorter plain) (afterNotLeaf base s).symm staged
  have ran : h.commitTo (Template.fill (Template.stemOf base) s) w =
      Commit.run (folderOf base ++ s.after (leafOf base)) (folderOf base ++ leafOf base) h.allowsCopy
        h.forceExdev w := by
    rw [commitTo, tempPath, ← basePath, names]
    rfl
  have told := h.finishWriteTold w
  rw [← ran] at result placed
  rw [finishWriteResult]
  rw [h.commitCycleFlushed pending flushed] at told ⊢
  generalize h.commitTo (Template.fill (Template.stemOf base) s) w = r at result placed told
  obtain ⟨result', w'⟩ := r
  cases result' with
  | error e => exact ⟨result, fun ok => by cases ok⟩
  | ok done =>
    obtain ⟨j, m', holds, same⟩ := placed result.symm
    dsimp only at told
    rw [endCycleFs] at told
    exact ⟨result, fun _ => ⟨_, j, m', told, holds, same⟩⟩

structure Meets (base temp : String) (s : Suffix) : Prop where
  paired : Paired (Path.ofString base) (Path.ofString temp) s
  takes : ∀ {fs t b d}, Commit.prepare fs (Path.ofString temp) (Path.ofString base) = .ok (t, b, d) →
    ∀ i, fs.child d t = .ok (some i) ↔ fs.lookupEntry (Path.ofString temp) = .ok i
  commits : ∀ {h : Handle} {w : World} {b d i c m}, h.names = .writing base s →
    (Path.ofString base).fileName? = some b → w.fs.lookup (Path.ofString base).folder = .ok d →
    w.fs.lookupEntry (Path.ofString temp) = .ok i →
    Commit.Clear w.fs d b i c m (h.forced w && h.allowsCopy) →
    (h.finishWrite w).result = Commit.verdict (w.fs.permits d .read) (h.forced w) h.allowsCopy ∧
      ((h.finishWrite w).result = .ok () → ∃ fs j m', h.Told fs (h.finishWrite w).world.fs ∧
        fs.Holds d b j c m' ∧ (h.forced w = false → j = i))

theorem meetsExact (base : String) {s : Suffix} (temp : Proper (folderOf base) (s.after (leafOf base))) :
    Meets base (Template.fill (Template.stemOf base) s) s ↔ Plain (leafOf base) := by
  refine ⟨fun meets => (pairedExact base s).mp meets.paired, fun plain => ?_⟩
  refine ⟨(pairedExact base s).mpr plain, ?_, ?_⟩
  · intro fs t b d ready
    rw [tempPath, basePath] at ready
    rw [tempPath]
    exact Commit.preparedTakes plain temp ready
  · intro h w b d i c m names named led found clear
    rw [basePath] at named led
    rw [tempPath] at found
    cases (Path.fileNameThrough (folderEnds base) plain).symm.trans named
    obtain ⟨e, home, staged, _⟩ := Fs.entryHome (folderEnds base) temp.plain found
    cases (home.folder (temp.shorter plain)).symm.trans led
    exact finishWriteClear names home temp plain staged clear

/-- Every start that succeeds makes its temp file of the base and six drawn characters, and the temp file is what
commits put in the place of the base, if and only if the text of the base ends in a name of its own. -/
theorem startMeets {first : Handle} {past : Past} {temp : String} (built : first.names = .ofBase base)
    (run : Run first past h) (started : (h.startWrite w).result = .ok temp) :
    ∃ k s, s = (h.takeGuard w).world.draws ((h.takeGuard w).world.drawn + k) ∧
      temp = Template.fill (Template.stemOf base) s ∧ (h.startWrite w).handle.names = .writing base s ∧
      (∃ fs i, h.Told fs (h.startWrite w).world.fs ∧ w.fs.node? i = none ∧ fs.node? i = some (.file [] 0o600) ∧
        fs.lookupEntry (Path.ofString temp) = .ok i) ∧
      (Meets base temp s ↔ Plain (leafOf base)) := by
  have named := run.over built
  obtain ⟨k, rfl⟩ := startedName named started
  have told := h.startWriteTold w
  have begun : Begun base h w (h.openCycle w) := openCycleBegun named
  replace started : (h.openCycle w).result = .ok _ := started
  have same : (h.startWrite w).handle = (h.openCycle w).handle := rfl
  rw [same]
  generalize h.openCycle w = r at begun started told
  cases begun with
  | refused error => cases error.symm.trans started
  | @opened s fs d idle ok names sink gains home proper free write made =>
    have name := Except.ok.inj (ok.symm.trans started)
    have born := Fs.bornHolds home.dir (s.after (leafOf base)) 0o600
    have home' := home.kept (Fs.keepsBorn (fun _ => False) free 0o600)
    have fresh : w.fs.node? fs.nodes.size = none := Array.getElem?_eq_none gains.more
    rw [made] at told
    rw [← name]
    refine ⟨k, s, Template.fillInjective name, rfl, names, ⟨_, _, told, fresh, born.file, ?_⟩,
      meetsExact base proper⟩
    rw [tempPath]
    exact home'.lookupEntry proper born.entry

theorem dottedMeets :
    let h := Handle.ofBase ".//f"
    let w : World := { fs := .bare }
    let started := h.startWrite w
    let finished := started.handle.finishWrite started.world
    finished.result = .ok () ∧ finished.world.fs.contents? (Path.ofString "f") = some [] ∧
      ∃ temp s, started.result = .ok temp ∧ Meets ".//f" temp s := by
  intro h w started finished
  have ok : started.result = .ok (Files.drawName (Template.stemOf ".//f") w 0) := by decide +kernel
  have built : h.names = .ofBase ".//f" := rfl
  obtain ⟨_, s, _, _, _, _, meets⟩ := startMeets built .start ok
  exact ⟨by decide +kernel, by decide +kernel, _, s, ok, meets.mpr (by decide +kernel)⟩

def linkedFolder : Fs where
  nodes := #[.dir ⟨[(Path.ofString "d", 1), (Path.ofString "l", 2)]⟩ 0 0o755, .dir .empty 0 0o755,
    .link (Path.ofString "d")]
  root := 0
  cwd := 0

theorem closedMissed :
    let h := Handle.ofBase "l/"
    let w : World := { fs := linkedFolder }
    let started := h.startWrite w
    let finished := started.handle.finishWrite started.world
    let temp := Files.drawName (Template.stemOf "l/") w 0
    started.result = .ok temp ∧ linkedFolder.lookup (Path.ofString temp).folder = .ok 1 ∧
      linkedFolder.lookup (Path.ofString "l/").folder = .ok 0 ∧
      (Path.ofString "l/").fileName? = some (Path.ofString "l") ∧
      linkedFolder.named? 0 (Path.ofString "l") = some 2 ∧ linkedFolder.isDir 2 = false ∧
      finished.result = .error .enoent ∧
      finished.world.fs.lookupEntry (Path.ofString temp) = .ok 3 := by
  decide +kernel

end Handle
end AtomicUpdate
