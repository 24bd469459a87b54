import AtomicUpdate.Proofs.Commit.Fallback
import AtomicUpdate.Proofs.Handle.Begin
import AtomicUpdate.Proofs.Store.Finish

/-! Two runs of one commit, of which the second is told that the rename crosses devices and may copy instead.
Whoever reads the base afterwards, or looks at the handle, is told the same by both. -/
namespace AtomicUpdate
open Commit (Awaits)
open Path (Plain Proper)

structure Handle.Poised (base : String) (s : Suffix) (i : Ino) (c : Bytes) (m : Nat) (names : Names) (fs : Fs) :
    Prop where
  names : names = .writing base s
  plain : Plain (leafOf base)
  noNul : 0 ∉ Path.ofString base
  tidy : fs.Tidy
  upright : fs.Upright
  root : fs.isDir fs.root = true
  staged : fs.lookupEntry (Path.ofString (Template.fill (Template.stemOf base) s)) = .ok i
  file : fs.node? i = some (.file c m)
  committed : (∀ k, fs.lookupEntry (Path.ofString base) ≠ .ok k) ∨ ∃ j old mo,
    fs.lookup (Path.ofString base) = .ok j ∧ fs.node? j = some (.file old mo) ∧ j ≠ i

structure Handle.Entitled (base : String) (c : Bytes) (m : Nat) (fs : Fs) : Prop where
  folder : ∀ d, fs.lookup (Path.ofString base).folder = .ok d →
    fs.permits d .read = true ∧ fs.permits d .write = true
  staged : (Node.file c m).permits .read = true
  base : ∀ j, fs.lookup (Path.ofString base) = .ok j → fs.permits j .write = true
  kept : Node.withdrawn m = m

namespace Handle
variable {base : String} {s : Suffix} {i : Ino} {c : Bytes} {m : Nat} {h : Handle} {w : World}

theorem Poised.awaits {names : Names} {fs : Fs} (poised : Poised base s i c m names fs)
    (may : ∀ d, fs.lookup (Path.ofString base).folder = .ok d →
      fs.permits d .read = true ∧ fs.permits d .write = true)
    (readable : (Node.file c m).permits .read = true) :
    ∃ d, fs.lookup (Path.ofString base).folder = .ok d ∧
      Awaits fs (folderOf base) d (s.after (leafOf base)) (leafOf base) i c m := by
  have staged := poised.staged
  rw [tempPath] at staged
  obtain ⟨d, home, entry, short⟩ := Fs.entryHome (folderEnds base) (afterPlain base s) staged
  have noNul := poised.noNul
  rw [basePath] at noNul
  have temp : Proper (folderOf base) (s.after (leafOf base)) := by
    obtain ⟨place, found, _⟩ := Fs.lookupEntryExact staged
    refine ⟨afterPlain base s, short, Path.lengthFits (Fs.locateExact found).1, fun nul => ?_⟩
    rw [Suffix.after, ← List.append_assoc] at nul
    rcases List.mem_append.mp nul with before | inTail
    · exact noNul before
    · rcases List.mem_cons.mp inTail with under | later
      · exact absurd under (by decide)
      · exact (s.bytesPlain later).1 rfl
  have leaf := temp.shorter poised.plain
  have folder := home.folder leaf
  rw [← basePath] at folder
  obtain ⟨read, write⟩ := may d folder
  refine ⟨d, folder, {
    tidy := poised.tidy
    upright := poised.upright
    root := poised.root
    home := home
    temp := temp
    base := leaf
    other := (afterNotLeaf base s).symm
    staged := ⟨entry, poised.file⟩
    readable := readable
    read := read
    write := write
    committed := ?_ }⟩
  rcases poised.committed with absent | ⟨j, old, mo, led, file, other⟩
  · left
    cases taken : fs.named? d (leafOf base) with
    | none => rfl
    | some k =>
      have found := home.lookupEntry leaf taken
      rw [← basePath] at found
      exact absurd found (absent k)
  · exact Or.inr ⟨j, old, mo, basePath base ▸ led, file, other⟩

def freed (h : Handle) : List Event :=
  match h.guard with
  | some .scripted => [.lockRelease]
  | _ => []

def commitFact (base : String) (done : Committed) (clock : Nat) : Fact :=
  (((Fact.Draft.start .finishWrite).path base).field "details"
    (.object [("degraded", .bool done.degraded), ("fsync_ms", .int done.duration)])).emit .success
      (Clock.text clock)

def commitTold (h : Handle) (done : Committed) (clock : Nat) : List Event :=
  let line := s!"degraded commit (copy fallback) for {h.names.base}"
  (if h.sink.captures then [.fact (commitFact h.names.base done clock)] else []) ++
    if done.degraded then [if h.sink.captures then .audit .warn line else .auditLog .warn line] else []

theorem releaseGuardTold (h : Handle) (w : World) :
    h.releaseGuard w = { w with locks := (h.releaseGuard w).locks, events := w.events ++ h.freed } := by
  unfold releaseGuard freed
  cases h.guard with
  | none => rw [List.append_nil]
  | some g =>
    cases g with
    | scripted => rfl
    | sidecar o =>
      rw [List.append_nil]
      rfl

theorem finishWriteDone (h : Handle) (quiet : h.Quiet) {temp : String} {done : Committed} {w' : World}
    (pending : h.names.temp? = some temp) (flushed : h.flushStaged (Path.ofString temp) w = .ok ())
    (committed : h.commitTo temp w = (.ok done, w')) :
    h.finishWrite w = ⟨.ok (), { h with names := h.names.closed, guard := none },
      { w' with
        locks := (h.releaseGuard w').locks
        events := w'.events ++ h.freed ++ h.commitTold done w'.clock }⟩ := by
  have cycle : h.commitCycle w = ⟨.ok done, { h with names := h.names.closed, guard := none },
      { w' with locks := (h.releaseGuard w').locks, events := w'.events ++ h.freed }⟩ := by
    rw [h.commitCycleFlushed pending flushed, committed, ← h.releaseGuardTold w']
    rfl
  have fact : ∀ (f : Fact) (w : World), h.sink.fact f w =
      { w with events := w.events ++ if h.sink.captures then [.fact f] else [] } := by
    intro f w
    unfold Sink.fact
    split
    · rw [World.withFs, quiet f]
      rfl
    · rw [List.append_nil]
  rw [finishWrite, cycle]
  dsimp only [Ran.reported, Sink.report]
  rw [fact]
  obtain ⟨degraded, duration⟩ := done
  have based : h.names.closed.base = h.names.base := rfl
  cases degraded with
  | false =>
    dsimp only [Except.map, commitTold]
    rw [based, if_neg Bool.false_ne_true, List.append_nil, commitFact]
  | true =>
    dsimp only [Except.map, Sink.audit, World.emit, commitTold]
    rw [based, if_pos rfl, ← List.append_assoc, commitFact]

abbrev tempOf (base : String) (s : Suffix) : Path := Path.ofString (Template.fill (Template.stemOf base) s)

section Ways
variable {d : Ino} (awaits : Awaits w.fs (folderOf base) d (s.after (leafOf base)) (leafOf base) i c m)
include awaits

theorem stagedFlushed (h : Handle) : h.flushStaged (tempOf base s) w = .ok () := by
  unfold flushStaged
  split
  · rw [tempOf, tempPath]
    exact awaits.home.flush awaits.temp awaits.staged awaits.readable
  · rfl

theorem commitPrepared :
    Commit.prepare w.fs (tempOf base s) (Path.ofString base) = .ok (s.after (leafOf base), leafOf base, d) := by
  rw [tempOf, tempPath, basePath, Commit.preparedHome awaits.home awaits.temp awaits.base, if_pos awaits.read]

theorem renamesStaged (names : h.names = .writing base s) (renames : h.forced w = false) :
    ∃ fs', h.commitTo (Template.fill (Template.stemOf base) s) w = (.ok ⟨false, 0⟩, w.withFs fs') ∧
      fs'.Delivered (tempOf base s) (Path.ofString base) c m ∧
      (∀ j, Fs.ButFor d (leafOf base) j (w.fs.updateDir d (·.erase (s.after (leafOf base)))) fs') ∧
      Fs.Recedes w.fs fs' ∧ fs'.Tidy := by
  obtain ⟨fs', moved, delivered, butFor, recedes, tidy⟩ := awaits.renames
  rw [← basePath, ← tempPath] at delivered
  refine ⟨fs', ?_, delivered, butFor, recedes, tidy⟩
  have path : h.names.basePath = Path.ofString base := by rw [names]; rfl
  have forced : h.forceExdev.getD (Commit.forcedByEnv w.env) = false := renames
  rw [commitTo, path, Commit.runRenames (commitPrepared awaits) forced, moved]

theorem copiesStaged (h : Handle) (names : h.names = .writing base s)
    (may : ∀ j, w.fs.lookup (Path.ofString base) = .ok j → w.fs.permits j .write = true)
    (crosses : h.forced w = true) (allowed : h.allowsCopy = true) :
    ∃ j fs' mode, h.commitTo (Template.fill (Template.stemOf base) s) w = (.ok ⟨true, 0⟩,
        (w.logWarn s!"cross-device rename, falling back to copy for {(Path.ofString base).display}").withFs fs') ∧
      fs'.Delivered (tempOf base s) (Path.ofString base) c mode ∧ fs'.lookup (Path.ofString base) = .ok j ∧
      Fs.ButFor d (leafOf base) j (w.fs.updateDir d (·.erase (s.after (leafOf base)))) fs' ∧
      (∀ x y a, (Node.file x mode).permits a = (Node.file y m).permits a) ∧
      (Node.withdrawn m = m → mode = m) ∧ Fs.Recedes w.fs fs' ∧ fs'.Tidy := by
  rw [basePath] at may
  obtain ⟨j, fs', mode, copied, delivered, led, butFor, rights, kept, recedes, tidy⟩ := awaits.copies may
    (w.logWarn s!"cross-device rename, falling back to copy for {(Path.ofString base).display}") rfl
  rw [← basePath, ← tempPath] at copied delivered
  rw [← basePath] at led
  refine ⟨j, fs', mode, ?_, delivered, led, butFor, rights, kept, recedes, tidy⟩
  have path : h.names.basePath = Path.ofString base := by rw [names]; rfl
  have forced : h.forceExdev.getD (Commit.forcedByEnv w.env) = true := crosses
  rw [commitTo, path, Commit.runCopies (commitPrepared awaits) forced allowed, Commit.warned, copied]
  rfl

end Ways

/-- A pending handle commits what it has staged, once by a rename and once, where that is told to cross devices,
by a copy. Both go through and leave the handle as committed, the lock released, the temp file gone, and the
staged bytes at the base with the temp file's mode. They differ in what they tell of it and in the entry and the
node behind the base's name. -/
theorem copyAgrees (poised : Poised base s i c m h.names w.fs) (entitled : Entitled base c m w.fs)
    (quiet : h.Quiet) (renames : h.forced w = false) (policy : Policy) (force : Option Bool)
    (crosses : force.getD (Commit.forcedByEnv w.env) = true) (allowed : policy.commit.exdev = .copyFallback) :
    let h' : Handle := { h with policy, forceExdev := force }
    let r := h.finishWrite w
    let r' := h'.finishWrite w
    let line := s!"cross-device rename, falling back to copy for {(Path.ofString base).display}"
    (r.result = .ok () ∧ r'.result = .ok ()) ∧
    (r.handle = { h with names := .ofBase base, guard := none } ∧
      r'.handle = { r.handle with policy, forceExdev := force }) ∧
    (r.world.fs.Delivered (tempOf base s) (Path.ofString base) c m ∧
      r'.world.fs.Delivered (tempOf base s) (Path.ofString base) c m) ∧
    (∃ d j, w.fs.lookup (Path.ofString base).folder = .ok d ∧ r'.world.fs.lookup (Path.ofString base) = .ok j ∧
      Fs.ButFor d (leafOf base) j r.world.fs r'.world.fs) ∧
    r.world = { w with
      fs := r.world.fs
      locks := (h.releaseGuard w).locks
      events := w.events ++ h.freed ++ h.commitTold ⟨false, 0⟩ w.clock } ∧
    r'.world = { r.world with
      fs := r'.world.fs
      events := w.events ++ [.log .warn line] ++ h.freed ++ h.commitTold ⟨true, 0⟩ w.clock } := by
  intro h' r r' line
  obtain ⟨d, folder, awaits⟩ := poised.awaits entitled.folder entitled.staged
  have pending : h.names.temp? = some (Template.fill (Template.stemOf base) s) := by rw [poised.names]; rfl
  have closed : h.names.closed = .ofBase base := by rw [poised.names]; rfl
  obtain ⟨fs₁, first, delivered₁, butFor₁, _⟩ := renamesStaged awaits poised.names renames
  obtain ⟨j, fs₂, mode, second, delivered₂, led, butFor₂, _, kept, _⟩ := copiesStaged awaits h' poised.names
    entitled.base crosses (decide_eq_true allowed)
  obtain rfl := kept entitled.kept
  have one := h.finishWriteDone quiet pending (stagedFlushed awaits h) first
  have two := h'.finishWriteDone quiet pending (stagedFlushed awaits h') second
  have locks₁ : (h.releaseGuard (w.withFs fs₁)).locks = (h.releaseGuard w).locks := h.releaseGuardLocks rfl
  have locks₂ : (h'.releaseGuard ((w.logWarn line).withFs fs₂)).locks = (h.releaseGuard w).locks :=
    h.releaseGuardLocks rfl
  have eq₁ : r = _ := one
  have eq₂ : r' = _ := two
  rw [eq₁, eq₂]
  refine ⟨⟨rfl, rfl⟩, ⟨?_, ?_⟩, ⟨delivered₁, delivered₂⟩, ⟨d, j, folder, led, ((butFor₁ j).symm.trans butFor₂)⟩,
    ?_, ?_⟩
  · dsimp only
    rw [closed]
  · rfl
  · dsimp only
    rw [locks₁]
    rfl
  · dsimp only
    rw [locks₁, locks₂]
    rfl

def besideLink : World where
  fs := {
    nodes := #[
      .dir ⟨[("dev".toUTF8.data.toList, 1), ("f".toUTF8.data.toList, 4), ("g".toUTF8.data.toList, 5),
        ((Suffix.scattered 0).after (leafOf "f"), 6)]⟩ 0 0o755,
      .dir ⟨[("null".toUTF8.data.toList, 2), ("full".toUTF8.data.toList, 3)]⟩ 0 0o755,
      .device .null,
      .device .full,
      .link (Path.ofString "g"),
      .file [1] 0o644,
      .file [7, 8] 0o600]
    root := 0
    cwd := 0 }

def holder : Handle := { names := .writing "f" (Suffix.scattered 0), guard := some .scripted }

theorem linkReplacedOrKept :
    let base := Path.ofString "f"
    let r := holder.finishWrite besideLink
    let r' := ({ holder with policy := .relaxed, forceExdev := some true } : Handle).finishWrite besideLink
    (r.world.fs.Delivered (tempOf "f" (Suffix.scattered 0)) base [7, 8] 0o600 ∧
      r'.world.fs.Delivered (tempOf "f" (Suffix.scattered 0)) base [7, 8] 0o600) ∧
    r.world.fs.lookupEntry base = .ok 6 ∧ r'.world.fs.lookupEntry base = .ok 4 := by
  intro base r r'
  have well : ∀ node ∈ besideLink.fs.nodes.toList, node.WellKept besideLink.fs.nodes.size := by decide +kernel
  obtain ⟨tidy, spelled⟩ := Fs.tidyOf well
  have poised : Poised "f" (Suffix.scattered 0) 6 [7, 8] 0o600 holder.names besideLink.fs := {
    names := rfl
    plain := by decide +kernel
    noNul := by decide +kernel
    tidy := tidy
    upright := Fs.uprightOf (by decide +kernel) spelled
    root := rfl
    staged := by decide +kernel
    file := rfl
    committed := Or.inr ⟨5, [1], 0o644, by decide +kernel, rfl, by decide⟩ }
  have folder : besideLink.fs.lookup (Path.ofString "f").folder = .ok 0 := by decide +kernel
  have led : besideLink.fs.lookup (Path.ofString "f") = .ok 5 := by decide +kernel
  have entitled : Entitled "f" [7, 8] 0o600 besideLink.fs := {
    folder := by
      intro d found
      cases folder.symm.trans found
      exact ⟨by decide, by decide⟩
    staged := by decide
    base := by
      intro j found
      cases led.symm.trans found
      decide
    kept := by decide }
  obtain ⟨_, _, delivered, _⟩ := copyAgrees poised entitled (fun _ _ => rfl) (by decide +kernel) .relaxed
    (some true) rfl rfl
  exact ⟨delivered, by decide +kernel, by decide +kernel⟩

end Handle
end AtomicUpdate
