import AtomicUpdate.Proofs.Snapshot.Cycle
import AtomicUpdate.Proofs.Store.Finish

/-! What the end of a cycle does to files that readers have open: a commit moves a name, a rollback and
a deletion take names away, and none of them writes. -/
namespace AtomicUpdate
open Path (Plain)

theorem Commit.prepared {base : String} {fs : Fs} {n t b : Name} {d : Ino} (plain : Plain (leafOf base))
    (plain' : Plain n)
    (ready : prepare fs (folderOf base ++ n) (folderOf base ++ leafOf base) = .ok (t, b, d)) :
    t = n ∧ b = leafOf base ∧ fs.lookup (folderOf base ++ leafOf base).folder = .ok d := by
  unfold prepare at ready
  rw [Path.fileNameThrough (folderEnds base) plain', Path.fileNameThrough (folderEnds base) plain] at ready
  obtain ⟨e, opened, named⟩ := bindOk ready
  cases named
  obtain ⟨_, _, opened⟩ := bindOk opened
  obtain ⟨e, led, opened⟩ := bindOk opened
  split at opened
  · cases opened
  · obtain ⟨_, _, same⟩ := bindOk opened
    cases same
    exact ⟨rfl, rfl, led⟩

namespace Handle

variable {base : String} {kept : Ino → Prop} {k : Stakes} {w : World} {h : Handle}

def Stages (base : String) (names : Names) (n : Name) : Prop :=
  ∃ temp, names.temp? = some temp ∧ Path.ofString temp = folderOf base ++ n

def Copies (h : Handle) (w : World) : Prop :=
  ∃ temp ready, h.names.temp? = some temp ∧ h.flushStaged (Path.ofString temp) w = .ok () ∧
    Commit.prepare w.fs (Path.ofString temp) h.names.basePath = .ok ready ∧
    h.forced w = true ∧ h.allowsCopy = true

theorem commitToRenames {temp : String} (uncopied : ¬ h.Copies w) (pending : h.names.temp? = some temp)
    (flushed : h.flushStaged (Path.ofString temp) w = .ok ()) :
    (∃ e, h.commitTo temp w = (.error e, w)) ∨
      ∃ t b d fs done, Commit.prepare w.fs (Path.ofString temp) h.names.basePath = .ok (t, b, d) ∧
        w.fs.renameIn d t b = .ok fs ∧ h.commitTo temp w = (.ok done, w.withFs fs) := by
  have ended := h.commitRunning temp w
  generalize h.commitTo temp w = r at ended
  cases ended with
  | unready | refused | barred => exact Or.inl ⟨_, rfl⟩
  | renamed ready _ moved => exact Or.inr ⟨_, _, _, _, _, ready, moved, rfl⟩
  | broken ready crosses allowed | copied ready crosses allowed =>
    exact absurd ⟨_, _, pending, flushed, ready, crosses, allowed⟩ uncopied

theorem unforced (free : h.forced w = false) : ¬ h.Copies w := by
  rintro ⟨_, _, _, _, _, forced, _⟩
  rw [free] at forced
  cases forced

structure Leaves (base : String) (kept : Ino → Prop) (k : Stakes) (h : Handle) (w : World) (h' : Handle)
    (w' : World) : Prop where
  shelters : Shelters base kept k w.fs w'.fs
  names : h'.names = h.names ∨ (Over base h'.names ∧ h'.names.temp? = none)
  sink : h'.sink = h.sink

theorem Leaves.still (sheltered : Sheltered base kept k w.fs) {w' : World} (same : w'.fs = w.fs) :
    Leaves base kept k h w h w' :=
  ⟨same.symm ▸ .refl sheltered, Or.inl rfl, rfl⟩

theorem Leaves.noted {h' : Handle} {w' w'' : World} (leaves : Leaves base kept k h w h' w')
    (same : w''.fs = w'.fs) : Leaves base kept k h w h' w'' :=
  ⟨same ▸ leaves.shelters, leaves.names, leaves.sink⟩

theorem Leaves.closed (built : Over base h.names) {w' : World} (shelters : Shelters base kept k w.fs w'.fs)
    {temp : String} (pending : h.names.temp? = some temp) :
    Leaves base kept k h w (h.endCycle w').1 (h.endCycle w').2 := by
  obtain ⟨locks, events, released⟩ := releaseGuardWorld h w'
  have same : (h.endCycle w').2 = { w' with locks, events } := released
  rw [same]
  exact ⟨shelters, Or.inr ⟨built.closed pending, rfl⟩, rfl⟩

theorem Leaves.reported {α : Type} {r : Ran α} (leaves : Leaves base kept k h w r.handle r.world)
    (quiet : h.Quiet) (stage : Stage) (path : String) (details : Json.Value) :
    Leaves base kept k h w (r.reported stage path details).handle
      (r.reported stage path details).world := by
  have quiet' : r.handle.Quiet := quiet.same leaves.sink
  obtain ⟨events, world⟩ := reportWorld quiet' stage path details r.result r.world
  have same : (r.reported stage path details).world = { r.world with events } := world
  rw [same]
  exact leaves.noted rfl

theorem commitLeaves (plain : Plain (leafOf base)) (built : Over base h.names)
    (sheltered : Sheltered base kept k w.fs) (mine : ∀ {n}, Stages base h.names n → k.staged n)
    (uncopied : ¬ h.Copies w)
    (unwritten : ∀ {temp j}, h.names.temp? = some temp → k.written j →
      w.fs.lookup (Path.ofString temp) ≠ .ok j) :
    Leaves base kept k h w (h.commitCycle w).handle (h.commitCycle w).world := by
  have ran : ∀ {temp}, h.names.temp? = some temp → h.flushStaged (Path.ofString temp) w = .ok () →
      Shelters base kept k w.fs (h.commitTo temp w).2.fs := by
    intro temp pending flushed
    obtain ⟨n, path, staged, based⟩ : ∃ n, Path.ofString temp = folderOf base ++ n ∧ k.staged n ∧
        h.names.basePath = folderOf base ++ leafOf base := by
      generalize h.names = names at built mine pending
      cases built with
      | live => cases pending
      | retired => cases pending
      | writing s =>
        cases pending
        exact ⟨_, tempPath base s, mine ⟨_, rfl, tempPath base s⟩, basePath base⟩
    have proper := (sheltered.names staged).1
    rcases commitToRenames uncopied pending flushed with ⟨_, same⟩ | ⟨t, b, d, fs, _, ready, renamed, same⟩
    · rw [same]
      exact .refl sheltered
    · rw [same]
      rw [path, based] at ready
      obtain ⟨rfl, rfl, led⟩ := Commit.prepared plain proper.plain ready
      rcases Fs.renameExact renamed with ⟨rfl, _⟩ | ⟨i, entry, _, _, rfl⟩
      · exact .refl sheltered
      · obtain ⟨found, child, _⟩ := bindOk renamed
        have home := Fs.homeOfFolder (folderEnds base) plain led child
        refine sheltered.moved home staged entry fun written => unwritten pending written ?_
        have outer := sheltered.outer home staged entry
        rw [path]
        exact home.lookup proper entry (Fs.notInner outer).2
  have ended := h.committing w
  generalize h.commitCycle w = r at ended
  cases ended with
  | idle idle => exact .still sheltered rfl
  | unflushed pending refused => exact .still sheltered rfl
  | failed pending flushed refused =>
    have shelters := ran pending flushed
    rw [refused] at shelters
    exact ⟨shelters, Or.inl rfl, rfl⟩
  | done pending flushed committed =>
    have shelters := ran pending flushed
    rw [committed] at shelters
    exact .closed built shelters pending

theorem finishWriteLeaves (quiet : h.Quiet) (plain : Plain (leafOf base)) (built : Over base h.names)
    (sheltered : Sheltered base kept k w.fs) (mine : ∀ {n}, Stages base h.names n → k.staged n)
    (uncopied : ¬ h.Copies w)
    (unwritten : ∀ {temp j}, h.names.temp? = some temp → k.written j →
      w.fs.lookup (Path.ofString temp) ≠ .ok j) :
    Leaves base kept k h w (h.finishWrite w).handle (h.finishWrite w).world := by
  have told := (commitLeaves plain built sheltered mine uncopied unwritten).reported quiet .finishWrite
  obtain ⟨details, same | ⟨line, same⟩⟩ := h.finishWriteWorld w
  · rw [same]
    exact told _ details
  · rw [same]
    exact (told _ details).noted rfl

theorem removeShelters (sheltered : Sheltered base kept k w.fs) {p : Path} {fs : Fs}
    (ok : Files.remove w.fs p = .ok fs) : Shelters base kept k w.fs fs := by
  obtain ⟨d, n, i, located, _, rfl⟩ := Files.removeExact ok
  exact sheltered.erase (Fs.entryTaken located).1 n

theorem rollBackLeaves (built : Over base h.names) (sheltered : Sheltered base kept k w.fs) :
    Leaves base kept k h w (h.rollBack w).handle (h.rollBack w).world := by
  have ended := h.rollingBack w
  generalize h.rollBack w = r at ended
  cases ended with
  | idle idle => exact .still sheltered rfl
  | removed pending removed =>
    have shelters := removeShelters sheltered removed
    exact .closed built shelters pending
  | vanished pending refused =>
    have shelters := Shelters.refl sheltered
    exact .closed built shelters pending
  | kept pending refused other => exact .still sheltered rfl

theorem failWriteLeaves (quiet : h.Quiet) (built : Over base h.names)
    (sheltered : Sheltered base kept k w.fs) :
    Leaves base kept k h w (h.failWrite w).handle (h.failWrite w).world :=
  (rollBackLeaves built sheltered).reported quiet _ _ _

theorem removeTargetShelters (sheltered : Sheltered base kept k w.fs) (target : String) :
    Shelters base kept k w.fs (removeTarget target w).2.fs := by
  have ended := removing target w
  generalize removeTarget target w = r at ended
  cases ended with
  | absent absent => exact .refl sheltered
  | removed present removed => exact removeShelters sheltered removed
  | refused e => exact .refl sheltered

theorem retireLeaves (sheltered : Sheltered base kept k w.fs) :
    Leaves base kept k h w (h.retire w).handle (h.retire w).world := by
  have both : ∀ {staging base' w₁ w₂}, removeTarget h.names.staging w = (staging, w₁) →
      removeTarget h.names.base w₁ = (base', w₂) → Shelters base kept k w.fs w₂.fs := by
    intro staging base' w₁ w₂ first second
    have one := removeTargetShelters sheltered h.names.staging
    rw [first] at one
    have two := removeTargetShelters one.state h.names.base
    rw [second] at two
    exact one.trans two
  have ended := h.retiring w
  generalize h.retire w = r at ended
  cases ended with
  | kept first second failure => exact ⟨both first second, Or.inl rfl, rfl⟩
  | @retired _ w₂ first second =>
    have shelters := both first second
    obtain ⟨locks, events, released⟩ := releaseGuardWorld h w₂
    rw [released]
    exact ⟨shelters, Or.inr ⟨.retired, rfl⟩, rfl⟩

theorem deleteLeaves (quiet : h.Quiet) (sheltered : Sheltered base kept k w.fs) :
    Leaves base kept k h w (h.delete w).handle (h.delete w).world :=
  (retireLeaves sheltered).reported quiet _ _ _

end Handle
end AtomicUpdate
