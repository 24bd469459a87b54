import AtomicUpdate.Proofs.Handle.Retired
import AtomicUpdate.Proofs.Store.Finish

/-! Taking files away on the ground of a base: the temp file of a cycle that is rolled back, or both
files of a handle that is deleted. A handle that is gone already has nothing to take away. -/
namespace AtomicUpdate

structure Fs.Clears (fs fs' : Fs) (d : Ino) (ns : List Name) : Prop where
  evolves : fs.Evolves fs'
  gone : ∀ n ∈ ns, fs'.named? d n = none
  names : ∀ n, n ∉ ns → fs'.named? d n = fs.named? d n
  files : ∀ {k x m}, fs.node? k = some (.file x m) → fs'.node? k = some (.file x m)

theorem Fs.Clears.trans {fs fs' fs'' : Fs} {d : Ino} {ns ms : List Name} (first : fs.Clears fs' d ns)
    (second : fs'.Clears fs'' d ms) : fs.Clears fs'' d (ns ++ ms) where
  evolves := first.evolves.trans second.evolves
  gone := by
    intro n mem
    by_cases later : n ∈ ms
    · exact second.gone n later
    · rcases List.mem_append.mp mem with early | late
      · exact (second.names n later).trans (first.gone n early)
      · exact absurd late later
  names := by
    intro n other
    rw [List.mem_append, not_or] at other
    exact (second.names n other.2).trans (first.names n other.1)
  files := fun file => second.files (first.files file)

theorem Fs.clearsNone {fs : Fs} (tidy : fs.Tidy) {d : Ino} {n : Name} (free : fs.named? d n = none) :
    fs.Clears fs d [n] where
  evolves := Fs.Evolves.refl tidy
  gone := by
    intro m mem
    rw [List.mem_singleton.mp mem]
    exact free
  names := fun _ _ => rfl
  files := fun file => file

theorem Fs.clearsErase {fs : Fs} (tidy : fs.Tidy) {d i : Ino} {n : Name} {b : Bytes} {m : Nat}
    (dir : fs.isDir d = true) (holds : fs.Holds d n i b m) :
    fs.Clears (fs.updateDir d (·.erase n)) d [n] where
  evolves := Fs.Evolves.erase tidy fun j entry => by
    rw [holds.entry] at entry
    cases entry
    exact holds.outer
  gone := by
    intro k mem
    rw [List.mem_singleton.mp mem, Fs.entryErase dir, if_pos ⟨rfl, rfl⟩]
  names := by
    intro k other
    rw [Fs.entryErase dir, if_neg (fun both => other (List.mem_singleton.mpr both.2))]
  files := fun file => Fs.fileUpdateDir _ file

namespace Handle
variable {first : Fs} {base : String} {q : Path} {d : Ino} {h : Handle} {w : World} {s : Suffix}
  {i : Ino} {c : Bytes} {m : Nat}

theorem rollBackEnds (ground : Ground first base q d) (evolves : first.Evolves w.fs)
    (unsided : h.Unsided) (staging : Staging base d h w.fs s i c m) :
    (h.rollBack w).result = .ok () ∧ (h.rollBack w).handle.names = .ofBase base ∧
      w.fs.Clears (h.rollBack w).world.fs d [s.after (leafOf base)] ∧
      Steady h w (h.rollBack w).handle (h.rollBack w).world := by
  have temp := staging.temp
  have home := ground.home evolves
  have removed := home.remove (ground.temp s) staging.holds.entry (Fs.notInner staging.holds.outer).1
  rw [staging.write, if_pos rfl, ← tempPath] at removed
  have ended := h.rollingBack w
  generalize h.rollBack w = r at ended
  cases ended with
  | idle idle =>
    rw [temp] at idle
    cases idle
  | removed pending erased =>
    rw [temp] at pending
    cases pending
    rw [removed] at erased
    cases erased
    obtain ⟨steady, fs⟩ := endCycleSteady (w := w) unsided
      (w.withFs (w.fs.updateDir d (·.erase (s.after (leafOf base))))) rfl rfl
    refine ⟨rfl, staging.closed, ?_, steady⟩
    change w.fs.Clears (h.endCycle _).2.fs d _
    rw [fs]
    exact Fs.clearsErase evolves.tidy home.dir staging.holds
  | vanished pending refused =>
    rw [temp] at pending
    cases pending
    rw [removed] at refused
    cases refused
  | kept pending refused other =>
    rw [temp] at pending
    cases pending
    rw [removed] at refused
    cases refused

theorem failWriteEnds (ground : Ground first base q d) (evolves : first.Evolves w.fs)
    (quiet : h.Quiet) (unsided : h.Unsided) (staging : Staging base d h w.fs s i c m) :
    (h.failWrite w).result = .ok () ∧ (h.failWrite w).handle.names = .ofBase base ∧
      w.fs.Clears (h.failWrite w).world.fs d [s.after (leafOf base)] ∧
      Steady h w (h.failWrite w).handle (h.failWrite w).world := by
  obtain ⟨ok, names, clears, steady⟩ := rollBackEnds ground evolves unsided staging
  have reported := steady.reported (steady.quiet quiet) .failWrite (h.rollBack w).handle.names.base
    h.tempDetail
  obtain ⟨events, world⟩ := reportWorld (steady.quiet quiet) .failWrite
    (h.rollBack w).handle.names.base h.tempDetail (h.rollBack w).result (h.rollBack w).world
  refine ⟨ok, names, ?_, reported⟩
  change w.fs.Clears ((h.rollBack w).handle.sink.report _ _ _ _ _).fs d _
  rw [world]
  exact clears

theorem idleEnds (quiet : h.Quiet) (unsided : h.Unsided) (idle : h.names.temp? = none) (w : World) :
    ((h.finishWrite w).result = .error .enoent ∧ (h.finishWrite w).handle = h ∧
      (h.finishWrite w).world.fs = w.fs ∧ Steady h w h (h.finishWrite w).world) ∧
      (h.failWrite w).result = .error .enoent ∧ (h.failWrite w).handle = h ∧
      (h.failWrite w).world.fs = w.fs ∧ Steady h w h (h.failWrite w).world := by
  have same : Steady h w h (w.logError "No write in progress") := ⟨rfl, rfl, rfl, unsided, rfl, rfl⟩
  have commit := commitCycleUnopened idle w
  have roll := rollBackUnopened idle w
  have steady : Steady h w (h.commitCycle w).handle (h.commitCycle w).world := by
    rw [commit]
    exact same
  obtain ⟨result, handle, events, world⟩ := finishWriteFrame quiet steady
  obtain ⟨events', world'⟩ := reportWorld quiet .failWrite h.names.base h.tempDetail
    (.error .enoent : Except Errno Unit) (w.logError "No write in progress")
  have failed : (h.failWrite w).world = { w.logError "No write in progress" with events := events' } := by
    change ((h.rollBack w).reported .failWrite (h.rollBack w).handle.names.base h.tempDetail).world = _
    rw [roll]
    exact world'
  refine ⟨⟨?_, ?_, ?_, ?_⟩, ?_, ?_, ?_, ?_⟩
  · rw [result, commit]
    rfl
  · rw [handle, commit]
  · rw [world, commit]
    rfl
  · rw [world, commit]
    exact ⟨rfl, rfl, rfl, unsided, rfl, rfl⟩
  · change (h.rollBack w).result = _
    rw [roll]
  · change (h.rollBack w).handle = _
    rw [roll]
  · rw [failed]
    rfl
  · rw [failed]
    exact ⟨rfl, rfl, rfl, unsided, rfl, rfl⟩

theorem removeTargetEnds (ground : Ground first base q d) (evolves : first.Evolves w.fs)
    {target : String} {n : Name} (path : Path.ofString target = folderOf base ++ n)
    (proper : Path.Proper (folderOf base) n)
    (there : w.fs.named? d n = none ∨ ∃ i b m, w.fs.Holds d n i b m) :
    (∃ fs', removeTarget target w = (.ok (), w.withFs fs') ∧ w.fs.Clears fs' d [n] ∧
        (w.fs.permits d .write = false → fs' = w.fs)) ∨
      (w.fs.named? d n ≠ none ∧ w.fs.permits d .write = false ∧
        ∃ e events, removeTarget target w = (.error e, { w with events })) := by
  have home := ground.home evolves
  rcases there with free | ⟨i, b, m, holds⟩
  · left
    have absent := home.absent proper free
    rw [← path] at absent
    exact ⟨w.fs, removeTargetAbsent absent, Fs.clearsNone evolves.tidy free, fun _ => rfl⟩
  · have present := home.present proper holds.entry
    rw [← path] at present
    rw [removeTargetPresent present, path, home.remove proper holds.entry (Fs.notInner holds.outer).1]
    cases write : w.fs.permits d .write with
    | true => exact Or.inl ⟨_, rfl, Fs.clearsErase evolves.tidy home.dir holds, fun barred => by cases barred⟩
    | false =>
      right
      refine ⟨fun free => ?_, rfl, _, _, rfl⟩
      rw [holds.entry] at free
      cases free

inductive Retires (base : String) (d : Ino) (n : Name) (h : Handle) (w : World) : Ran Unit → Prop where
  | done {r} (ok : r.result = .ok ()) (names : r.handle.names = .retired)
      (clears : w.fs.Clears r.world.fs d [n, leafOf base]) : Retires base d n h w r
  | barred {r e} (reason : w.fs.permits d .write = false) (error : r.result = .error e)
      (names : r.handle.names = h.names) (fs : r.world.fs = w.fs) : Retires base d n h w r

theorem retireEnds (ground : Ground first base q d) (evolves : first.Evolves w.fs)
    (unsided : h.Unsided) {n : Name} (based : h.names.base = base)
    (staging : Path.ofString h.names.staging = folderOf base ++ n)
    (proper : Path.Proper (folderOf base) n) (other : n ≠ leafOf base)
    (temp : w.fs.named? d n = none ∨ ∃ i b m, w.fs.Holds d n i b m)
    (may : w.fs.named? d n ≠ none → w.fs.permits d .write = true)
    (there : w.fs.named? d (leafOf base) = none ∨ ∃ i b m, w.fs.Holds d (leafOf base) i b m) :
    Retires base d n h w (h.retire w) ∧ Steady h w (h.retire w).handle (h.retire w).world := by
  rcases removeTargetEnds ground evolves staging proper temp with ⟨fs₁, first', clears, same⟩ | ⟨taken, barred, _⟩
  · have there₁ : (w.withFs fs₁).fs.named? d (leafOf base) = none ∨
        ∃ i b m, (w.withFs fs₁).fs.Holds d (leafOf base) i b m := by
      have kept : fs₁.named? d (leafOf base) = w.fs.named? d (leafOf base) :=
        clears.names _ (fun mem => other (List.mem_singleton.mp mem).symm)
      rcases there with free | ⟨i, b, m, holds⟩
      · exact Or.inl (kept.trans free)
      · exact Or.inr ⟨i, b, m, kept.trans holds.entry, clears.files holds.file⟩
    have path : Path.ofString h.names.base = folderOf base ++ leafOf base := by
      rw [based]
      exact basePath base
    have evolves₁ : first.Evolves (w.withFs fs₁).fs := evolves.trans clears.evolves
    rcases removeTargetEnds ground evolves₁ path ground.leaf there₁ with
      ⟨fs₂, second, clears', _⟩ | ⟨taken, barred, e, events, second⟩
    · have ran : h.retire w = ⟨.ok (), { h with names := .retired, guard := none },
          h.releaseGuard ((w.withFs fs₁).withFs fs₂)⟩ := by
        unfold retire
        rw [first']
        dsimp only
        rw [second]
        rfl
      obtain ⟨locks, events, released⟩ := releaseGuardWorld h ((w.withFs fs₁).withFs fs₂)
      rw [ran, released]
      exact ⟨.done rfl rfl (clears.trans clears'), rfl, rfl, rfl, unsided, rfl, rfl⟩
    · have write : w.fs.permits d .write = false := by
        rw [← clears.evolves.keeps.permits (ground.home evolves).dir .write]
        exact barred
      have ran : h.retire w = ⟨.error e, h, { w.withFs fs₁ with events }⟩ := by
        unfold retire
        rw [first']
        dsimp only
        rw [second]
        rfl
      rw [ran]
      exact ⟨.barred write rfl rfl (same write), rfl, rfl, rfl, unsided, rfl, rfl⟩
  · rw [may taken] at barred
    cases barred

theorem Retires.reported {n : Name} {r : Ran Unit} (retires : Retires base d n h w r)
    (quiet : r.handle.Quiet) (stage : Stage) (path : String) (details : Json.Value) :
    Retires base d n h w (r.reported stage path details) := by
  obtain ⟨events, world⟩ := reportWorld quiet stage path details r.result r.world
  have same : (r.reported stage path details).world.fs = r.world.fs := by
    change (r.handle.sink.report stage path details r.result r.world).fs = r.world.fs
    rw [world]
  cases retires with
  | done ok names clears =>
    refine .done ok names ?_
    rw [same]
    exact clears
  | barred reason error names fs => exact .barred reason error names (same.trans fs)

theorem deleteEnds (ground : Ground first base q d) (evolves : first.Evolves w.fs) (quiet : h.Quiet)
    (unsided : h.Unsided) {n : Name} (based : h.names.base = base)
    (staging : Path.ofString h.names.staging = folderOf base ++ n)
    (proper : Path.Proper (folderOf base) n) (other : n ≠ leafOf base)
    (temp : w.fs.named? d n = none ∨ ∃ i b m, w.fs.Holds d n i b m)
    (may : w.fs.named? d n ≠ none → w.fs.permits d .write = true)
    (there : w.fs.named? d (leafOf base) = none ∨ ∃ i b m, w.fs.Holds d (leafOf base) i b m) :
    Retires base d n h w (h.delete w) ∧ Steady h w (h.delete w).handle (h.delete w).world := by
  obtain ⟨retires, steady⟩ :=
    retireEnds ground evolves unsided based staging proper other temp may there
  exact ⟨retires.reported (steady.quiet quiet) _ _ _, steady.reported (steady.quiet quiet) _ _ _⟩

theorem deleteGone (quiet : h.Quiet) (unsided : h.Unsided) (gone : h.names = .retired) (w : World) :
    (h.delete w).result = .ok () ∧ (h.delete w).handle.names = .retired ∧
      (h.delete w).world.fs = w.fs ∧ Steady h w (h.delete w).handle (h.delete w).world := by
  obtain ⟨locks, events, released⟩ := releaseGuardWorld h w
  have ran : h.retire w = ⟨.ok (), { h with names := .retired, guard := none }, { w with locks, events }⟩ := by
    rw [← released]
    exact retireGone (gone ▸ Names.goneRetired) w
  have steady : Steady h w (h.retire w).handle (h.retire w).world := by
    rw [ran]
    exact ⟨rfl, rfl, rfl, unsided, rfl, rfl⟩
  obtain ⟨events', world⟩ := reportWorld (steady.quiet quiet) .delete h.names.base
    (.object [("base_path", .string h.names.base), ("temp_path", .string h.names.staging)])
    (h.retire w).result (h.retire w).world
  refine ⟨?_, ?_, ?_, steady.reported (steady.quiet quiet) _ _ _⟩
  · change (h.retire w).result = _
    rw [ran]
  · change (h.retire w).handle.names = _
    rw [ran]
  · change ((h.retire w).handle.sink.report _ _ _ _ _).fs = _
    rw [world, ran]

end Handle
end AtomicUpdate
