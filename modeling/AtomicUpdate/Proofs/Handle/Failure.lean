import AtomicUpdate.Proofs.Handle.Creation
import AtomicUpdate.Proofs.Lock.Ledger

/-! What an operation leaves behind that has failed, whatever the handle, the files and the lock are.
The names and the guard are those there were, but for a cycle whose temp file had vanished. The files
are those there were too, except where a delete removed one of its two targets or a copy broke off. -/
namespace AtomicUpdate
namespace Fs

theorem walkUnstopped {fs : Fs} {links : Nat} {d : Ino} {ns : List Name} {slash : Bool}
    (unstopped : ∀ dir n i s, fs.walk .never links d ns slash ≠ .ok ⟨.entry dir n i, s⟩) :
    fs.walk .atSlash links d ns slash = fs.walk .never links d ns slash := by
  have creates : ∀ slash, (Follow.atSlash.creates && slash) = (Follow.never.creates && slash) :=
    fun _ => rfl
  -- At a link with names after it both go on, and with none after it the first walk stops.
  have on : ∀ {rest : List Name} {slash : Bool} (follow : Follow), rest ≠ [] →
      ¬ (rest = [] ∧ follow.through slash = false) := fun _ more both => more both.1
  induction links using Nat.strongRecOn generalizing d ns slash with
  | ind links ih =>
    rw [walk] at unstopped
    rw [walk, walk, creates]
    cases way : fs.advance (Follow.never.creates && slash) d ns with
    | error e => rfl
    | ok halt =>
      rw [way] at unstopped
      cases halt with
      | arrived spot => rfl
      | link dir n i target rest =>
        dsimp only at unstopped ⊢
        by_cases last : rest = []
        · rw [if_pos ⟨last, rfl⟩] at unstopped
          exact absurd rfl (unstopped dir n i slash)
        · rw [if_neg (on _ last)] at unstopped
          rw [if_neg (on _ last), if_neg (on _ last)]
          cases links with
          | zero => rfl
          | succ links => exact ih links (Nat.lt_succ_self links) unstopped

theorem unlinkAbsent {fs : Fs} {p : Path} (refused : fs.unlink p = .error .enoent) :
    fs.lookupEntry p = .error .enoent := by
  have never : fs.locate .never p = .error .enoent ∨
      ∃ d n s, fs.locate .never p = .ok ⟨.vacant d n, s⟩ := by
    rcases bindError refused with stuck | ⟨⟨spot, slash⟩, led, refused⟩
    · exact Or.inl stuck
    cases spot with
    | top d => cases refused
    | vacant d n => exact Or.inr ⟨d, n, slash, led⟩
    | entry d n i =>
      dsimp only at refused
      split at refused
      · split at refused <;> cases refused
      · rcases bindError refused with barred | ⟨_, _, refused⟩
        · cases demandRefused barred
        · split at refused <;> cases refused
  have same : fs.locate .atSlash p = fs.locate .never p := by
    cases short : checkLength p with
    | error e => rw [locate, locate, short]; rfl
    | ok u =>
      rw [locateOf .never short] at never
      rw [locateOf .atSlash short, locateOf .never short]
      refine walkUnstopped fun dir n i s stops => ?_
      rcases never with stuck | ⟨_, _, _, led⟩
      · rw [stuck] at stops
        cases stops
      · rw [led] at stops
        cases stops
  unfold lookupEntry
  rw [same]
  rcases never with stuck | ⟨d, n, s, led⟩
  · rw [stuck]
    rfl
  · rw [led]
    rfl

end Fs

theorem Files.removeAbsent {fs : Fs} {p : Path} (refused : remove fs p = .error .enoent) :
    fs.lookupEntry p = .error .enoent := by
  rcases bindError refused with nul | ⟨_, _, refused⟩
  · rw [Path.forbidNul] at nul
    split at nul <;> cases nul
  · exact Fs.unlinkAbsent refused

theorem Commit.runRefused {temp base : Path} {force : Option Bool} {w w' : World} {e : Errno}
    (failed : run temp base false force w = (.error e, w')) : w' = w := by
  have ended := running temp base false force w
  rw [failed] at ended
  cases ended with
  | unready | refused | barred => rfl
  | broken _ _ allowed => cases allowed

namespace Handle

def Told (h : Handle) (fs fs' : Fs) : Prop := fs' = fs ∨ ∃ f, fs' = h.sink.react f fs

inductive Sided (fs : Fs) : Option LockManager → Fs → Prop where
  | same {k} : Sided fs k fs
  | made {p d n s} (vacant : fs.locate .creating p = .ok ⟨.vacant d n, s⟩) :
      Sided fs (some (.sidecar p)) (fs.born d n 0o644)

inductive Undone (h : Handle) (w : World) : Call → Errno → Handle → World → Prop where
  | unstarted {c e h' fs w'} (starts : c.starts = true) (names : h'.names = h.names)
      (guard : h'.guard = h.guard) (sided : Sided w.fs h.lock fs) (told : h.Told fs w'.fs) :
      Undone h w c e h' w'
  | unopened {temp e w'} (started : (h.startWrite w).result = .ok temp)
      (files : w'.fs = (h.startWrite w).world.fs) :
      Undone h w .startWriteStream e (h.startWrite w).handle w'
  | unfinished {e w'} (locks : w'.locks = w.locks)
      (told : h.policy.commit.exdev = .fail → h.Told w.fs w'.fs) : Undone h w .finishWrite e h w'
  | kept {e w'} (other : ¬ (h.isPending = true ∧ e = .enoent)) (locks : w'.locks = w.locks)
      (told : h.Told w.fs w'.fs) : Undone h w .failWrite e h w'
  | vanished {temp w'} (pending : h.names.temp? = some temp)
      (absent : w.fs.lookupEntry (Path.ofString temp) = .error .enoent)
      (locks : w'.locks = (h.releaseGuard w).locks) (told : h.Told w.fs w'.fs) :
      Undone h w .failWrite .enoent { h with names := h.names.closed, guard := none } w'
  | undeleted {e w'} (locks : w'.locks = w.locks) : Undone h w .delete e h w'
  | unread {c e w'} (reads : c = .getBaseFile ∨ c = .readFully ∨ c = .openRead)
      (locks : w'.locks = w.locks) (told : h.Told w.fs w'.fs) : Undone h w c e h w'

variable {h : Handle} {w : World}

theorem reportTold {r : Handle} (sink : r.sink = h.sink) {α : Type} (stage : Stage) (path : String)
    (details : Json.Value) (result : Except Errno α) (w : World) :
    (r.sink.report stage path details result w).locks = w.locks ∧
      h.Told w.fs (r.sink.report stage path details result w).fs := by
  obtain ⟨fs, events, same, files⟩ := r.sink.reportEffect stage path details result w
  rw [same, Told, ← sink]
  exact ⟨rfl, files⟩

theorem startWriteTold (h : Handle) (w : World) :
    h.Told (h.openCycle w).world.fs (h.startWrite w).world.fs :=
  (reportTold (h.openCycleSink w) _ _ _ _ _).2

theorem finishWriteTold (h : Handle) (w : World) :
    h.Told (h.commitCycle w).world.fs (h.finishWrite w).world.fs := by
  obtain ⟨details, said⟩ := h.finishWriteWorld w
  have told := (reportTold (h.commitCycleSink w) .finishWrite (h.commitCycle w).handle.names.base
    details (h.commitCycle w).result (h.commitCycle w).world).2
  -- The audit line of a commit that has copied changes no file.
  rcases said with same | ⟨line, same⟩
  all_goals
    rw [same]
    exact told

theorem takeGuardSided (h : Handle) (w : World) : Sided w.fs h.lock (h.takeGuard w).world.fs := by
  unfold takeGuard
  cases h.lock with
  | none => exact .same
  | some m =>
    cases m with
    | scripted answers =>
      dsimp only [LockManager.acquire]
      split <;> exact .same
    | sidecar p =>
      change Sided w.fs (some (.sidecar p)) (LockManager.acquireSidecar p h.timeout w).2.fs
      rcases LockManager.acquirePolls p h.timeout w with ⟨e, w', begun, ends⟩ | ⟨x, w', begun, polled⟩
      · rw [ends, (LockManager.notEntered begun).1]
        exact .same
      · obtain ⟨fs, opened, _, _, rfl⟩ := LockManager.entered begun
        rw [polled.fs]
        rcases Fs.openCreateExact opened with ⟨rfl, _⟩ | ⟨_, d, n, s, vacant, rfl⟩
        · exact .same
        · exact .made vacant

theorem unopenedCycle {e : Errno} (failed : (h.openCycle w).result = .error e) :
    (h.openCycle w).handle.names = h.names ∧ (h.openCycle w).handle.guard = h.guard ∧
      (h.openCycle w).handle.sink = h.sink ∧ Sided w.fs h.lock (h.openCycle w).world.fs := by
  have sided := h.takeGuardSided w
  have taken : (h.takeGuard w).handle.names = h.names ∧ (h.takeGuard w).handle.guard = h.guard ∧
      (h.takeGuard w).handle.sink = h.sink := by
    obtain ⟨lock, same⟩ := h.takeGuardHandle w
    rw [same]
    exact ⟨rfl, rfl, rfl⟩
  have ended := h.opening w
  generalize h.openCycle w = r at ended failed
  cases ended with
  | busy pending => exact ⟨rfl, rfl, rfl, .same⟩
  | locked idle refused => exact ⟨taken.1, taken.2.1, taken.2.2, sided⟩
  | @failed g e w' idle granted refused =>
    refine ⟨taken.1, taken.2.1, taken.2.2, ?_⟩
    obtain ⟨locks, events, given⟩ := giveBackWorld g w'
    rw [given]
    rcases (h.takeGuard w).handle.createTempExact (h.takeGuard w).world with
      ⟨drawn, events', ended⟩ | ⟨stem, k, d, n, s, drawn, _, _, _, _, made⟩
    · rw [refused] at ended
      cases ended
      exact sided
    · rw [refused] at made
      cases made
  | opened idle granted created => cases failed

theorem startWriteUndone {c : Call} {e : Errno} (starts : c.starts = true)
    (failed : (h.startWrite w).result = .error e) :
    Undone h w c e (h.startWrite w).handle (h.startWrite w).world := by
  obtain ⟨names, guard, sink, sided⟩ := unopenedCycle failed
  exact .unstarted starts names guard sided (reportTold sink _ _ _ _ _).2

theorem startWriteStreamUndone {e : Errno} (failed : (h.startWriteStream w).result = .error e) :
    Undone h w .startWriteStream e (h.startWriteStream w).handle (h.startWriteStream w).world := by
  cases started : (h.startWrite w).result with
  | error e' =>
    rw [startWriteStreamRefused started] at failed ⊢
    cases failed
    exact startWriteUndone rfl started
  | ok temp =>
    rw [startWriteStreamOpens started] at failed ⊢
    refine .unopened started ?_
    dsimp only at failed ⊢
    unfold openTemp at failed ⊢
    dsimp only at failed ⊢
    split
    · rfl
    · rename_i opened
      rw [opened] at failed
      cases failed

theorem commitCycleUndone {e : Errno} (failed : (h.commitCycle w).result = .error e) :
    (h.commitCycle w).handle = h ∧ (h.commitCycle w).world.locks = w.locks ∧
      (h.policy.commit.exdev = .fail → (h.commitCycle w).world.fs = w.fs) := by
  have ended := h.committing w
  generalize h.commitCycle w = r at ended failed
  cases ended with
  | idle idle => exact ⟨rfl, rfl, fun _ => rfl⟩
  | unflushed pending refused => exact ⟨rfl, rfl, fun _ => rfl⟩
  | @failed temp e w' pending flushed refused =>
    have aside := h.commitToAside temp w
    rw [refused] at aside
    refine ⟨rfl, aside.locks, fun strict => ?_⟩
    have uncopied : h.allowsCopy = false := by
      rw [allowsCopy, strict]
      rfl
    rw [commitTo, uncopied] at refused
    rw [Commit.runRefused refused]
    rfl
  | done pending flushed committed => cases failed

theorem finishWriteUndone {e : Errno} (failed : (h.finishWrite w).result = .error e) :
    Undone h w .finishWrite e (h.finishWrite w).handle (h.finishWrite w).world := by
  have refused : (h.commitCycle w).result = .error e := mapError failed
  obtain ⟨handle, locks, files⟩ := commitCycleUndone refused
  have world : ∃ details, (h.finishWrite w).world = h.sink.report .finishWrite h.names.base details
      (h.commitCycle w).result (h.commitCycle w).world := by
    unfold finishWrite
    dsimp only [Ran.reported]
    rw [refused, handle]
    exact ⟨_, rfl⟩
  obtain ⟨details, world⟩ := world
  have told := reportTold (h := h) rfl .finishWrite h.names.base details (h.commitCycle w).result
    (h.commitCycle w).world
  have same : (h.finishWrite w).handle = h := handle
  rw [same, world]
  exact .unfinished (told.1.trans locks) fun strict => files strict ▸ told.2

theorem failWriteUndone {e : Errno} (failed : (h.failWrite w).result = .error e) :
    Undone h w .failWrite e (h.failWrite w).handle (h.failWrite w).world := by
  have refused : (h.rollBack w).result = .error e := failed
  have ended := h.rollingBack w
  unfold failWrite
  dsimp only
  generalize h.rollBack w = r at ended refused
  cases ended with
  | idle idle =>
    have told := reportTold (h := h) rfl .failWrite h.names.base h.tempDetail (.error .enoent : Except _ Unit)
      (w.logError "No write in progress")
    refine .kept (fun both => ?_) told.1 told.2
    rw [isPending, idle] at both
    cases both.1
  | removed pending removed => cases refused
  | @vanished temp pending gone =>
    cases refused
    have told := reportTold (h := h) (r := { h with names := h.names.closed, guard := none }) rfl
      .failWrite h.names.closed.base h.tempDetail (.error .enoent : Except _ Unit)
      (h.releaseGuard (w.logWarn s!"Tmp file already removed: {temp}"))
    have files : (h.releaseGuard (w.logWarn s!"Tmp file already removed: {temp}")).fs = w.fs := by
      obtain ⟨locks, events, released⟩ :=
        releaseGuardWorld h (w.logWarn s!"Tmp file already removed: {temp}")
      rw [released]
      rfl
    rw [files] at told
    exact .vanished pending (Files.removeAbsent gone) (told.1.trans (releaseGuardLocks h rfl)) told.2
  | @kept temp e' pending refused' other =>
    cases refused
    have told := reportTold (h := h) rfl .failWrite h.names.base h.tempDetail (.error e : Except _ Unit)
      (w.logWarn s!"Failed to remove file, err:{e.number}")
    exact .kept (fun both => other both.2) told.1 told.2

theorem deleteUndone {e : Errno} (failed : (h.delete w).result = .error e) :
    Undone h w .delete e (h.delete w).handle (h.delete w).world := by
  have refused : (h.retire w).result = .error e := failed
  have ended := h.retiring w
  unfold delete
  dsimp only
  generalize h.retire w = r at ended refused
  cases ended with
  | @kept staging base e' w₁ w₂ first second failure =>
    have one := removeTargetAside h.names.staging w
    have two := removeTargetAside h.names.base w₁
    rw [first] at one
    rw [second] at two
    exact .undeleted ((reportTold (h := h) rfl _ _ _ _ _).1.trans (one.trans two).locks)
  | retired first second => cases refused

theorem readUndone {c : Call} {e : Errno} (reads : c = .getBaseFile ∨ c = .readFully ∨ c = .openRead) :
    Undone h w c e (c.perform h w).handle (c.perform h w).world := by
  have told : ∀ {α : Type} {w' : World} (path : String) (details : Json.Value) (result : Except Errno α),
      w.Looked w' → Undone h w c e h (h.sink.report .read path details result w') := by
    intro α w' path details result looked
    obtain ⟨owners, lines, _, _, rfl⟩ := looked
    have told := reportTold (h := h) rfl .read path details result
      { w with owners, events := w.events ++ lines }
    exact .unread reads told.1 told.2
  rcases reads with rfl | rfl | rfl
  · exact told _ _ _ (h.openBaseLooks w)
  · exact told _ _ _ (h.readContentsLooks w)
  · exact told _ _ _ (h.openReaderLooks w)

theorem failureUndone {c : Call} {e : Errno} (failed : (c.perform h w).result = .error e) :
    Undone h w c e (c.perform h w).handle (c.perform h w).world := by
  have unended : ∀ {α : Type} {r : Ran α}, r.ended.result = .error e → r.result = .error e := mapError
  cases c with
  | startWrite => exact startWriteUndone rfl (unended failed)
  | startWriteStream => exact startWriteStreamUndone (unended failed)
  | finishWrite => exact finishWriteUndone failed
  | failWrite => exact failWriteUndone failed
  | delete => exact deleteUndone failed
  | getBaseFile => exact readUndone (Or.inl rfl)
  | readFully => exact readUndone (Or.inr (Or.inl rfl))
  | openRead => exact readUndone (Or.inr (Or.inr rfl))

theorem failuresUndone :
    let opened := Call.startWrite.perform (.ofBase "f") { fs := .bare }
    let gone : World := { opened.world with fs := .bare }
    let folder := Handle.ofBase "dev"
    ((Call.startWrite.perform (.ofBase "d/f") gone).result = .error .enoent ∧
      Undone (.ofBase "d/f") gone .startWrite .enoent
        (Call.startWrite.perform (.ofBase "d/f") gone).handle
        (Call.startWrite.perform (.ofBase "d/f") gone).world) ∧
    ((Call.finishWrite.perform opened.handle gone).result = .error .enoent ∧
      Undone opened.handle gone .finishWrite .enoent (Call.finishWrite.perform opened.handle gone).handle
        (Call.finishWrite.perform opened.handle gone).world) ∧
    ((Call.failWrite.perform opened.handle gone).result = .error .enoent ∧
      Undone opened.handle gone .failWrite .enoent (Call.failWrite.perform opened.handle gone).handle
        (Call.failWrite.perform opened.handle gone).world) ∧
    (Call.delete.perform folder gone).result = .error .eisdir ∧
      Undone folder gone .delete .eisdir (Call.delete.perform folder gone).handle
        (Call.delete.perform folder gone).world := by
  intro opened gone folder
  have unstarted : (Call.startWrite.perform (.ofBase "d/f") gone).result = .error .enoent := by
    decide +kernel
  have unfinished : (Call.finishWrite.perform opened.handle gone).result = .error .enoent := by
    decide +kernel
  have unfailed : (Call.failWrite.perform opened.handle gone).result = .error .enoent := by
    decide +kernel
  have undeleted : (Call.delete.perform folder gone).result = .error .eisdir := by decide +kernel
  exact ⟨⟨unstarted, failureUndone unstarted⟩, ⟨unfinished, failureUndone unfinished⟩,
    ⟨unfailed, failureUndone unfailed⟩, undeleted, failureUndone undeleted⟩

end Handle
end AtomicUpdate
