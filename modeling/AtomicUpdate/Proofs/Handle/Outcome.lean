import AtomicUpdate.Handle.Cycle
import AtomicUpdate.Handle.Deletion
import AtomicUpdate.Handle.Snapshot
import AtomicUpdate.Proofs.Commit.Outcome

/-! Every way in which an operation of a handle can end, with the handle and the world it leaves.
What a proof has to know of an operation it takes from here and not from the operation's text. -/
namespace AtomicUpdate

def Event.logs : Event → Bool
  | .log _ _ => true
  | _ => false

namespace World

def Looked (w w' : World) : Prop :=
  ∃ owners lines, w.owners ≤ owners ∧ (∀ e ∈ lines, Event.logs e = true) ∧
    w' = { w with owners, events := w.events ++ lines }

theorem Looked.opened (w : World) : w.Looked { w with owners := w.owners + 1 } :=
  ⟨w.owners + 1, [], Nat.le_succ _, fun _ mem => absurd mem List.not_mem_nil, by rw [List.append_nil]⟩

theorem Looked.refl (w : World) : w.Looked w :=
  ⟨w.owners, [], Nat.le_refl _, fun _ mem => absurd mem List.not_mem_nil, by rw [List.append_nil]⟩

theorem Looked.line (w : World) (level : Level) (message : String) :
    w.Looked (w.emit (.log level message)) :=
  ⟨w.owners, [.log level message], Nat.le_refl _,
    fun e mem => by rw [List.mem_singleton.mp mem]; rfl, rfl⟩

theorem Looked.trans {w w' w'' : World} (first : w.Looked w') (second : w'.Looked w'') :
    w.Looked w'' := by
  obtain ⟨owners, lines, more, logs, rfl⟩ := first
  obtain ⟨owners', lines', more', logs', rfl⟩ := second
  refine ⟨owners', lines ++ lines', Nat.le_trans more more', fun e mem => ?_, by rw [List.append_assoc]⟩
  rcases List.mem_append.mp mem with early | late
  · exact logs e early
  · exact logs' e late

end World

def Fs.Bars (fs : Fs) (p : Path) (e : Errno) : Prop :=
  Files.canonical fs p = .error e ∨ ∃ q, Files.canonical fs p = .ok q ∧ Files.openReadOnly fs q = .error e

theorem Fs.barsOrOpens (fs : Fs) (p : Path) : (∃ e, fs.Bars p e) ∨
    ∃ q i, Files.canonical fs p = .ok q ∧ Files.openReadOnly fs q = .ok i := by
  cases resolved : Files.canonical fs p with
  | error e => exact Or.inl ⟨e, Or.inl resolved⟩
  | ok q =>
    cases opens : Files.openReadOnly fs q with
    | error e => exact Or.inl ⟨e, Or.inr ⟨q, resolved, opens⟩⟩
    | ok i => exact Or.inr ⟨q, i, rfl, opens⟩

namespace Handle

theorem giveBackWorld (g : Option Guard) (w : World) :
    ∃ locks events, giveBack g w = { w with locks, events } := by
  cases g with
  | none => exact ⟨w.locks, w.events, rfl⟩
  | some g => cases g <;> exact ⟨_, _, rfl⟩

theorem releaseGuardWorld (h : Handle) (w : World) :
    ∃ locks events, h.releaseGuard w = { w with locks, events } := by
  unfold releaseGuard
  cases h.guard with
  | none => exact ⟨w.locks, w.events, rfl⟩
  | some g => cases g <;> exact ⟨_, _, rfl⟩

theorem releaseGuardLocks (h : Handle) {w w' : World} (same : w'.locks = w.locks) :
    (h.releaseGuard w').locks = (h.releaseGuard w).locks := by
  unfold releaseGuard
  cases h.guard with
  | none => exact same
  | some g =>
    cases g with
    | scripted => exact same
    | sidecar o =>
      change w'.locks.release o = w.locks.release o
      rw [same]

theorem openCyclePending {h : Handle} {temp : String} (pending : h.names.temp? = some temp) (w : World) :
    h.openCycle w = ⟨.error .ebusy, h, w.logError s!"Write already in progress, tmp file:{temp}"⟩ := by
  unfold openCycle
  rw [pending]

inductive Opening (h : Handle) (w : World) : Ran String → Prop where
  | busy {temp} (pending : h.names.temp? = some temp) :
      Opening h w ⟨.error .ebusy, h, w.logError s!"Write already in progress, tmp file:{temp}"⟩
  | locked {e} (idle : h.names.temp? = none) (refused : (h.takeGuard w).result = .error e) :
      Opening h w ⟨.error e, (h.takeGuard w).handle, (h.takeGuard w).world⟩
  | failed {g e w'} (idle : h.names.temp? = none) (granted : (h.takeGuard w).result = .ok g)
      (refused : (h.takeGuard w).handle.createTemp (h.takeGuard w).world = (.error e, w')) :
      Opening h w ⟨.error e, (h.takeGuard w).handle, giveBack g w'⟩
  | opened {g temp w'} (idle : h.names.temp? = none) (granted : (h.takeGuard w).result = .ok g)
      (created : (h.takeGuard w).handle.createTemp (h.takeGuard w).world = (.ok temp, w')) :
      Opening h w ⟨.ok temp,
        { (h.takeGuard w).handle with names := (h.takeGuard w).handle.names.openWith temp, guard := g },
        w'⟩

theorem opening (h : Handle) (w : World) : Opening h w (h.openCycle w) := by
  cases open' : h.names.temp? with
  | some temp =>
    rw [openCyclePending open']
    exact .busy open'
  | none =>
    unfold openCycle
    rw [open']
    dsimp only
    cases taken : (h.takeGuard w).result with
    | error e => exact .locked open' taken
    | ok g =>
      dsimp only
      cases made : (h.takeGuard w).handle.createTemp (h.takeGuard w).world with
      | mk result w' =>
        cases result with
        | error e => exact .failed open' taken made
        | ok temp => exact .opened open' taken made

theorem openedBy {h : Handle} {w : World} {temp : String} (started : (h.startWrite w).result = .ok temp) :
    ∃ g, h.names.temp? = none ∧ (h.takeGuard w).result = .ok g ∧
      (h.takeGuard w).handle.createTemp (h.takeGuard w).world = (.ok temp, (h.openCycle w).world) := by
  replace started : (h.openCycle w).result = .ok temp := started
  have ended := h.opening w
  generalize h.openCycle w = r at ended started
  cases ended with
  | busy pending => cases started
  | locked idle refused => cases started
  | failed idle granted refused => cases started
  | opened idle granted created =>
    cases started
    exact ⟨_, idle, granted, created⟩

theorem startWriteStreamRefused {h : Handle} {w : World} {e : Errno}
    (refused : (h.startWrite w).result = .error e) :
    h.startWriteStream w = ⟨.error e, (h.startWrite w).handle, (h.startWrite w).world⟩ := by
  unfold startWriteStream
  dsimp only
  rw [refused]

theorem startWriteStreamOpens {h : Handle} {w : World} {temp : String}
    (started : (h.startWrite w).result = .ok temp) :
    h.startWriteStream w = ⟨(openTemp temp (h.startWrite w).world).1, (h.startWrite w).handle,
      (openTemp temp (h.startWrite w).world).2⟩ := by
  unfold startWriteStream
  dsimp only
  rw [started]

def allowsCopy (h : Handle) : Bool := h.policy.commit.exdev = .copyFallback

def commitTo (h : Handle) (temp : String) (w : World) : Except Errno Committed × World :=
  Commit.run (Path.ofString temp) h.names.basePath h.allowsCopy h.forceExdev w

theorem commitRunning (h : Handle) (temp : String) (w : World) :
    Commit.Running (Path.ofString temp) h.names.basePath h.allowsCopy h.forceExdev w (h.commitTo temp w) :=
  Commit.running _ _ _ _ _

theorem commitCycleUnopened {h : Handle} (idle : h.names.temp? = none) (w : World) :
    h.commitCycle w = ⟨.error .enoent, h, w.logError "No write in progress"⟩ := by
  unfold commitCycle pendingTemp
  rw [idle]

theorem commitCycleFlushed (h : Handle) {w : World} {temp : String} (pending : h.names.temp? = some temp)
    (flushed : h.flushStaged (Path.ofString temp) w = .ok ()) :
    h.commitCycle w =
      match h.commitTo temp w with
      | (.error e, w') => ⟨.error e, h, w'.logError s!"Rename failed, err:{e.number}"⟩
      | (.ok done, w') => ⟨.ok done, (h.endCycle w').1, (h.endCycle w').2⟩ := by
  unfold commitCycle pendingTemp
  rw [pending]
  dsimp only
  rw [flushed]
  rfl

inductive Committing (h : Handle) (w : World) : Ran Committed → Prop where
  | idle (idle : h.names.temp? = none) :
      Committing h w ⟨.error .enoent, h, w.logError "No write in progress"⟩
  | unflushed {temp e} (pending : h.names.temp? = some temp)
      (refused : h.flushStaged (Path.ofString temp) w = .error e) : Committing h w ⟨.error e, h, w⟩
  | failed {temp e w'} (pending : h.names.temp? = some temp)
      (flushed : h.flushStaged (Path.ofString temp) w = .ok ())
      (refused : h.commitTo temp w = (.error e, w')) :
      Committing h w ⟨.error e, h, w'.logError s!"Rename failed, err:{e.number}"⟩
  | done {temp done w'} (pending : h.names.temp? = some temp)
      (flushed : h.flushStaged (Path.ofString temp) w = .ok ())
      (committed : h.commitTo temp w = (.ok done, w')) :
      Committing h w ⟨.ok done, (h.endCycle w').1, (h.endCycle w').2⟩

theorem committing (h : Handle) (w : World) : Committing h w (h.commitCycle w) := by
  cases pending : h.names.temp? with
  | none =>
    rw [commitCycleUnopened pending]
    exact .idle pending
  | some temp =>
    cases flushed : h.flushStaged (Path.ofString temp) w with
    | error e =>
      unfold commitCycle pendingTemp
      rw [pending]
      dsimp only
      rw [flushed]
      exact .unflushed pending flushed
    | ok u =>
      rw [h.commitCycleFlushed pending flushed]
      cases ran : h.commitTo temp w with
      | mk result w' =>
        cases result with
        | error e => exact .failed pending flushed ran
        | ok done => exact .done pending flushed ran

theorem finishWriteResult (h : Handle) (w : World) :
    (h.finishWrite w).result = (h.commitCycle w).result.map fun _ => () := rfl

theorem finishWriteWorld (h : Handle) (w : World) : ∃ details,
    (h.finishWrite w).world =
        ((h.commitCycle w).reported .finishWrite (h.commitCycle w).handle.names.base details).world ∨
      ∃ line, (h.finishWrite w).world = (h.commitCycle w).handle.sink.audit .warn line
        ((h.commitCycle w).reported .finishWrite (h.commitCycle w).handle.names.base details).world := by
  unfold finishWrite
  dsimp only
  split
  · exact ⟨_, Or.inr ⟨_, rfl⟩⟩
  · exact ⟨_, Or.inl rfl⟩

theorem committedBy {h : Handle} {w : World} (done : (h.finishWrite w).result = .ok ()) :
    ∃ temp committed w', h.names.temp? = some temp ∧ h.flushStaged (Path.ofString temp) w = .ok () ∧
      h.commitTo temp w = (.ok committed, w') ∧
      h.commitCycle w = ⟨.ok committed, (h.endCycle w').1, (h.endCycle w').2⟩ := by
  rw [finishWriteResult] at done
  have ended := h.committing w
  generalize h.commitCycle w = r at ended done
  cases ended with
  | idle idle => cases done
  | unflushed pending refused => cases done
  | failed pending flushed refused => cases done
  | done pending flushed committed => exact ⟨_, _, _, pending, flushed, committed, rfl⟩

theorem rollBackUnopened {h : Handle} (idle : h.names.temp? = none) (w : World) :
    h.rollBack w = ⟨.error .enoent, h, w.logError "No write in progress"⟩ := by
  unfold rollBack pendingTemp
  rw [idle]

inductive RollingBack (h : Handle) (w : World) : Ran Unit → Prop where
  | idle (idle : h.names.temp? = none) :
      RollingBack h w ⟨.error .enoent, h, w.logError "No write in progress"⟩
  | removed {temp fs} (pending : h.names.temp? = some temp)
      (removed : Files.remove w.fs (Path.ofString temp) = .ok fs) :
      RollingBack h w ⟨.ok (), (h.endCycle (w.withFs fs)).1, (h.endCycle (w.withFs fs)).2⟩
  | vanished {temp} (pending : h.names.temp? = some temp)
      (refused : Files.remove w.fs (Path.ofString temp) = .error .enoent) :
      RollingBack h w ⟨.error .enoent,
        (h.endCycle (w.logWarn s!"Tmp file already removed: {temp}")).1,
        (h.endCycle (w.logWarn s!"Tmp file already removed: {temp}")).2⟩
  | kept {temp e} (pending : h.names.temp? = some temp)
      (refused : Files.remove w.fs (Path.ofString temp) = .error e) (other : e ≠ .enoent) :
      RollingBack h w ⟨.error e, h, w.logWarn s!"Failed to remove file, err:{e.number}"⟩

theorem rollingBack (h : Handle) (w : World) : RollingBack h w (h.rollBack w) := by
  unfold rollBack pendingTemp
  cases open' : h.names.temp? with
  | none => exact .idle open'
  | some temp =>
    dsimp only
    cases ran : Files.remove w.fs (Path.ofString temp) with
    | ok fs => exact .removed open' ran
    | error e =>
      dsimp only
      split
      · rename_i same
        subst same
        exact .vanished open' ran
      · rename_i other
        exact .kept open' ran other

theorem removeTargetAbsent {target : String} {w : World}
    (absent : Files.isPresent w.fs (Path.ofString target) = .ok false) :
    removeTarget target w = (.ok (), w) := by
  unfold removeTarget
  dsimp only
  rw [absent]
  rfl

theorem removeTargetPresent {target : String} {w : World}
    (present : Files.isPresent w.fs (Path.ofString target) = .ok true) :
    removeTarget target w = match Files.remove w.fs (Path.ofString target) with
      | .ok fs => (.ok (), w.withFs fs)
      | .error e => (.error e, w.logError s!"Failed to remove file {target}, err:{e.number}") := by
  unfold removeTarget
  dsimp only
  rw [present]
  rfl

inductive Removing (target : String) (w : World) : Except Errno Unit × World → Prop where
  | absent (absent : Files.isPresent w.fs (Path.ofString target) = .ok false) :
      Removing target w (.ok (), w)
  | removed {fs} (present : Files.isPresent w.fs (Path.ofString target) = .ok true)
      (removed : Files.remove w.fs (Path.ofString target) = .ok fs) :
      Removing target w (.ok (), w.withFs fs)
  | refused (e) : Removing target w (.error e, w.logError s!"Failed to remove file {target}, err:{e.number}")

theorem removing (target : String) (w : World) : Removing target w (removeTarget target w) := by
  cases present : Files.isPresent w.fs (Path.ofString target) with
  | error e =>
    unfold removeTarget
    dsimp only
    rw [present]
    exact .refused e
  | ok there =>
    cases there with
    | false =>
      rw [removeTargetAbsent present]
      exact .absent present
    | true =>
      rw [removeTargetPresent present]
      cases removed : Files.remove w.fs (Path.ofString target) with
      | ok fs => exact .removed present removed
      | error e => exact .refused e

inductive Retiring (h : Handle) (w : World) : Ran Unit → Prop where
  | kept {staging base e w₁ w₂} (first : removeTarget h.names.staging w = (staging, w₁))
      (second : removeTarget h.names.base w₁ = (base, w₂))
      (failure : lastFailure staging base = .error e) : Retiring h w ⟨.error e, h, w₂⟩
  | retired {w₁ w₂} (first : removeTarget h.names.staging w = (.ok (), w₁))
      (second : removeTarget h.names.base w₁ = (.ok (), w₂)) :
      Retiring h w ⟨.ok (), { h with names := .retired, guard := none }, h.releaseGuard w₂⟩

theorem retiring (h : Handle) (w : World) : Retiring h w (h.retire w) := by
  unfold retire
  cases first : removeTarget h.names.staging w with
  | mk staging w₁ =>
    dsimp only
    cases second : removeTarget h.names.base w₁ with
    | mk base w₂ =>
      cases base with
      | error e => exact .kept first second rfl
      | ok u =>
        cases staging with
        | error e => exact .kept first second rfl
        | ok v => exact .retired first second

section Readers
variable {h : Handle} {w : World} {q : Path} {i : Ino} {e : Errno}

theorem openResolvedUnresolved (unresolved : Files.canonical w.fs h.names.basePath = .error e) :
    h.openResolved w = (.error e, w.logError s!"Failed to resolve real path, err:{e.number}") := by
  rw [openResolved, resolve, unresolved]

theorem openReaderUnresolved (unresolved : Files.canonical w.fs h.names.basePath = .error e) :
    h.openReader w = (.error e, w.logError s!"Failed to resolve real path, err:{e.number}") := by
  rw [openReader, resolve, unresolved]

theorem openResolvedOf (resolved : Files.canonical w.fs h.names.basePath = .ok q)
    (opens : Files.openReadOnly w.fs q = .ok i) : h.openResolved w = (.ok (i, q), w) := by
  rw [openResolved, resolve, resolved]
  dsimp only
  rw [opens]

theorem openResolvedBarred (bars : w.fs.Bars h.names.basePath e) : (h.openResolved w).1 = .error e := by
  rcases bars with unresolved | ⟨q, resolved, unopened⟩
  · rw [openResolvedUnresolved unresolved]
  · rw [openResolved, resolve, resolved]
    dsimp only
    rw [unopened]

theorem openReaderOf (resolved : Files.canonical w.fs h.names.basePath = .ok q)
    (opens : Files.openReadOnly w.fs q = .ok i) : h.openReader w =
      (.ok { file := { ino := i, owner := w.owners }, path := q }, { w with owners := w.owners + 1 }) := by
  rw [openReader, resolve, resolved]
  dsimp only
  rw [opens]
  rfl

theorem openReaderBarred (bars : w.fs.Bars h.names.basePath e) : (h.openReader w).1 = .error e := by
  rcases bars with unresolved | ⟨q, resolved, unopened⟩
  · rw [openReaderUnresolved unresolved]
  · rw [openReader, resolve, resolved]
    dsimp only
    rw [unopened]

theorem readContentsBarred (bars : w.fs.Bars h.names.basePath e) : (h.readContents w).1 = .error e := by
  have barred := openResolvedBarred bars
  unfold readContents
  generalize h.openResolved w = r at barred
  obtain ⟨result, w'⟩ := r
  cases barred
  rfl

end Readers

theorem openResolvedLooks (h : Handle) (w : World) : w.Looked (h.openResolved w).2 := by
  unfold openResolved resolve
  cases Files.canonical w.fs h.names.basePath with
  | error e => exact .line _ _ _
  | ok path =>
    dsimp only
    split
    · exact .refl w
    · exact .line _ _ _

theorem openBaseLooks (h : Handle) (w : World) : w.Looked (h.openBase w).2 := by
  have resolved := h.openResolvedLooks w
  unfold openBase
  split
  · exact .line _ _ _
  split
  · rename_i refused
    rwa [refused] at resolved
  · rename_i opened
    rw [opened] at resolved
    exact resolved.trans (.opened _)

theorem readContentsLooks (h : Handle) (w : World) : w.Looked (h.readContents w).2 := by
  have resolved := h.openResolvedLooks w
  unfold readContents
  split
  · rename_i refused
    rwa [refused] at resolved
  · rename_i opened
    rw [opened] at resolved
    refine resolved.trans ?_
    dsimp only
    split
    · exact .line _ _ _
    unfold Files.readSized Files.readVia
    split
    · exact .refl _
    split
    · exact .refl _
    · exact .line _ _ _

theorem openReaderLooks (h : Handle) (w : World) : w.Looked (h.openReader w).2 := by
  unfold openReader resolve
  cases Files.canonical w.fs h.names.basePath with
  | error e => exact .line _ _ _
  | ok path =>
    dsimp only
    split
    · exact .refl w
    · exact .opened _

end Handle

theorem Sink.reportEffect (s : Sink) {α : Type} (stage : Stage) (path : String)
    (details : Json.Value) (result : Except Errno α) (w : World) :
    ∃ fs events, s.report stage path details result w = { w with fs, events } ∧
      (fs = w.fs ∨ ∃ f, fs = s.react f w.fs) := by
  have told : ∀ (f : Fact) (w : World), ∃ fs events, s.fact f w = { w with fs, events } ∧
      (fs = w.fs ∨ ∃ f, fs = s.react f w.fs) := by
    intro f w
    unfold Sink.fact
    split
    · exact ⟨_, _, rfl, Or.inr ⟨f, rfl⟩⟩
    · exact ⟨w.fs, w.events, rfl, Or.inl rfl⟩
  unfold Sink.report
  dsimp only
  split
  · exact told _ w
  · rename_i e
    obtain ⟨fs, events, same, by'⟩ := told _ (s.audit .warn (Sink.failureLine stage path e) w)
    exact ⟨fs, events, same, by'⟩

def Ran.ended {α : Type} (r : Ran α) : Ran Unit := ⟨r.result.map fun _ => (), r.handle, r.world⟩

inductive Call
  | startWrite
  | startWriteStream
  | finishWrite
  | failWrite
  | delete
  | getBaseFile
  | readFully
  | openRead
  deriving DecidableEq, Repr

def Call.perform (c : Call) (h : Handle) (w : World) : Ran Unit :=
  match c with
  | .startWrite => (h.startWrite w).ended
  | .startWriteStream => (h.startWriteStream w).ended
  | .finishWrite => h.finishWrite w
  | .failWrite => h.failWrite w
  | .delete => h.delete w
  | .getBaseFile => (h.getBaseFile w).ended
  | .readFully => (h.readFully w).ended
  | .openRead => (h.openRead w).ended

end AtomicUpdate
