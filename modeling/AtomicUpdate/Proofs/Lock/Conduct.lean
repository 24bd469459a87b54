import AtomicUpdate.Proofs.Fs.Refused
import AtomicUpdate.Proofs.Handle.Creation
import AtomicUpdate.Proofs.Lock.Polling
import AtomicUpdate.Proofs.Lock.Sidecar

/-! What the operations of a handle do to its lock and to the lock file. A cycle that ends gives up the
lock, whichever way it ends; a cycle that goes on keeps it; and the lock file stays as it is, as long
as it is none of the handle's own files. -/
namespace AtomicUpdate
namespace Handle
open Fs (Heeds Minds)

def owned (h : Handle) (fs : Fs) : List (Ino × Name) :=
  fs.entryAt h.names.basePath ++ fs.entryAt h.names.stagingPath ++
    match h.names.temp? with
    | none => []
    | some temp => Commit.owned fs (Path.ofString temp) h.names.basePath

structure Apart (h : Handle) (p : Path) (fs : Fs) : Prop where
  names : ∀ v ∈ fs.route p, v ∉ h.owned fs
  base : h.allowsCopy = true → fs.file? h.names.basePath = none ∨
    fs.file? h.names.basePath ≠ fs.file? p

instance (h : Handle) (p : Path) (fs : Fs) : Decidable (h.Apart p fs) :=
  decidable_of_iff ((∀ v ∈ fs.route p, v ∉ h.owned fs) ∧ (h.allowsCopy = true →
      fs.file? h.names.basePath = none ∨ fs.file? h.names.basePath ≠ fs.file? p))
    ⟨fun both => ⟨both.1, both.2⟩, fun apart => ⟨apart.names, apart.base⟩⟩

theorem Apart.other {h : Handle} {p : Path} {fs : Fs} (apart : h.Apart p fs)
    (copies : h.allowsCopy = true) (k : Ino) (led : fs.file? h.names.basePath = some k) :
    fs.file? p ≠ some k := by
  rcases apart.base copies with none | other
  · rw [none] at led
    cases led
  · rwa [led, ne_comm] at other

def Heedful (h : Handle) (p : Path) : Prop := ∀ f fs, fs.Tidy → Minds p fs (h.sink.react f fs)

def Keeping (h : Handle) (w : World) (h' : Handle) (w' : World) : Prop :=
  (h'.names = h.names ∧ h'.guard = h.guard ∧ w'.locks = w.locks) ∨
    (h'.names.temp? = none ∧ h'.guard = none ∧ w'.locks = (h.releaseGuard w).locks)

structure Conducts (p : Path) (h : Handle) (w : World) (h' : Handle) (w' : World) : Prop where
  lock : h'.lock = h.lock
  sink : h'.sink = h.sink
  owners : w'.owners = w.owners
  held : Keeping h w h' w'
  minds : Minds p w.fs w'.fs

variable {p : Path} {h h' : Handle} {w w' : World}

theorem Heedful.same (heedful : h.Heedful p) (sink : h'.sink = h.sink) : h'.Heedful p := by
  intro f fs tidy
  rw [sink]
  exact heedful f fs tidy

theorem reportMinds (heedful : h.Heedful p) (tidy : w.fs.Tidy) {α : Type} (stage : Stage)
    (path : String) (details : Json.Value) (result : Except Errno α) :
    ∃ fs events, h.sink.report stage path details result w = { w with fs, events } ∧
      Minds p w.fs fs := by
  obtain ⟨fs, events, same, rfl | ⟨f, rfl⟩⟩ := h.sink.reportEffect stage path details result w
  · exact ⟨_, _, same, Minds.refl p tidy⟩
  · exact ⟨_, _, same, heedful f w.fs tidy⟩

theorem Conducts.reported {α : Type} {r : Ran α} (conducts : Conducts p h w r.handle r.world)
    (heedful : h.Heedful p) (stage : Stage) (path : String) (details : Json.Value) :
    Conducts p h w (r.reported stage path details).handle (r.reported stage path details).world := by
  obtain ⟨fs, events, same, minds⟩ := reportMinds (w := r.world) (heedful.same conducts.sink)
    conducts.minds.tidy stage path details r.result
  have world : (r.reported stage path details).world = { r.world with fs, events } := same
  rw [world]
  exact ⟨conducts.lock, conducts.sink, conducts.owners, conducts.held, conducts.minds.trans minds⟩

theorem Conducts.noted (conducts : Conducts p h w h' w') (events : List Event) :
    Conducts p h w h' { w' with events } :=
  ⟨conducts.lock, conducts.sink, conducts.owners, conducts.held, conducts.minds⟩

theorem releaseGuardRest (h : Handle) (w : World) :
    (h.releaseGuard w).fs = w.fs ∧ (h.releaseGuard w).owners = w.owners := by
  unfold releaseGuard
  cases h.guard with
  | none => exact ⟨rfl, rfl⟩
  | some g => cases g <;> exact ⟨rfl, rfl⟩

theorem ownedTemp {temp : String} {fs : Fs} (pending : h.names.temp? = some temp) {v : Ino × Name}
    (mem : v ∈ Commit.owned fs (Path.ofString temp) h.names.basePath) : v ∈ h.owned fs := by
  rw [owned, pending]
  exact List.mem_append_right _ mem

theorem Conducts.endCycle {fs : Fs} {events : List Event} (minds : Minds p w.fs fs)
    {w₁ : World} (world : w₁ = { w with fs, events }) :
    Conducts p h w (h.endCycle w₁).1 (h.endCycle w₁).2 := by
  obtain ⟨same, owners⟩ := h.releaseGuardRest w₁
  refine ⟨rfl, rfl, ?_, Or.inr ⟨rfl, rfl, ?_⟩, ?_⟩
  · change (h.releaseGuard w₁).owners = w.owners
    rw [owners, world]
  · exact h.releaseGuardLocks (by rw [world])
  · change Minds p w.fs (h.releaseGuard w₁).fs
    rw [same, world]
    exact minds

theorem Conducts.still {fs : Fs} {events : List Event} (minds : Minds p w.fs fs) :
    Conducts p h w h { w with fs, events } :=
  ⟨rfl, rfl, rfl, Or.inl ⟨rfl, rfl, rfl⟩, minds⟩

theorem commitConducts (tidy : w.fs.Tidy) (apart : h.Apart p w.fs) :
    Conducts p h w (h.commitCycle w).handle (h.commitCycle w).world := by
  have ended := h.committing w
  generalize h.commitCycle w = r at ended
  have ran : ∀ {temp}, h.names.temp? = some temp →
      ∃ fs events, (h.commitTo temp w).2 = { w with fs, events } ∧ Minds p w.fs fs := by
    intro temp pending
    obtain ⟨fs, events, same, heeds⟩ : ∃ fs events, (h.commitTo temp w).2 = { w with fs, events } ∧
        Heeds (fun d n => (d, n) ∈ h.owned w.fs) (fun k => w.fs.file? p = some k) w.fs fs :=
      Commit.runHeeds tidy (Fs.fileSolid tidy p) h.allowsCopy h.forceExdev
        (fun v mem => ownedTemp pending mem) apart.other
    exact ⟨fs, events, same, heeds.minds tidy apart.names⟩
  cases ended with
  | idle idle => exact .still (Minds.refl p tidy)
  | unflushed pending refused => exact .still (Minds.refl p tidy)
  | failed pending flushed refused =>
    obtain ⟨fs, events, same, minds⟩ := ran pending
    rw [refused] at same
    cases same
    exact .still minds
  | done pending flushed committed =>
    obtain ⟨fs, events, same, minds⟩ := ran pending
    rw [committed] at same
    exact .endCycle minds same

theorem finishWriteConducts (tidy : w.fs.Tidy) (apart : h.Apart p w.fs) (heedful : h.Heedful p) :
    Conducts p h w (h.finishWrite w).handle (h.finishWrite w).world := by
  have told := (commitConducts tidy apart).reported heedful .finishWrite
  obtain ⟨details, same | ⟨line, same⟩⟩ := h.finishWriteWorld w
  · rw [same]
    exact told _ details
  · rw [same]
    exact (told _ details).noted _

theorem rollBackConducts (tidy : w.fs.Tidy) (apart : h.Apart p w.fs) :
    Conducts p h w (h.rollBack w).handle (h.rollBack w).world := by
  have ended := h.rollingBack w
  generalize h.rollBack w = r at ended
  cases ended with
  | idle idle => exact .still (Minds.refl p tidy)
  | removed pending removed =>
    have heeds : Heeds (fun d n => (d, n) ∈ h.owned w.fs) (fun k => w.fs.file? p = some k) w.fs _ :=
      Files.removeHeeds tidy (Fs.fileSolid tidy p) removed
        fun v mem => ownedTemp pending (List.mem_append_left _ mem)
    exact .endCycle (heeds.minds tidy apart.names) rfl
  | vanished pending refused => exact .endCycle (Minds.refl p tidy) rfl
  | kept pending refused other => exact .still (Minds.refl p tidy)

theorem failWriteConducts (tidy : w.fs.Tidy) (apart : h.Apart p w.fs) (heedful : h.Heedful p) :
    Conducts p h w (h.failWrite w).handle (h.failWrite w).world :=
  (rollBackConducts tidy apart).reported heedful _ _ _

theorem removeTargetHeeds {touched : Ino → Name → Prop} {kept : Ino → Prop} (tidy : w.fs.Tidy)
    (solid : w.fs.Solid kept) (target : String)
    (may : ∀ v ∈ w.fs.entryAt (Path.ofString target), touched v.1 v.2) :
    ∃ fs events, (removeTarget target w).2 = { w with fs, events } ∧
      Heeds touched kept w.fs fs ∧ Fs.Keeps (fun _ => True) fs w.fs := by
  have ended := removing target w
  generalize removeTarget target w = r at ended
  cases ended with
  | absent absent => exact ⟨w.fs, w.events, rfl, Heeds.refl tidy, Fs.Keeps.refl _ _⟩
  | removed present removed =>
    exact ⟨_, w.events, rfl, Files.removeHeeds tidy solid removed may, Files.removeBefore removed⟩
  | refused e => exact ⟨w.fs, _, rfl, Heeds.refl tidy, Fs.Keeps.refl _ _⟩

theorem retireConducts (tidy : w.fs.Tidy) (apart : h.Apart p w.fs) :
    Conducts p h w (h.retire w).handle (h.retire w).world := by
  have solid : w.fs.Solid (fun k => w.fs.file? p = some k) := Fs.fileSolid tidy p
  obtain ⟨fs₁, events₁, first', heeds₁, keeps⟩ : ∃ fs events,
      (removeTarget h.names.staging w).2 = { w with fs, events } ∧
        Heeds (fun d n => (d, n) ∈ h.owned w.fs) (fun k => w.fs.file? p = some k) w.fs fs ∧
        Fs.Keeps (fun _ => True) fs w.fs :=
    removeTargetHeeds tidy solid h.names.staging
      fun v mem => List.mem_append_left _ (List.mem_append_right _ mem)
  have mid : ∃ w₁, (removeTarget h.names.staging w).2 = w₁ := ⟨_, rfl⟩
  obtain ⟨w₁, ends₁⟩ := mid
  have fs : w₁.fs = fs₁ := by rw [← ends₁, first']
  have tidy₁ : w₁.fs.Tidy := by rw [fs]; exact heeds₁.tidy
  have solid₁ : w₁.fs.Solid (fun k => w.fs.file? p = some k) := by rw [fs]; exact heeds₁.solid solid
  obtain ⟨fs₂, events₂, second', heeds₂, _⟩ : ∃ fs events,
      (removeTarget h.names.base w₁).2 = { w₁ with fs, events } ∧
        Heeds (fun d n => (d, n) ∈ h.owned w.fs) (fun k => w.fs.file? p = some k) w₁.fs fs ∧
        Fs.Keeps (fun _ => True) fs w₁.fs :=
    removeTargetHeeds tidy₁ solid₁ h.names.base
      fun v mem => List.mem_append_left _ (List.mem_append_left _
        (Fs.entryAtBefore keeps (by rw [← fs]; exact mem)))
  have minds : Minds p w.fs fs₂ := (heeds₁.trans (by rw [← fs]; exact heeds₂)).minds tidy apart.names
  have world : (removeTarget h.names.base w₁).2 = { w with fs := fs₂, events := events₂ } := by
    rw [second', ← ends₁, first']
  have ended := h.retiring w
  generalize h.retire w = r at ended
  cases ended with
  | kept first second failure =>
    rw [first] at ends₁
    cases ends₁
    rw [second] at world
    cases world
    exact .still minds
  | @retired _ w₂ first second =>
    rw [first] at ends₁
    cases ends₁
    rw [second] at world
    change w₂ = _ at world
    obtain ⟨same, owners⟩ := h.releaseGuardRest w₂
    refine ⟨rfl, rfl, ?_, Or.inr ⟨rfl, rfl, ?_⟩, ?_⟩
    · exact owners.trans (by rw [world])
    · exact h.releaseGuardLocks (by rw [world])
    · rw [same, world]
      exact minds

theorem deleteConducts (tidy : w.fs.Tidy) (apart : h.Apart p w.fs) (heedful : h.Heedful p) :
    Conducts p h w (h.delete w).handle (h.delete w).world :=
  (retireConducts tidy apart).reported heedful _ _ _

theorem createTempHeeds (touched : Ino → Name → Prop) {kept : Ino → Prop} (h : Handle)
    (tidy : w.fs.Tidy) (solid : w.fs.Solid kept) :
    ∃ fs drawn events, (h.createTemp w).2 = { w with fs, drawn, events } ∧
      Heeds touched kept w.fs fs ∧ ∀ e, (h.createTemp w).1 = .error e → e = .enoent := by
  rcases h.createTempExact w with ⟨drawn, events, ended⟩ | ⟨_, _, _, _, _, drawn, _, _, located, _, ended⟩
  · rw [ended]
    refine ⟨w.fs, drawn, events, rfl, Heeds.refl tidy, fun e failed => ?_⟩
    cases failed
    rfl
  · rw [ended]
    exact ⟨_, drawn, w.events, rfl, Heeds.born tidy solid (Fs.vacantFree located).2 _,
      fun e failed => by cases failed⟩

theorem toldMinds {r : Ran String} (heedful : r.handle.Heedful p) (tidy : r.world.fs.Tidy) :
    ∃ fs events, told r = ⟨r.result, r.handle, { r.world with fs, events }⟩ ∧
      Minds p r.world.fs fs := by
  obtain ⟨details, reported⟩ : ∃ details,
      told r = r.reported .startWrite r.handle.names.base details := ⟨_, rfl⟩
  obtain ⟨fs, events, same, minds⟩ := reportMinds (w := r.world) heedful tidy .startWrite
    r.handle.names.base details r.result
  exact ⟨fs, events, reported.trans (congrArg (Ran.mk r.result r.handle) same), minds⟩

theorem beginEnds {r : Ran String} (lock : h.lock = some (.sidecar p)) (tidy : w.fs.Tidy)
    (heedful : h.Heedful p) (begun : h.beginWrite w = .ended r) :
    Conducts p h w r.handle r.world ∧ r.handle.names = h.names ∧
      ∃ e, r.result = .error e ∧ e ≠ .eagain := by
  unfold beginWrite at begun
  split at begun
  · rename_i path idle lock'
    split at begun
    · rename_i e w' failed
      cases begun
      obtain ⟨rfl, cause⟩ := LockManager.notEntered failed
      obtain ⟨fs, events, same, minds⟩ := toldMinds (r := ⟨.error e, h, w'⟩) heedful tidy
      rw [same]
      refine ⟨.still minds, rfl, e, rfl, ?_⟩
      rcases cause with rfl | refused
      · decide
      · exact Fs.openCreateRefused refused
    · cases begun
  · rename_i busy
    cases begun
    cases pending : h.names.temp? with
    | none => exact absurd lock (busy p pending)
    | some temp =>
      have whole : h.startWrite w = told (h.openCycle w) := rfl
      rw [whole, openCyclePending pending]
      obtain ⟨fs, events, same, minds⟩ := toldMinds (p := p)
        (r := ⟨.error .ebusy, h, w.logError s!"Write already in progress, tmp file:{temp}"⟩)
        heedful tidy
      rw [same]
      exact ⟨.still minds, rfl, .ebusy, rfl, by decide⟩

theorem beginWaits {x : Wait} (lock : h.lock = some (.sidecar p)) (tidy : w.fs.Tidy)
    (begun : h.beginWrite w = .waiting x w') :
    h.names.temp? = none ∧ x.file.owner = w.owners ∧ Minds p w.fs w'.fs ∧
      w'.fs.file? p = some x.file.ino ∧ ∃ fs, w' = { w with fs, owners := w.owners + 1 } := by
  unfold beginWrite at begun
  split at begun
  · rename_i path idle lock'
    rw [lock] at lock'
    cases lock'
    split at begun
    · cases begun
    · rename_i entered
      cases begun
      obtain ⟨fs, made, owner, _, rfl⟩ := LockManager.entered entered
      obtain ⟨minds, led⟩ := Fs.openCreateMinds tidy made
      exact ⟨idle, owner, minds, led, fs, rfl⟩
  · cases begun

inductive Settled (h : Handle) (x : Wait) (locks : LockTable) (granted : Bool) (r : Ran String) :
    Prop where
  | opened {temp} (ok : r.result = .ok temp) (names : r.handle.names = h.names.openWith temp)
      (guard : r.handle.guard = some (.sidecar x.file.owner)) (had : granted = true)
      (held : r.world.locks = locks) : Settled h x locks granted r
  | failed {e} (error : r.result = .error e) (again : e = .eagain → granted = false)
      (names : r.handle.names = h.names) (guard : r.handle.guard = h.guard)
      (held : r.world.locks = locks.release x.file.owner) : Settled h x locks granted r

theorem Settled.told {x : Wait} {locks : LockTable} {granted : Bool} {r : Ran String}
    (settled : Settled h x locks granted r) (heedful : r.handle.Heedful p) (tidy : r.world.fs.Tidy) :
    Settled h x locks granted (told r) ∧ (told r).handle = r.handle ∧
      (told r).world.owners = r.world.owners ∧ Minds p r.world.fs (told r).world.fs := by
  obtain ⟨fs, events, same, minds⟩ := toldMinds heedful tidy
  rw [same]
  refine ⟨?_, rfl, rfl, minds⟩
  cases settled with
  | opened ok names guard had held => exact .opened ok names guard had held
  | failed error again names guard held => exact .failed error again names guard held

theorem proceedEnds (h : Handle) (x : Wait) (tidy : w.fs.Tidy) :
    let r := h.proceed (.sidecar x.file.owner) w
    Settled h x w.locks true r ∧ r.handle.lock = h.lock ∧ r.handle.sink = h.sink ∧
      r.world.owners = w.owners ∧ Minds p w.fs r.world.fs := by
  intro r
  obtain ⟨fs, drawn, events, made, heeds, cause⟩ :=
    createTempHeeds (fun _ _ => False) h tidy (Fs.fileSolid tidy p)
  have minds : Minds p w.fs fs := heeds.minds tidy fun _ _ => id
  have ended : r = h.proceed (.sidecar x.file.owner) w := rfl
  unfold proceed at ended
  cases created : h.createTemp w with
  | mk result w₂ =>
    rw [created] at made cause ended
    subst made
    cases result with
    | error e =>
      rw [ended]
      refine ⟨.failed rfl (fun again => ?_) rfl rfl rfl, rfl, rfl, rfl, minds⟩
      cases (cause e rfl).symm.trans again
    | ok temp =>
      rw [ended]
      exact ⟨.opened rfl rfl rfl rfl rfl, rfl, rfl, rfl, minds⟩

theorem pollEnds {x : Wait} {r : Ran String} (tidy : w.fs.Tidy) (heedful : h.Heedful p)
    (polled : h.pollWrite x w = .ended r) :
    Settled h x (w.locks.request x.file.ino x.file.owner .exclusive).2
        (w.locks.request x.file.ino x.file.owner .exclusive).1 r ∧
      r.handle.lock = h.lock ∧ r.handle.sink = h.sink ∧ r.world.owners = w.owners ∧
      Minds p w.fs r.world.fs := by
  have ended := x.attempted h.timeout w
  unfold pollWrite at polled
  generalize x.poll h.timeout w = answer at ended polled
  cases ended with
  | paused refused early => cases polled
  | late refused late =>
    cases polled
    generalize closed : (({ w with locks := _ } : World).logWarn _).close x.file = w₁
    have settled : Settled h x (w.locks.request x.file.ino x.file.owner .exclusive).2
        (w.locks.request x.file.ino x.file.owner .exclusive).1 ⟨.error .eagain, h, w₁⟩ :=
      .failed rfl (fun _ => refused) rfl rfl (closed ▸ rfl)
    subst closed
    obtain ⟨ends, handle, owners, minds⟩ := settled.told heedful tidy
    rw [settle, handle]
    exact ⟨ends, rfl, rfl, owners, minds⟩
  | kept granted =>
    cases polled
    obtain ⟨settled, lock, sink, owners, minds⟩ := h.proceedEnds x (p := p)
      (w := { w with locks := (w.locks.request x.file.ino x.file.owner .exclusive).2 }) tidy
    obtain ⟨ends, handle, owners', minds'⟩ := settled.told (heedful.same sink) minds.tidy
    rw [settle, handle, granted]
    exact ⟨ends, lock, sink, owners'.trans owners, minds.trans minds'⟩

end Handle
end AtomicUpdate
