import AtomicUpdate.Proofs.Handle.Creation
import AtomicUpdate.Proofs.Store.Ground

/-! Opening a cycle on the ground of a base: an empty temp file with a name that nobody had, or no
change at all. Handles here lock by script if at all, and whoever is given their facts does nothing to
the files. -/
namespace AtomicUpdate

def Handle.Quiet (h : Handle) : Prop := ∀ f fs, h.sink.react f fs = fs

def Handle.Unsided (h : Handle) : Prop := ∀ p, h.lock ≠ some (.sidecar p)

namespace Handle

structure Steady (h : Handle) (w : World) (h' : Handle) (w' : World) : Prop where
  policy : h'.policy = h.policy
  force : h'.forceExdev = h.forceExdev
  sink : h'.sink = h.sink
  unsided : h'.Unsided
  env : w'.env = w.env
  draws : w'.draws = w.draws

theorem Quiet.same {h h' : Handle} (quiet : h.Quiet) (sink : h'.sink = h.sink) : h'.Quiet := by
  intro f fs
  rw [sink]
  exact quiet f fs

theorem reportWorld {h : Handle} (quiet : h.Quiet) {α : Type} (stage : Stage) (path : String)
    (details : Json.Value) (result : Except Errno α) (w : World) :
    ∃ events, h.sink.report stage path details result w = { w with events } := by
  obtain ⟨fs, events, same, rfl | ⟨f, rfl⟩⟩ := h.sink.reportEffect stage path details result w
  · exact ⟨events, same⟩
  · rw [quiet f w.fs] at same
    exact ⟨events, same⟩

theorem reportedFs {α : Type} {r : Ran α} (quiet : r.handle.Quiet) (stage : Stage) (path : String)
    (details : Json.Value) : (r.reported stage path details).world.fs = r.world.fs := by
  obtain ⟨events, world⟩ := reportWorld quiet stage path details r.result r.world
  change (r.handle.sink.report stage path details r.result r.world).fs = r.world.fs
  rw [world]

theorem takeScripted {h : Handle} (unsided : h.Unsided) (w : World) :
    ∃ lock events, (h.takeGuard w).handle = { h with lock } ∧
      ({ h with lock } : Handle).Unsided ∧ (h.takeGuard w).world = { w with events } := by
  unfold takeGuard
  cases kind : h.lock with
  | none =>
    have same : ({ h with lock := none } : Handle) = h := by rw [← kind]
    exact ⟨none, w.events, same.symm, fun p wrong => (by cases wrong), rfl⟩
  | some manager =>
    cases manager with
    | sidecar p => exact absurd kind (unsided p)
    | scripted answers =>
      dsimp only [LockManager.acquire]
      split
      · exact ⟨_, _, rfl, fun p wrong => (by cases wrong), rfl⟩
      · exact ⟨_, _, rfl, fun p wrong => (by cases wrong), rfl⟩

variable {first : Fs} {base : String} {q : Path} {d : Ino} {h : Handle} {w : World}

inductive Starts (base : String) (d : Ino) (h : Handle) (w : World) : Ran String → Prop where
  | refused {r e} (error : r.result = .error e) (names : r.handle.names = h.names)
      (fs : r.world.fs = w.fs) (busy : h.names.temp?.isSome = true → e = .ebusy) :
      Starts base d h w r
  | opened {r} (k : Nat) (live : h.names = .ofBase base)
      (free : w.fs.named? d ((w.draws k).after (leafOf base)) = none)
      (write : w.fs.permits d .write = true)
      (ok : r.result = .ok (Template.fill (Template.stemOf base) (w.draws k)))
      (names : r.handle.names =
        h.names.openWith (Template.fill (Template.stemOf base) (w.draws k)))
      (fs : r.world.fs = w.fs.born d ((w.draws k).after (leafOf base)) 0o600) : Starts base d h w r

theorem createTempEnds (ground : Ground first base q d) (evolves : first.Evolves w.fs)
    (live : h.names = .ofBase base) :
    (∃ e drawn events, h.createTemp w = (.error e, { w with drawn, events })) ∨
      ∃ k drawn, w.fs.named? d ((w.draws k).after (leafOf base)) = none ∧
        w.fs.permits d .write = true ∧
        h.createTemp w = (.ok (Template.fill (Template.stemOf base) (w.draws k)),
          { w with fs := w.fs.born d ((w.draws k).after (leafOf base)) 0o600, drawn }) := by
  rcases h.createTempExact w with ⟨drawn, events, ended⟩ | ⟨stem, k, e, n, s, drawn, template, _, located,
    write, ended⟩
  · exact Or.inl ⟨_, drawn, events, ended⟩
  · right
    rw [live] at template
    cases template.symm.trans (Template.stemOfBase base)
    have home := ground.home evolves
    have proper := ground.temp (w.draws (w.drawn + k))
    rw [Files.drawName, tempPath] at located
    cases taken : w.fs.named? d ((w.draws (w.drawn + k)).after (leafOf base)) with
    | some j =>
      rw [home.occupied proper taken (Or.inr rfl)] at located
      cases located
    | none =>
      rw [home.vacant proper taken] at located
      cases located
      exact ⟨w.drawn + k, drawn, taken, write, ended⟩

theorem createTempRetired (gone : h.names = .retired) (w : World) :
    ∃ e drawn events, h.createTemp w = (.error e, { w with drawn, events }) := by
  rcases h.createTempExact w with ⟨drawn, events, ended⟩ | ⟨stem, _, _, _, _, _, template, _⟩
  · exact ⟨_, drawn, events, ended⟩
  · rw [gone] at template
    cases template.symm.trans Template.noStemOfEmpty

theorem Starts.reported {r : Ran String} (starts : Starts base d h w r) (quiet : r.handle.Quiet)
    (stage : Stage) (path : String) (details : Json.Value) :
    Starts base d h w (r.reported stage path details) := by
  have same := reportedFs quiet stage path details
  cases starts with
  | refused error names fs busy => exact .refused error names (same.trans fs) busy
  | opened k live free write ok names fs => exact .opened k live free write ok names (same.trans fs)

theorem Steady.reported {α : Type} {r : Ran α} (steady : Steady h w r.handle r.world)
    (quiet : r.handle.Quiet) (stage : Stage) (path : String) (details : Json.Value) :
    Steady h w (r.reported stage path details).handle (r.reported stage path details).world := by
  obtain ⟨events, world⟩ := reportWorld quiet stage path details r.result r.world
  have same : (r.reported stage path details).world = { r.world with events } := world
  rw [same]
  exact ⟨steady.policy, steady.force, steady.sink, steady.unsided, steady.env, steady.draws⟩

theorem openCycleEnds (ground : Ground first base q d) (evolves : first.Evolves w.fs)
    (unsided : h.Unsided) (phase : h.names = .ofBase base ∨ h.names = .retired ∨
      ∃ temp, h.names.temp? = some temp) :
    Starts base d h w (h.openCycle w) ∧ Steady h w (h.openCycle w).handle (h.openCycle w).world := by
  obtain ⟨lock, events, handle, unsided', world⟩ := takeScripted unsided w
  have free : ∀ {e}, h.names.temp? = none → h.names.temp?.isSome = true → e = Errno.ebusy := by
    intro e idle busy
    rw [idle] at busy
    cases busy
  have ended := h.opening w
  generalize h.openCycle w = r at ended
  cases ended with
  | busy pending => exact ⟨.refused rfl rfl rfl (fun _ => rfl), rfl, rfl, rfl, unsided, rfl, rfl⟩
  | locked idle refused =>
    rw [handle, world]
    exact ⟨.refused rfl rfl rfl (free idle), rfl, rfl, rfl, unsided', rfl, rfl⟩
  | @failed g e w' idle granted refused =>
    rw [handle, world] at refused
    rw [handle]
    obtain ⟨locks, events', given⟩ := giveBackWorld g w'
    have kept : w'.fs = w.fs ∧ w'.env = w.env ∧ w'.draws = w.draws := by
      rcases phase with live | gone | ⟨temp, pending⟩
      · have ends := createTempEnds (h := { h with lock }) (w := { w with events }) ground evolves live
        rcases ends with ⟨e', drawn, events'', failed⟩ | ⟨k, drawn, _, _, made⟩
        · rw [failed] at refused
          cases refused
          exact ⟨rfl, rfl, rfl⟩
        · rw [made] at refused
          cases refused
      · obtain ⟨e', drawn, events'', failed⟩ := createTempRetired (h := { h with lock }) gone { w with events }
        rw [failed] at refused
        cases refused
        exact ⟨rfl, rfl, rfl⟩
      · rw [pending] at idle
        cases idle
    rw [given]
    exact ⟨.refused rfl rfl kept.1 (free idle), rfl, rfl, rfl, unsided', kept.2.1, kept.2.2⟩
  | @opened g temp w' idle granted created =>
    rw [handle, world] at created
    rw [handle]
    rcases phase with live | gone | ⟨temp', pending⟩
    · have ends := createTempEnds (h := { h with lock }) (w := { w with events }) ground evolves live
      rcases ends with ⟨e', drawn, events'', failed⟩ | ⟨k, drawn, free, write, made⟩
      · rw [failed] at created
        cases created
      · rw [made] at created
        cases created
        exact ⟨.opened k live free write rfl rfl rfl, rfl, rfl, rfl, unsided', rfl, rfl⟩
    · obtain ⟨e', drawn, events'', failed⟩ := createTempRetired (h := { h with lock }) gone { w with events }
      rw [failed] at created
      cases created
    · rw [pending] at idle
      cases idle

theorem Steady.quiet {h' : Handle} {w' : World} (steady : Steady h w h' w') (quiet : h.Quiet) :
    h'.Quiet := quiet.same steady.sink

theorem startWriteEnds (ground : Ground first base q d) (evolves : first.Evolves w.fs)
    (quiet : h.Quiet) (unsided : h.Unsided) (phase : h.names = .ofBase base ∨ h.names = .retired ∨
      ∃ temp, h.names.temp? = some temp) :
    Starts base d h w (h.startWrite w) ∧
      Steady h w (h.startWrite w).handle (h.startWrite w).world := by
  obtain ⟨starts, steady⟩ := openCycleEnds ground evolves unsided phase
  exact ⟨starts.reported (steady.quiet quiet) _ _ _, steady.reported (steady.quiet quiet) _ _ _⟩

end Handle
end AtomicUpdate
