import AtomicUpdate.Proofs.Store.Start

/-! Ending a cycle on the ground of a base, by a commit, by a rollback or by deleting the file. What
is refused has changed nothing; what succeeds has changed two names and the files they lead to. -/
namespace AtomicUpdate
namespace Handle
open Commit (Commits Sealed)

variable {first : Fs} {base : String} {q : Path} {d : Ino} {h : Handle} {w : World} {s : Suffix}
  {i : Ino} {c : Bytes} {m : Nat}

structure Staging (base : String) (d : Ino) (h : Handle) (fs : Fs) (s : Suffix) (i : Ino) (c : Bytes)
    (m : Nat) : Prop where
  names : h.names = (Names.ofBase base).openWith (Template.fill (Template.stemOf base) s)
  holds : fs.Holds d (s.after (leafOf base)) i c m
  readable : (Node.file c m).permits .read = true
  writable : (Node.file c m).permits .write = true
  write : fs.permits d .write = true

def Beside (base : String) (d : Ino) (fs : Fs) (i : Ino) : Prop :=
  fs.named? d (leafOf base) = none ∨
    ∃ j c m, fs.Holds d (leafOf base) j c m ∧ j ≠ i

theorem Staging.temp (staging : Staging base d h w.fs s i c m) :
    h.names.temp? = some (Template.fill (Template.stemOf base) s) := by
  rw [staging.names]
  rfl

theorem Staging.closed (staging : Staging base d h w.fs s i c m) : h.names.closed = .ofBase base := by
  rw [staging.names]
  rfl

theorem Staging.desk (staging : Staging base d h w.fs s i c m) (ground : Ground first base q d)
    (evolves : first.Evolves w.fs) (committed : Beside base d w.fs i) :
    Commit.Desk w.fs (folderOf base) d (s.after (leafOf base)) (leafOf base) i c m where
  home := ground.home evolves
  tidy := evolves.tidy
  write := staging.write
  temp := ground.temp s
  base := ground.leaf
  other := (afterNotLeaf base s).symm
  staged := staging.holds
  readable := staging.readable
  committed := committed

def forced (h : Handle) (w : World) : Bool := h.forceExdev.getD (Commit.forcedByEnv w.env)

inductive Finishes {α : Type} (base : String) (d : Ino) (h : Handle) (w : World) (s : Suffix) (i : Ino)
    (c : Bytes) (m : Nat) : Ran α → Prop where
  | barred {r e} (reason : w.fs.permits d .read = false ∨ Sealed w.fs d (leafOf base))
      (error : r.result = .error e) (names : r.handle.names = h.names) (fs : r.world.fs = w.fs) :
      Finishes base d h w s i c m r
  | crossed {r} (forced : h.forced w = true) (refused : h.allowsCopy = false)
      (error : r.result = .error .exdev) (names : r.handle.names = h.names)
      (fs : r.world.fs = w.fs) : Finishes base d h w s i c m r
  | done {r done} (free : h.forced w = true → h.allowsCopy = true) (ok : r.result = .ok done)
      (names : r.handle.names = .ofBase base)
      (commits : Commits w.fs r.world.fs d (s.after (leafOf base)) (leafOf base) i c m) :
      Finishes base d h w s i c m r

theorem endCycleSteady (unsided : h.Unsided) (w' : World) (env : w'.env = w.env)
    (draws : w'.draws = w.draws) :
    Steady h w (h.endCycle w').1 (h.endCycle w').2 ∧ (h.endCycle w').2.fs = w'.fs := by
  obtain ⟨locks, events, released⟩ := releaseGuardWorld h w'
  have same : (h.endCycle w').2 = { w' with locks, events } := released
  rw [same]
  exact ⟨⟨rfl, rfl, rfl, unsided, env, draws⟩, rfl⟩

theorem flushStagedOk (staging : Staging base d h w.fs s i c m) (ground : Ground first base q d)
    (evolves : first.Evolves w.fs) :
    h.flushStaged (Path.ofString (Template.fill (Template.stemOf base) s)) w = .ok () := by
  unfold flushStaged
  split
  · rw [tempPath]
    exact (ground.home evolves).flush (ground.temp s) staging.holds staging.readable
  · rfl

theorem commitCycleEnds (ground : Ground first base q d) (evolves : first.Evolves w.fs)
    (unsided : h.Unsided) (staging : Staging base d h w.fs s i c m)
    (committed : Beside base d w.fs i) :
    Finishes base d h w s i c m (h.commitCycle w) ∧
      Steady h w (h.commitCycle w).handle (h.commitCycle w).world := by
  have temp := staging.temp
  have basePath' : h.names.basePath = folderOf base ++ leafOf base := by
    rw [staging.names]
    exact basePath base
  have ending : Commit.Ending w.fs d (s.after (leafOf base)) (leafOf base) i c m w h.allowsCopy
      (h.forced w) (h.commitTo (Template.fill (Template.stemOf base) s) w) := by
    rw [commitTo, basePath', tempPath]
    exact (staging.desk ground evolves committed).ends h.allowsCopy h.forceExdev w rfl
  rw [h.commitCycleFlushed temp (flushStagedOk staging ground evolves)]
  generalize h.commitTo (Template.fill (Template.stemOf base) s) w = r at ending
  cases ending with
  | barred reason => exact ⟨.barred reason rfl rfl rfl, rfl, rfl, rfl, unsided, rfl, rfl⟩
  | crossed forced' refused => exact ⟨.crossed forced' refused rfl rfl rfl, rfl, rfl, rfl, unsided, rfl, rfl⟩
  | @done _ fs' events free commits =>
    obtain ⟨steady, fs⟩ := endCycleSteady (w := w) unsided { w with fs := fs', events } rfl rfl
    refine ⟨.done free rfl staging.closed ?_, steady⟩
    change Commits w.fs (h.endCycle { w with fs := fs', events }).2.fs d _ _ i c m
    rw [fs]
    exact commits

theorem Finishes.map {α β : Type} {r : Ran α} {r' : Ran β} (finishes : Finishes base d h w s i c m r)
    (f : α → β) (result : r'.result = r.result.map f) (names : r'.handle.names = r.handle.names)
    (fs : r'.world.fs = r.world.fs) : Finishes base d h w s i c m r' := by
  cases finishes with
  | barred reason error names' fs' =>
    exact .barred reason (by rw [result, error]; rfl) (names.trans names') (fs.trans fs')
  | crossed forced refused error names' fs' =>
    exact .crossed forced refused (by rw [result, error]; rfl) (names.trans names') (fs.trans fs')
  | done free ok names' commits =>
    exact .done free (by rw [result, ok]; rfl) (names.trans names') (fs ▸ commits)

theorem finishWriteFrame (quiet : h.Quiet) (steady : Steady h w (h.commitCycle w).handle (h.commitCycle w).world) :
    (h.finishWrite w).result = (h.commitCycle w).result.map (fun _ => ()) ∧
      (h.finishWrite w).handle = (h.commitCycle w).handle ∧
      ∃ events, (h.finishWrite w).world = { (h.commitCycle w).world with events } := by
  refine ⟨rfl, rfl, ?_⟩
  obtain ⟨details, said⟩ := h.finishWriteWorld w
  obtain ⟨events, told⟩ := reportWorld (steady.quiet quiet) .finishWrite
    (h.commitCycle w).handle.names.base details (h.commitCycle w).result (h.commitCycle w).world
  dsimp only [Ran.reported] at said
  rw [told] at said
  rcases said with same | ⟨line, same⟩
  · exact ⟨events, same⟩
  · exact ⟨_, same⟩

theorem finishWriteEnds (ground : Ground first base q d) (evolves : first.Evolves w.fs)
    (quiet : h.Quiet) (unsided : h.Unsided) (staging : Staging base d h w.fs s i c m)
    (committed : Beside base d w.fs i) :
    Finishes base d h w s i c m (h.finishWrite w) ∧
      Steady h w (h.finishWrite w).handle (h.finishWrite w).world := by
  obtain ⟨finishes, steady⟩ := commitCycleEnds ground evolves unsided staging committed
  obtain ⟨result, handle, events, world⟩ := finishWriteFrame quiet steady
  refine ⟨finishes.map _ result (by rw [handle]) (by rw [world]), ?_⟩
  rw [handle, world]
  exact ⟨steady.policy, steady.force, steady.sink, steady.unsided, steady.env, steady.draws⟩

end Handle
end AtomicUpdate
