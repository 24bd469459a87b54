import AtomicUpdate.Proofs.Snapshot.Ending
import AtomicUpdate.Proofs.Snapshot.Stream
import AtomicUpdate.Proofs.Store.Read
import Mathlib.Logic.Function.Basic

/-! Handles on one base that write whenever they like, by streams or otherwise. Whatever the order is that
they do so in, none of them writes into a file that has been the base's. -/
namespace AtomicUpdate
open Handle (Over Quiet Stages Leaves Begins Streams)
open Path (Plain)

inductive StreamCall
  | write (data : Bytes)
  | flush
  | close
  | drop
  deriving DecidableEq, Repr

def Writer.call (wr : Writer) (w : World) : StreamCall → Option Writer × World
  | .write data =>
      let done := wr.write w.fs data
      (some done.writer, w.withFs done.fs)
  | .flush =>
      let done := wr.flush w.fs
      (some done.writer, w.withFs done.fs)
  | .close => (none, (wr.close w).2)
  | .drop => (none, wr.drop w)

structure Scene (ι : Type) where
  handles : ι → Handle
  streams : List Writer
  world : World

inductive Move (ι : Type)
  | startWrite (h : ι)
  | startWriteStream (h : ι)
  | finishWrite (h : ι)
  | failWrite (h : ι)
  | delete (h : ι)
  | edit (h : ι) (e : Edit)
  | stream (k : Nat) (call : StreamCall)
  | others (w : World)

namespace Scene
variable {ι : Type}

def put [DecidableEq ι] {α : Type} (s : Scene ι) (h : ι) (r : Ran α) : Scene ι :=
  { s with handles := Function.update s.handles h r.handle, world := r.world }

def startStream [DecidableEq ι] (s : Scene ι) (h : ι) (r : Ran Writer) : Scene ι :=
  { s.put h r with streams := s.streams ++ r.result.toOption.toList }

def edit (s : Scene ι) (h : ι) (e : Edit) : Scene ι :=
  match (s.handles h).names.temp? with
  | none => s
  | some temp => { s with world := s.world.withFs (e.perform (Path.ofString temp) s.world.fs) }

def stream (s : Scene ι) (k : Nat) (call : StreamCall) : Scene ι :=
  match s.streams[k]? with
  | none => s
  | some wr =>
      let (left, world) := wr.call s.world call
      { s with streams := s.streams.take k ++ left.toList ++ s.streams.drop (k + 1), world }

def move [DecidableEq ι] (s : Scene ι) : Move ι → Scene ι
  | .startWrite h => s.put h ((s.handles h).startWrite s.world)
  | .startWriteStream h => s.startStream h ((s.handles h).startWriteStream s.world)
  | .finishWrite h => s.put h ((s.handles h).finishWrite s.world)
  | .failWrite h => s.put h ((s.handles h).failWrite s.world)
  | .delete h => s.put h ((s.handles h).delete s.world)
  | .edit h e => s.edit h e
  | .stream k call => s.stream k call
  | .others world => { s with world }

/-- What is asked of a move before it is made. No commit comes to copy, and a stream is closed before the
commit that puts its file in the place of the base. Nobody else changes files. -/
def Allowed (s : Scene ι) : Move ι → Prop
  | .finishWrite h => ¬ (s.handles h).Copies s.world ∧
      ∀ temp, (s.handles h).names.temp? = some temp → ∀ wr ∈ s.streams,
        s.world.fs.lookup (Path.ofString temp) ≠ .ok wr.file.ino
  | .others w => w.fs = s.world.fs
  | _ => True

inductive Run [DecidableEq ι] : Scene ι → Scene ι → Prop where
  | refl (s) : Run s s
  | move {s s'} (run : Run s s') (m : Move ι) (allowed : s'.Allowed m) : Run s (s'.move m)

structure Fresh (base : String) (s : Scene ι) : Prop where
  tidy : s.world.fs.Tidy
  upright : s.world.fs.Upright
  built : ∀ h, (s.handles h).names = .ofBase base
  quiet : ∀ h, (s.handles h).Quiet
  unopened : s.streams = []

def stakes (base : String) (s : Scene ι) : Stakes where
  staged n := ∃ h, Stages base (s.handles h).names n
  written j := ∃ wr ∈ s.streams, wr.file.ino = j

structure Sound (base : String) (kept : Ino → Prop) (s : Scene ι) : Prop where
  sheltered : Sheltered base kept (s.stakes base) s.world.fs
  built : ∀ h, Over base (s.handles h).names
  quiet : ∀ h, (s.handles h).Quiet

structure Spared (base : String) (kept : Ino → Prop) (s s' : Scene ι) : Prop where
  sound : Sound base kept s'
  same : ∀ {j}, kept j → s'.world.fs.node? j = s.world.fs.node? j

end Scene

namespace Handle
variable {base : String}

theorem idleStages {names : Names} (idle : names.temp? = none) (n : Name) : ¬ Stages base names n := by
  rintro ⟨temp, pending, _⟩
  rw [idle] at pending
  cases pending

theorem liveStages (base : String) (n : Name) : ¬ Stages base (.ofBase base) n := idleStages rfl n

theorem openStages {s : Suffix} {n : Name}
    (stages : Stages base ((Names.ofBase base).openWith (Template.fill (Template.stemOf base) s)) n) :
    n = s.after (leafOf base) := by
  obtain ⟨temp, pending, path⟩ := stages
  cases pending
  rw [tempPath] at path
  exact (List.append_cancel_left path).symm

theorem Over.staged {names : Names} (built : Over base names) {temp : String}
    (pending : names.temp? = some temp) :
    ∃ n, Path.ofString temp = folderOf base ++ n ∧ Stages base names n := by
  cases built with
  | live => cases pending
  | retired => cases pending
  | writing s =>
    cases pending
    exact ⟨_, tempPath base s, _, rfl, tempPath base s⟩

end Handle

namespace Writer

theorem callPours (wr : Writer) (w : World) (call : StreamCall) :
    Fs.Poured wr.file.ino w.fs (wr.call w call).2.fs ∧
      ∀ wr' ∈ (wr.call w call).1, wr'.file.ino = wr.file.ino := by
  cases call with
  | write data =>
    obtain ⟨pours, same⟩ := wr.writePours w.fs data
    refine ⟨pours, fun wr' is => ?_⟩
    cases is
    exact same
  | flush =>
    obtain ⟨pours, same⟩ := wr.flushPours w.fs
    refine ⟨pours, fun wr' is => ?_⟩
    cases is
    exact same
  | close => exact ⟨wr.closePours w, fun wr' is => by cases is⟩
  | drop => exact ⟨wr.dropPours w, fun wr' is => by cases is⟩

end Writer

theorem Edit.pours (e : Edit) (p : Path) (fs : Fs) :
    e.perform p fs = fs ∨ ∃ j, fs.lookup p = .ok j ∧ Fs.Poured j fs (e.perform p fs) := by
  unfold perform
  split
  · exact Or.inl rfl
  · rename_i j led
    right
    refine ⟨j, led, ?_⟩
    cases e with
    | clear => exact Fs.truncatePoured fs j
    | put pos data =>
      dsimp only
      split
      · exact Fs.writePoured (by assumption)
      · exact .refl j fs

namespace Scene
variable {ι : Type} {base : String} {kept : Ino → Prop} {s s' s'' : Scene ι}

namespace Spared

theorem refl (sound : Sound base kept s) : Spared base kept s s := ⟨sound, fun _ => rfl⟩

theorem trans (first : Spared base kept s s') (second : Spared base kept s' s'') :
    Spared base kept s s'' :=
  ⟨second.sound, fun keep => (second.same keep).trans (first.same keep)⟩

end Spared

namespace Sound

theorem put [DecidableEq ι] (sound : Sound base kept s) {h : ι} {h' : Handle} {streams : List Writer} {w : World}
    {k : Stakes} (shelters : Shelters base kept k s.world.fs w.fs) (built : Over base h'.names)
    (sink : h'.sink = (s.handles h).sink) (mine : ∀ {n}, Stages base h'.names n → k.staged n)
    (theirs : ∀ {n}, (s.stakes base).staged n → k.staged n)
    (written : ∀ wr ∈ streams, k.written wr.file.ino) :
    Spared base kept s ⟨Function.update s.handles h h', streams, w⟩ := by
  refine ⟨⟨?_, ?_, ?_⟩, shelters.spares⟩
  · refine shelters.state.less ?_ ?_
    · rintro n ⟨i, stages⟩
      dsimp only at stages
      by_cases same : i = h
      · subst same
        rw [Function.update_self] at stages
        exact mine stages
      · rw [Function.update_of_ne same] at stages
        exact theirs ⟨i, stages⟩
    · rintro j ⟨wr, mem, rfl⟩
      exact written wr mem
  · intro i
    dsimp only
    by_cases same : i = h
    · subst same
      rw [Function.update_self]
      exact built
    · rw [Function.update_of_ne same]
      exact sound.built i
  · intro i f fs
    dsimp only
    by_cases same : i = h
    · subst same
      rw [Function.update_self, sink]
      exact sound.quiet i f fs
    · rw [Function.update_of_ne same]
      exact sound.quiet i f fs

theorem leaves [DecidableEq ι] (sound : Sound base kept s) {h : ι} {α : Type} {r : Ran α}
    (leaves : Leaves base kept (s.stakes base) (s.handles h) s.world r.handle r.world) :
    Spared base kept s (s.put h r) := by
  refine sound.put leaves.shelters ?_ leaves.sink ?_ id fun wr mem => ⟨wr, mem, rfl⟩
  · rcases leaves.names with same | ⟨built, _⟩
    · rw [same]
      exact sound.built h
    · exact built
  · intro n stages
    rcases leaves.names with same | ⟨_, idle⟩
    · rw [same] at stages
      exact ⟨h, stages⟩
    · exact absurd stages (Handle.idleStages idle n)

theorem begins [DecidableEq ι] (sound : Sound base kept s) {h : ι} {r : Ran String}
    (begins : Begins base kept (s.stakes base) (s.handles h) s.world r) :
    Spared base kept s (s.put h r) := by
  cases begins with
  | refused error names sink shelters => exact sound.leaves ⟨shelters, Or.inl names, sink⟩
  | opened t ok names sink shelters =>
    refine sound.put shelters ?_ sink ?_ Or.inl fun wr mem => ⟨wr, mem, rfl⟩
    · rw [names]
      exact .writing t
    · intro n stages
      rw [names] at stages
      exact Or.inr (Handle.openStages stages)

theorem streams [DecidableEq ι] (sound : Sound base kept s) {h : ι} {r : Ran Writer}
    (streams : Streams base kept (s.stakes base) (s.handles h) s.world r) :
    Spared base kept s (s.startStream h r) := by
  unfold startStream
  cases streams with
  | refused error names sink shelters =>
    have spared := sound.leaves (r := r) ⟨shelters, Or.inl names, sink⟩
    rw [error, Except.toOption, Option.toList, List.append_nil]
    exact spared
  | unopened t error names sink shelters =>
    rw [error, Except.toOption, Option.toList, List.append_nil]
    refine sound.put shelters ?_ sink ?_ Or.inl fun wr mem => ⟨wr, mem, rfl⟩
    · rw [names]
      exact .writing t
    · intro n stages
      rw [names] at stages
      exact Or.inr (Handle.openStages stages)
  | @opened wr t ok names sink shelters =>
    rw [ok]
    refine sound.put shelters ?_ sink ?_ Or.inl ?_
    · rw [names]
      exact .writing t
    · intro n stages
      rw [names] at stages
      exact Or.inr (Handle.openStages stages)
    · intro wr' mem
      rcases List.mem_append.mp mem with old | new
      · exact Or.inl ⟨wr', old, rfl⟩
      · cases List.mem_singleton.mp new
        exact Or.inr rfl

theorem world (sound : Sound base kept s) {streams : List Writer} {w : World}
    (shelters : Shelters base kept (s.stakes base) s.world.fs w.fs)
    (written : ∀ wr ∈ streams, (s.stakes base).written wr.file.ino) :
    Spared base kept s { s with streams, world := w } := by
  refine ⟨⟨shelters.state.less id ?_, sound.built, sound.quiet⟩, shelters.spares⟩
  rintro j ⟨wr, mem, rfl⟩
  exact written wr mem

theorem edit (sound : Sound base kept s) (h : ι) (e : Edit) :
    Spared base kept s (s.edit h e) := by
  unfold Scene.edit
  split
  · exact .refl sound
  · rename_i temp pending
    refine sound.world (w := s.world.withFs _) ?_ fun wr mem => ⟨wr, mem, rfl⟩
    change Shelters base kept _ s.world.fs (e.perform (Path.ofString temp) s.world.fs)
    rcases e.pours (Path.ofString temp) s.world.fs with same | ⟨j, led, pours⟩
    · rw [same]
      exact .refl sound.sheltered
    · obtain ⟨n, path, stages⟩ := (sound.built h).staged pending
      rw [path] at led
      obtain ⟨d, home, entry⟩ := sound.sheltered.led ⟨h, stages⟩ led
      exact sound.sheltered.poured pours (sound.sheltered.spared home ⟨h, stages⟩ entry)

theorem stream (sound : Sound base kept s) (k : Nat) (call : StreamCall) :
    Spared base kept s (s.stream k call) := by
  unfold Scene.stream
  split
  · exact .refl sound
  · rename_i wr is
    have mem := List.mem_of_getElem? is
    obtain ⟨pours, same⟩ := wr.callPours s.world call
    have shelters := sound.sheltered.poured pours (sound.sheltered.unwritten ⟨wr, mem, rfl⟩)
    refine sound.world shelters ?_
    intro wr' among
    rcases List.mem_append.mp among with among | after
    · rcases List.mem_append.mp among with before | left
      · exact ⟨wr', List.mem_of_mem_take before, rfl⟩
      · exact ⟨wr, mem, (same wr' (Option.mem_toList.mp left)).symm⟩
    · exact ⟨wr', List.mem_of_mem_drop after, rfl⟩

theorem move [DecidableEq ι] (sound : Sound base kept s) (plain : Plain (leafOf base)) {m : Move ι}
    (allowed : s.Allowed m) : Spared base kept s (s.move m) := by
  have sheltered := sound.sheltered
  cases m with
  | startWrite h =>
    exact sound.begins (Handle.startWriteBegins (sound.quiet h) (sound.built h) sheltered)
  | startWriteStream h =>
    exact sound.streams (Handle.startWriteStreams (sound.quiet h) (sound.built h) sheltered)
  | finishWrite h =>
    obtain ⟨uncopied, closed⟩ := allowed
    refine sound.leaves (Handle.finishWriteLeaves (sound.quiet h) plain (sound.built h) sheltered
      (fun stages => ⟨h, stages⟩) uncopied ?_)
    rintro temp j pending ⟨wr, mem, rfl⟩
    exact closed temp pending wr mem
  | failWrite h => exact sound.leaves (Handle.failWriteLeaves (sound.quiet h) (sound.built h) sheltered)
  | delete h => exact sound.leaves (Handle.deleteLeaves (sound.quiet h) sheltered)
  | edit h e => exact sound.edit h e
  | stream k call => exact sound.stream k call
  | others w =>
    have same : w.fs = s.world.fs := allowed
    refine sound.world ?_ fun wr mem => ⟨wr, mem, rfl⟩
    rw [same]
    exact .refl sheltered

theorem run [DecidableEq ι] (sound : Sound base kept s) (plain : Plain (leafOf base)) (run : Run s s') :
    Spared base kept s s' := by
  induction run with
  | refl => exact .refl sound
  | move run m allowed ih => exact ih.trans (ih.sound.move plain allowed)

end Sound

theorem Fresh.sound (fresh : Fresh base s) : Sound base (fun _ => False) s where
  sheltered := {
    tidy := fresh.tidy
    upright := fresh.upright
    names := fun ⟨h, stages⟩ => absurd (fresh.built h ▸ stages) (Handle.liveStages base _)
    bound := fun ⟨wr, mem, _⟩ => by
      rw [fresh.unopened] at mem
      cases mem
    file := fun keep => keep.elim
    unwritten := fun _ keep => keep
    outer := fun _ ⟨h, stages⟩ => absurd (fresh.built h ▸ stages) (Handle.liveStages base _)
    alone := fun _ ⟨h, stages⟩ => absurd (fresh.built h ▸ stages) (Handle.liveStages base _)
    closed := fun _ _ ⟨wr, mem, _⟩ => by
      rw [fresh.unopened] at mem
      cases mem
    spared := fun _ _ _ keep => keep }
  built := fun h => by
    rw [fresh.built h]
    exact .live
  quiet := fresh.quiet

end Scene
end AtomicUpdate
