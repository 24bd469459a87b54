import AtomicUpdate.Proofs.Fs.Likeness
import AtomicUpdate.Proofs.Lock.Exclusion
import AtomicUpdate.Proofs.Staged.Holding

/-! What one handle's lock keeps the others from. As long as its cycle is open, the steps of every other handle
of the base change no file at all, unless that handle deletes; so what has been read in the cycle is what the
commit replaces. -/
namespace AtomicUpdate
open Fs (Likens Minds)

def lockOf (base : String) : Path := LockManager.besideBase (Path.ofString base)

def Call.reads : Call → Bool
  | .getBaseFile => true
  | .readFully => true
  | .openRead => true
  | _ => false

inductive Stir (ι : Type)
  | act (i : ι) (a : Act)
  | read (i : ι) (c : Call)
  | edit (i : ι) (e : Edit)
  | pass (ms : Nat)

def Stir.Calm {ι : Type} (i : ι) : Stir ι → Prop
  | .act _ .delete => False
  | .act j .finish => j ≠ i
  | .act j .fail => j ≠ i
  | .act j .drop => j ≠ i
  | _ => True

namespace Party

def temp? : Party → Option String
  | .handle h => h.names.temp?
  | _ => none

def staged? (party : Party) (fs : Fs) : Option Ino :=
  party.temp?.bind fun temp => (fs.lookup (Path.ofString temp)).toOption

def read (c : Call) (w : World) : Party → World
  | .handle h => (c.perform h w).world
  | _ => w

def edit (e : Edit) (fs : Fs) (party : Party) : Fs :=
  match party.temp? with
  | some temp => e.perform (Path.ofString temp) fs
  | none => fs

def Quiet : Party → Prop
  | .handle h => h.Quiet
  | .opening h _ => h.Quiet
  | _ => True

end Party

namespace Contest
variable {ι : Type} [DecidableEq ι]

def stir (p : Path) (s : Contest ι) : Stir ι → Contest ι
  | .act i a => s.put i ((s.parties i).act p s.world a)
  | .read i c => { s with world := (s.parties i).read c s.world }
  | .edit i e => { s with world := s.world.withFs ((s.parties i).edit e s.world.fs) }
  | .pass ms => { s with world := { s.world with clock := s.world.clock + ms } }

/-- All handles are made for one base and lock the file beside it, and nobody is told of their facts who
changes files. -/
def Allowed (base : String) (s : Contest ι) : Stir ι → Prop
  | .act i a => a.Allowed (lockOf base) (s.parties i) s.world.fs ∧
      ∀ h, a = .make h → h.names = .ofBase base ∧ h.Quiet
  | .read _ c => c.reads = true
  | _ => True

inductive Stirred (p : Path) (may : Contest ι → Stir ι → Prop) : Contest ι → Contest ι → Prop where
  | refl (s) : Stirred p may s s
  | stir {s s'} (before : Stirred p may s s') (t : Stir ι) (allowed : may s' t) :
      Stirred p may s (s'.stir p t)

structure Civil (p : Path) (s : Contest ι) : Prop where
  orderly : s.Orderly p
  quiet : ∀ i, (s.parties i).Quiet

end Contest

theorem Fs.openCreateThere {fs fs' : Fs} {p : Path} {k i : Ino} (led : fs.file? p = some k) {uses : List Access}
    {mode : Nat} (ok : fs.openCreate uses mode p = .ok (i, fs')) : fs' = fs := by
  rcases openCreateExact ok with ⟨same, _⟩ | ⟨_, d, n, s, vacant, _⟩
  · exact same
  · obtain ⟨_, d', n', s', located⟩ := fileExact led
    cases vacant.symm.trans located

theorem LockManager.enterThere {p : Path} {w : World} {k : Ino} (led : w.fs.file? p = some k) :
    (enter p w).2.fs = w.fs := by
  cases begun : enter p w with
  | mk result w' =>
    cases result with
    | error e => rw [(notEntered begun).1]
    | ok x =>
      obtain ⟨fs, made, _, _, rfl⟩ := entered begun
      exact Fs.openCreateThere led made

theorem LockTable.denied {t : LockTable} {k : Ino} {o o' : Owner} (exclusive : t.Exclusive)
    (held : ⟨k, o, .exclusive⟩ ∈ t) (other : o' ≠ o) : (t.request k o' .exclusive).1 = false := by
  have mine : ¬ ⟨k, o', .exclusive⟩ ∈ t := fun theirs => other (exclusive _ theirs _ held rfl rfl)
  have taken : ∃ l ∈ t.release o', conflicts k o' .exclusive l = true :=
    ⟨_, memRelease.mpr ⟨held, fun same => other same.symm⟩, by simp [conflicts, other.symm]⟩
  rw [requested, if_neg mine, if_pos taken]

theorem Wait.pollFs (x : Wait) (timeout : Nat) (w : World) : (x.poll timeout w).2.fs = w.fs := by
  have ended := x.attempted timeout w
  generalize x.poll timeout w = answer at ended
  cases ended <;> rfl

namespace Handle
variable {h : Handle} {w : World}

theorem toldFs {r : Ran String} (quiet : r.handle.Quiet) : (told r).world.fs = r.world.fs :=
  reportedFs quiet _ _ _

theorem pollDenied (quiet : h.Quiet) {x : Wait}
    (denied : (w.locks.request x.file.ino x.file.owner .exclusive).1 = false) :
    ((h.pollWrite x w).turn h).world.fs = w.fs := by
  have ended := x.attempted h.timeout w
  unfold pollWrite
  generalize x.poll h.timeout w = answer at ended
  cases ended with
  | kept granted => cases denied.symm.trans granted
  | paused refused early => rfl
  | late refused late => exact toldFs quiet

theorem beginThere (quiet : h.Quiet) {p : Path} (lock : h.lock = some (.sidecar p)) {k : Ino}
    (led : w.fs.file? p = some k) : ((h.beginWrite w).turn h).world.fs = w.fs := by
  unfold beginWrite
  split
  · rename_i path idle lock'
    cases lock.symm.trans lock'
    have there := LockManager.enterThere led
    generalize LockManager.enter p w = answer at there
    obtain ⟨result, w'⟩ := answer
    cases result with
    | error e => exact (toldFs quiet).trans there
    | ok x => exact there
  · rename_i busy
    cases pending : h.names.temp? with
    | none => exact absurd lock (busy p pending)
    | some temp =>
      refine (startWriteFs quiet w).trans ?_
      rw [openCycle, pending]
      rfl

theorem idleTemp (idle : h.isPending = false) : h.names.temp? = none :=
  Option.isNone_iff_eq_none.mp (Option.isSome_eq_false_iff.mp idle)

theorem finishIdle (quiet : h.Quiet) (idle : h.isPending = false) : (h.finishWrite w).world.fs = w.fs := by
  rw [finishWriteFs quiet, commitCycle, pendingTemp, idleTemp idle]
  rfl

theorem failIdle (quiet : h.Quiet) (idle : h.isPending = false) : (h.failWrite w).world.fs = w.fs := by
  rw [failWriteFs quiet, rollBack, pendingTemp, idleTemp idle]
  rfl

theorem readsWorld (quiet : h.Quiet) {c : Call} (reads : c.reads = true) :
    ∃ owners events, w.owners ≤ owners ∧ (c.perform h w).world = { w with owners, events } := by
  have told : ∀ {α : Type} {w' : World} (looked : w.Looked w') (result : Except Errno α) (path : String)
      (details : Json.Value), ∃ owners events, w.owners ≤ owners ∧
        h.sink.report .read path details result w' = { w with owners, events } := by
    rintro α _ ⟨owners, lines, more, _, rfl⟩ result path details
    obtain ⟨events, after⟩ := reportWorld quiet .read path details result
      { w with owners, events := w.events ++ lines }
    exact ⟨owners, events, more, after⟩
  cases c with
  | getBaseFile => exact told (h.openBaseLooks w) _ _ _
  | readFully => exact told (h.readContentsLooks w) _ _ _
  | openRead => exact told (h.openReaderLooks w) _ _ _
  | _ => cases reads

end Handle

theorem Fs.Alike.file {fs fs' : Fs} (alike : Fs.Alike fs fs') (p : Path) : fs'.file? p = fs.file? p := by
  unfold Fs.file?
  simp only [alike.locate, alike.isDir]

theorem Edit.unmoved (e : Edit) {p : Path} {fs : Fs} {j : Ino} (led : fs.lookup p = .ok j)
    (other : ∀ b m, fs.node? j ≠ some (.file b m)) : e.perform p fs = fs := by
  unfold perform
  rw [led]
  cases e with
  | clear =>
    change fs.truncate j = fs
    unfold Fs.truncate
    split
    · rename_i node is
      cases node with
      | file b m => exact absurd is (other b m)
      | _ => exact Fs.replaceSame is
    · rfl
  | put pos data =>
    dsimp only
    unfold Fs.writeAt
    split
    · rename_i wrote
      split at wrote
      · rename_i is
        exact absurd is (other _ _)
      · exact (Except.ok.inj wrote).symm
      · split at wrote
        · exact (Except.ok.inj wrote).symm
        · cases wrote
      · cases wrote
    · rfl

theorem Edit.worded (e : Edit) (p : Path) (fs : Fs) :
    Fs.Worded (fs.lookup p).toOption fs (e.perform p fs) := by
  cases led : fs.lookup p with
  | error cause =>
    have same : e.perform p fs = fs := by rw [perform, led]
    rw [same]
    exact .refl _ fs
  | ok j =>
    by_cases file : ∃ b m, fs.node? j = some (.file b m)
    · obtain ⟨b, m, file⟩ := file
      obtain ⟨m', only, after, rights⟩ := e.performed led file
      refine ⟨⟨only.alike file after, fun i a => ?_⟩, only.size, fun k other => only.others k ?_⟩
      · by_cases here : i = j
        · rw [here, Fs.permits, Fs.permits, file, after]
          exact rights _ _ a
        · rw [Fs.permits, Fs.permits, only.others i here]
      · rintro rfl
        exact other rfl
    · rw [e.unmoved led fun b m is => file ⟨b, m, is⟩]
      exact .refl _ fs

namespace Party

theorem Quiet.readWorld {party : Party} {w : World} (quiet : party.Quiet) {c : Call} (reads : c.reads = true) :
    ∃ owners events, w.owners ≤ owners ∧ party.read c w = { w with owners, events } := by
  cases party with
  | handle h => exact Handle.readsWorld quiet reads
  | _ => exact ⟨w.owners, w.events, Nat.le_refl _, rfl⟩

theorem editWorded (e : Edit) (fs : Fs) (party : Party) : Fs.Worded (party.staged? fs) fs (party.edit e fs) := by
  unfold edit staged?
  cases party.temp? with
  | none => exact .refl _ fs
  | some temp => exact e.worded (Path.ofString temp) fs

end Party

namespace Contest
variable {ι : Type} {p : Path} {s : Contest ι} {i : ι}

theorem Civil.spares (civil : s.Civil p) (inside : (s.parties i).Inside) {j : ι} (other : j ≠ i) {a : Act}
    (kept : a ≠ .delete) : ((s.parties j).act p s.world a).world.fs = s.world.fs := by
  obtain ⟨o, mine, k, led, held⟩ := insideLocked (civil.orderly.each i) inside
  have outside : ¬ (s.parties j).Inside := fun theirs => other (civil.orderly.alone theirs inside)
  have apart : (s.parties j).owner? ≠ some o := fun theirs => other (civil.orderly.distinct theirs mine)
  have orderly := civil.orderly.each j
  have quiet := civil.quiet j
  generalize s.parties j = party at outside apart orderly quiet
  cases party with
  | absent =>
    cases a with
    | ask timeout =>
      have there := LockManager.enterThere led
      rw [Party.act]
      generalize LockManager.enter p s.world = answer at there
      obtain ⟨result, w'⟩ := answer
      cases result <;> exact there
    | _ => rfl
  | holding g => exact absurd trivial outside
  | asking timeout x =>
    cases a with
    | poll =>
      have same := x.pollFs timeout s.world
      rw [Party.act]
      generalize x.poll timeout s.world = answer at same
      obtain ⟨result, w'⟩ := answer
      cases result with
      | none => exact same
      | some result => cases result <;> exact same
    | _ => rfl
  | opening h x =>
    cases a with
    | poll =>
      have led' := orderly.2.2.2.2
      cases led'.symm.trans led
      exact Handle.pollDenied quiet
        (LockTable.denied civil.orderly.exclusive held fun same => apart (congrArg some same))
    | _ => rfl
  | handle h =>
    have idle : h.isPending = false := by simpa [Party.Inside] using outside
    cases a with
    | start => exact Handle.beginThere quiet orderly.1 led
    | finish => exact Handle.finishIdle quiet idle
    | fail => exact Handle.failIdle quiet idle
    | delete => exact absurd rfl kept
    | drop => exact (h.releaseGuardRest s.world).1
    | make => rfl
    | ask => rfl
    | poll => rfl

theorem Civil.actQuiet (civil : s.Civil p) (i : ι) {a : Act} (made : ∀ h, a = .make h → h.Quiet)
    (allowed : a.Allowed p (s.parties i) s.world.fs) : ((s.parties i).act p s.world a).party.Quiet := by
  have orderly := civil.orderly.each i
  have quiet := civil.quiet i
  generalize s.parties i = party at orderly quiet allowed
  cases party with
  | absent =>
    cases a with
    | make h => exact made h rfl
    | ask timeout =>
      rw [Party.act]
      split <;> trivial
    | _ => trivial
  | holding g => cases a <;> trivial
  | asking timeout x =>
    cases a with
    | poll =>
      rw [Party.act]
      split <;> trivial
    | _ => trivial
  | opening h x =>
    cases a with
    | poll =>
      change ((h.pollWrite x s.world).turn h).party.Quiet
      cases polled : h.pollWrite x s.world with
      | waiting => exact quiet
      | ended r =>
        exact quiet.same (Handle.pollEnds civil.orderly.tidy orderly.2.1 polled).2.2.1
    | _ => exact quiet
  | handle h =>
    cases a with
    | start =>
      change ((h.beginWrite s.world).turn h).party.Quiet
      cases begun : h.beginWrite s.world with
      | waiting => exact quiet
      | ended r =>
        exact quiet.same (Handle.beginEnds orderly.1 civil.orderly.tidy orderly.2.1 begun).1.sink
    | finish => exact quiet.same (h.commitCycleSink s.world)
    | fail => exact quiet.same (h.rollBackSink s.world)
    | delete => exact quiet.same (h.retireSink s.world)
    | drop => trivial
    | make => exact quiet
    | ask => exact quiet
    | poll => exact quiet

theorem Civil.others (civil : s.Civil p) {w : World} (tidy : w.fs.Tidy)
    (leads : ∀ {k}, s.world.fs.file? p = some k → w.fs.file? p = some k)
    (locks : w.locks = s.world.locks) (owners : s.world.owners ≤ w.owners) :
    Civil p { s with world := w } where
  orderly := civil.orderly.others {
    tidy := tidy
    sidecar := leads
    exclusive := locks.symm ▸ civil.orderly.exclusive
    theirs := fun _ _ _ mem => locks.symm ▸ mem
    owners := owners }
  quiet := civil.quiet

theorem Civil.stir [DecidableEq ι] {base : String} (civil : s.Civil (lockOf base)) {t : Stir ι}
    (allowed : s.Allowed base t) : (s.stir (lockOf base) t).Civil (lockOf base) := by
  cases t with
  | act i a =>
    obtain ⟨fit, made⟩ := allowed
    refine ⟨civil.orderly.put (actProper civil.orderly i a fit), fun j => ?_⟩
    have after := civil.actQuiet i (fun h is => (made h is).2) fit
    by_cases same : j = i
    · subst same
      simpa [Contest.stir, put] using after
    · simpa [Contest.stir, put, same] using civil.quiet j
  | read i c =>
    obtain ⟨owners, events, more, after⟩ := (civil.quiet i).readWorld (w := s.world) allowed
    change Civil (lockOf base) { s with world := (s.parties i).read c s.world }
    rw [after]
    exact civil.others civil.orderly.tidy id rfl more
  | edit i e =>
    have worded := (s.parties i).editWorded e s.world.fs
    exact civil.others (worded.likens.alike.tidy (Nat.le_of_eq worded.size.symm) civil.orderly.tidy)
      (fun led => (worded.likens.alike.file _).trans led) rfl (Nat.le_refl _)
  | pass ms => exact civil.others civil.orderly.tidy id rfl (Nat.le_refl _)

theorem Civil.stirred [DecidableEq ι] {base : String} {s' : Contest ι} (civil : s.Civil (lockOf base))
    {may : Contest ι → Stir ι → Prop} (keeps : ∀ {u t}, may u t → u.Allowed base t)
    (run : Stirred (lockOf base) may s s') : s'.Civil (lockOf base) := by
  induction run with
  | refl => exact civil
  | stir _ t allowed ih => exact ih.stir (keeps allowed)

theorem Vacant.civil [DecidableEq ι] (vacant : s.Vacant) : s.Civil p where
  orderly := orderlyRun vacant (.refl s)
  quiet := fun i => by rw [vacant.absent i]; trivial

end Contest
end AtomicUpdate
