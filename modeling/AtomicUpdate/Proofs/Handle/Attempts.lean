import AtomicUpdate.Proofs.Handle.Deletion

/-! What comes of each of the two targets of a delete. A target fails where it cannot be looked up, for any
reason but that there is nothing, and where it is there and stays. The second is tried whatever has come of the
first; and once what failed is gone by other hands, the delete can be had again. -/
namespace AtomicUpdate
open Fs (Lacking Thins)

namespace Files
variable {fs fs' : Fs} {p : Path} {e : Errno}

def sought (fs : Fs) (p : Path) : Except Errno Ino := do
  Path.forbidNul .unknown p
  fs.lookupEntry p

def Lost (fs : Fs) (p : Path) : Prop := ∃ e, sought fs p = .error e ∧ Lacking e

inductive Fails (fs : Fs) (p : Path) (e : Errno) : Prop where
  | unseen (refused : sought fs p = .error e) (other : ¬ Lacking e) : Fails fs p e
  | stuck {i : Ino} (found : sought fs p = .ok i) (refused : remove fs p = .error e) : Fails fs p e

inductive Tried (fs : Fs) (p : Path) : Except Errno Unit → Fs → Prop where
  | failed {e : Errno} (fails : Fails fs p e) : Tried fs p (.error e) fs
  | absent (lost : Lost fs p) : Tried fs p (.ok ()) fs
  | removed {i : Ino} {fs' : Fs} (found : sought fs p = .ok i) (removed : remove fs p = .ok fs') :
      Tried fs p (.ok ()) fs'

theorem Fails.unique {e' : Errno} (fails : Fails fs p e) (fails' : Fails fs p e') : e = e' := by
  cases fails with
  | unseen refused other =>
    cases fails' with
    | unseen refused' other' => exact Except.error.inj (refused.symm.trans refused')
    | stuck found' refused' => cases refused.symm.trans found'
  | stuck found refused =>
    cases fails' with
    | unseen refused' other' => cases found.symm.trans refused'
    | stuck found' refused' => exact Except.error.inj (refused.symm.trans refused')

theorem soughtEntry (noNul : 0 ∉ p) : sought fs p = fs.lookupEntry p := by
  rw [sought, Path.forbidNone _ noNul]
  rfl

theorem lostExact : Lost fs p ↔ 0 ∉ p ∧ fs.Absent p := by
  constructor
  · rintro ⟨e, refused, lacking⟩
    have noNul : 0 ∉ p := by
      intro nul
      rw [sought, Path.forbidNul, if_pos (by simpa using nul)] at refused
      cases refused
      rcases lacking with wrong | wrong <;> cases wrong
    rw [soughtEntry noNul] at refused
    exact ⟨noNul, e, refused, lacking⟩
  · rintro ⟨noNul, e, failed, lacking⟩
    exact ⟨e, (soughtEntry noNul).trans failed, lacking⟩

theorem Lost.later (lost : Lost fs p) (thins : Thins fs fs') : Lost fs' p := by
  obtain ⟨noNul, absent⟩ := lostExact.mp lost
  exact lostExact.mpr ⟨noNul, thins.absent absent⟩

theorem Lost.notFails (lost : Lost fs p) : ¬ Fails fs p e := by
  obtain ⟨e', refused, lacking⟩ := lost
  rintro (⟨refused', other⟩ | ⟨found, _⟩)
  · cases refused.symm.trans refused'
    exact other lacking
  · cases refused.symm.trans found

theorem removeDone (removed : remove fs p = .ok fs') : Thins fs fs' ∧ Lost fs' p := by
  obtain ⟨_, clean, unlinked⟩ := bindOk removed
  obtain ⟨d, n, i, there, _, rfl⟩ := Fs.unlinkExact unlinked
  exact ⟨.erase fs d n, lostExact.mpr ⟨Path.noneForbidden clean, Fs.erasedAbsent (Fs.locateAtSlash there)⟩⟩

theorem presentSought (fs : Fs) (p : Path) : isPresent fs p = match sought fs p with
    | .ok _ => .ok true
    | .error e => if e = .enoent ∨ e = .enotdir then .ok false else .error e := by
  by_cases nul : 0 ∈ p
  · have forbidden : Path.forbidNul Errno.unknown p = .error .unknown := if_pos (by simpa using nul)
    have other : ¬ (Errno.unknown = .enoent ∨ Errno.unknown = .enotdir) := by decide
    simp [isPresent, sought, forbidden, bind, Except.bind, other]
  · have allowed := Path.forbidNone Errno.unknown nul
    cases found : fs.lookupEntry p <;> simp [isPresent, sought, allowed, found, bind, Except.bind]

namespace Tried
variable {r : Except Errno Unit}

theorem fails (tried : Tried fs p r fs') (e : Errno) : r = .error e ↔ Fails fs p e := by
  cases tried with
  | failed fails =>
    refine ⟨fun same => ?_, fun fails' => congrArg Except.error (fails.unique fails')⟩
    cases same
    exact fails
  | absent lost => exact ⟨nofun, fun fails => absurd fails lost.notFails⟩
  | removed found removed =>
    refine ⟨nofun, ?_⟩
    rintro (⟨refused, _⟩ | ⟨_, refused⟩)
    · cases found.symm.trans refused
    · cases removed.symm.trans refused

theorem thins (tried : Tried fs p r fs') : Thins fs fs' := by
  cases tried with
  | failed fails => exact .refl fs
  | absent lost => exact .refl fs
  | removed found removed => exact (removeDone removed).1

theorem gone (tried : Tried fs p r fs') (done : r = .ok ()) : Lost fs' p := by
  cases tried with
  | failed fails => cases done
  | absent lost => exact lost
  | removed found removed => exact (removeDone removed).2

theorem lost (tried : Tried fs p r fs') (lost : Lost fs p) : r = .ok () := by
  cases tried with
  | failed fails => exact absurd fails lost.notFails
  | absent lost => rfl
  | removed found removed => rfl

end Tried

def Mended (fs : Fs) (p : Path) (r : Except Errno Unit) (fs' : Fs) : Prop :=
  match r with
  | .error _ => Lost fs' p
  | .ok () => sought fs' p = sought fs p

theorem Mended.lost {r : Except Errno Unit} (mended : Mended fs p r fs') (gone : r = .ok () → Lost fs p) :
    Lost fs' p := by
  cases r with
  | error e => exact mended
  | ok done =>
    obtain ⟨e, refused, lacking⟩ := gone rfl
    exact ⟨e, Eq.trans mended refused, lacking⟩

end Files

namespace Handle
open Files (Tried Lost Fails Mended)

variable {h : Handle} {w : World}

theorem removeTargetTried (target : String) (w : World) :
    Tried w.fs (Path.ofString target) (removeTarget target w).1 (removeTarget target w).2.fs := by
  have present := Files.presentSought w.fs (Path.ofString target)
  cases found : Files.sought w.fs (Path.ofString target) with
  | error e =>
    rw [found] at present
    dsimp only at present
    by_cases lacking : Lacking e
    · rw [removeTargetAbsent (present.trans (if_pos lacking))]
      exact .absent ⟨e, found, lacking⟩
    · unfold removeTarget
      dsimp only
      rw [present.trans (if_neg lacking)]
      exact .failed (.unseen found lacking)
  | ok i =>
    rw [found] at present
    rw [removeTargetPresent present]
    cases removed : Files.remove w.fs (Path.ofString target) with
    | ok fs => exact .removed found removed
    | error e => exact .failed (.stuck found removed)

structure Attempted (h : Handle) (w : World) (first second : Except Errno Unit) (fs₁ fs₂ : Fs) (r : Ran Unit) :
    Prop where
  staging : Tried w.fs h.names.stagingPath first fs₁
  base : Tried fs₁ h.names.basePath second fs₂
  told : h.Told fs₂ r.world.fs
  fails : (∀ e, first = .error e ↔ Fails w.fs h.names.stagingPath e) ∧
    ∀ e, second = .error e ↔ Fails fs₁ h.names.basePath e
  succeeds : r.result = .ok () ↔ first = .ok () ∧ second = .ok ()
  reports : ∀ e, r.result = .error e ↔ second = .error e ∨ second = .ok () ∧ first = .error e
  gone : (first = .ok () → Lost fs₂ h.names.stagingPath) ∧ (second = .ok () → Lost fs₂ h.names.basePath)
  retired : r.result = .ok () → r.handle = { h with names := .retired, guard := none } ∧
    r.world.locks = (h.releaseGuard w).locks
  kept : ∀ e, r.result = .error e → r.handle = h ∧ r.world.locks = w.locks

theorem lastFailureExact (first second : Except Errno Unit) :
    (lastFailure first second = .ok () ↔ first = .ok () ∧ second = .ok ()) ∧
      ∀ e, lastFailure first second = .error e ↔ second = .error e ∨ second = .ok () ∧ first = .error e := by
  rcases first with e₁ | ⟨⟩ <;> rcases second with e₂ | ⟨⟩ <;> simp [lastFailure]

theorem retireResult (h : Handle) (w : World) : (h.retire w).result =
    lastFailure (removeTarget h.names.staging w).1
      (removeTarget h.names.base (removeTarget h.names.staging w).2).1 := by
  have ended := h.retiring w
  generalize h.retire w = r at ended
  cases ended with
  | kept first second failure => rw [first, second, failure]
  | retired first second => rw [first, second]; rfl

theorem deleteLocks (h : Handle) (w : World) : (h.delete w).world.locks = (h.retire w).world.locks :=
  (reportTold (h.retireSink w) _ _ _ _ _).1

theorem deleteRetired (done : (h.delete w).result = .ok ()) :
    (h.delete w).handle = { h with names := .retired, guard := none } ∧
      (h.delete w).world.locks = (h.releaseGuard w).locks := by
  rw [h.deleteLocks w]
  change (h.retire w).result = .ok () at done
  change (h.retire w).handle = _ ∧ _
  have ended := h.retiring w
  generalize h.retire w = r at ended done
  cases ended with
  | kept first second failure => cases done
  | @retired w₁ w₂ first second =>
    have one := removeTargetAside h.names.staging w
    have two := removeTargetAside h.names.base w₁
    rw [first] at one
    rw [second] at two
    exact ⟨rfl, releaseGuardLocks h (one.trans two).locks⟩

theorem deleteKept {e : Errno} (failed : (h.delete w).result = .error e) :
    (h.delete w).handle = h ∧ (h.delete w).world.locks = w.locks := by
  have undone := deleteUndone failed
  generalize (h.delete w).handle = h' at undone
  cases undone with
  | unstarted starts => cases starts
  | undeleted locks => exact ⟨rfl, locks⟩
  | unread reads => rcases reads with wrong | wrong | wrong <;> cases wrong

theorem deleteTried (h : Handle) (w : World) :
    ∃ first second fs₁ fs₂, Attempted h w first second fs₁ fs₂ (h.delete w) := by
  have staging := removeTargetTried h.names.staging w
  have base := removeTargetTried h.names.base (removeTarget h.names.staging w).2
  have result : (h.delete w).result = _ := h.retireResult w
  have told := h.deleteTold w
  rw [retireFs] at told
  obtain ⟨succeeds, reports⟩ := lastFailureExact (removeTarget h.names.staging w).1
    (removeTarget h.names.base (removeTarget h.names.staging w).2).1
  rw [← result] at succeeds reports
  exact ⟨_, _, _, _, {
    staging, base, told, succeeds, reports
    fails := ⟨staging.fails, base.fails⟩
    gone := ⟨fun done => (staging.gone done).later base.thins, base.gone⟩
    retired := deleteRetired
    kept := fun _ => deleteKept }⟩

theorem deleteLost (staging : Lost w.fs h.names.stagingPath) (base : Lost w.fs h.names.basePath) :
    (h.delete w).result = .ok () := by
  obtain ⟨first, second, fs₁, fs₂, attempted⟩ := h.deleteTried w
  exact attempted.succeeds.mpr ⟨attempted.staging.lost staging,
    attempted.base.lost (base.later attempted.staging.thins)⟩

/-- However a delete ends, both targets have been tried, and it has done what the two attempts tell. One that has
failed succeeds when it is made again after what had failed is gone. -/
theorem deleteAttempts (h : Handle) (w : World) : ∃ first second fs₁ fs₂,
    Attempted h w first second fs₁ fs₂ (h.delete w) ∧
      ∀ e, (h.delete w).result = .error e → ∀ w' : World,
        Mended fs₂ h.names.stagingPath first w'.fs → Mended fs₂ h.names.basePath second w'.fs →
          ((h.delete w).handle.delete w').result = .ok () := by
  obtain ⟨first, second, fs₁, fs₂, attempted⟩ := h.deleteTried w
  refine ⟨first, second, fs₁, fs₂, attempted, fun e failed w' mended mended' => ?_⟩
  rw [(attempted.kept e failed).1]
  exact deleteLost (mended.lost attempted.gone.1) (mended'.lost attempted.gone.2)

def obstructed : Fs where
  nodes := #[.dir ⟨[(Path.ofString "f", 1), (Path.ofString "f_XXXXXX", 2)]⟩ 0 0o755, .dir .empty 0 0o755,
    .link (Path.ofString "x")]
  root := 0
  cwd := 0

theorem deleteRepeated :
    let h := Handle.ofBase "f"
    let failed := h.delete { fs := obstructed }
    let later : World := { failed.world with fs := failed.world.fs.updateDir 0 (·.erase (Path.ofString "f")) }
    failed.result = .error .eisdir ∧ Lost failed.world.fs h.names.stagingPath ∧
      (failed.handle.delete later).result = .ok () := by
  intro h failed later
  have refused : failed.result = .error .eisdir := by decide +kernel
  have kept : Files.sought failed.world.fs h.names.basePath = .ok 1 := by decide +kernel
  have untouched : Files.sought later.fs h.names.stagingPath = Files.sought failed.world.fs h.names.stagingPath := by
    decide +kernel
  have staging : Lost later.fs h.names.stagingPath := ⟨.enoent, by decide +kernel, Or.inl rfl⟩
  have base : Lost later.fs h.names.basePath := ⟨.enoent, by decide +kernel, Or.inl rfl⟩
  obtain ⟨first, second, fs₁, fs₂, attempted, again⟩ := h.deleteAttempts { fs := obstructed }
  have files : fs₂ = failed.world.fs := by
    rcases attempted.told with same | ⟨_, same⟩ <;> exact same.symm
  subst files
  refine ⟨refused, ⟨.enoent, by decide +kernel, Or.inl rfl⟩, again .eisdir refused later ?_ ?_⟩
  · cases first with
    | error e => exact staging
    | ok done => exact untouched
  · cases second with
    | error e => exact base
    | ok done =>
      obtain ⟨_, lost, _⟩ := attempted.gone.2 rfl
      cases kept.symm.trans lost

end Handle
end AtomicUpdate
