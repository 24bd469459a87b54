import AtomicUpdate.Proofs.Handle.Outcome

/-! Starting a write as a series of steps between which others act. First the lock file is opened; then
every step is one attempt at its lock, and the attempt that ends the waiting opens the cycle as well or
gives up. Taken one after the other with a pause between two, these steps are the whole operation. -/
namespace AtomicUpdate

structure Wait where
  path : Path
  file : OpenFile
  since : Nat
  deriving DecidableEq, Repr

namespace LockManager

def enter (path : Path) (w : World) : Except Errno Wait × World :=
  match Path.forbidNul .unknown path with
  | .error e => (.error e, w)
  | .ok () =>
    match w.fs.openCreate [.read, .write] 0o644 path with
    | .error e => (.error e, w)
    | .ok (i, fs) =>
        let (file, w) := (w.withFs fs).openNode i
        (.ok ⟨path, file, w.clock⟩, w)

end LockManager

namespace Wait
open LockManager (polling)

def poll (x : Wait) (timeout : Nat) (w : World) : Option (Except Errno Guard) × World :=
  let (attempt, w) := (polling x.file x.since).attempt w
  match attempt.verdict (w.clock - x.since) timeout with
  | .keep => (some (.ok (.sidecar x.file.owner)), w)
  | .pause => (none, w)
  | .timeUp => (some (.error .eagain),
      (w.logWarn s!"timeout acquiring write lock {x.path.display}").close x.file)
  | .giveUp e => (some (.error e),
      (w.logError s!"flock failed on {x.path.display}: {e.systemText}").close x.file)

inductive Polled (x : Wait) (timeout : Nat) : World → Except Errno Guard × World → Prop where
  | last {w w' g} (ends : x.poll timeout w = (some g, w')) : Polled x timeout w (g, w')
  | again {w w' r} (waits : x.poll timeout w = (none, w'))
      (more : Polled x timeout (w'.wait Limits.lockPoll) r) : Polled x timeout w r

inductive Attempted (x : Wait) (timeout : Nat) (w : World) (locks : LockTable) :
    Option (Except Errno Guard) × World → Prop where
  | kept (granted : (w.locks.request x.file.ino x.file.owner .exclusive).1 = true) :
      Attempted x timeout w locks (some (.ok (.sidecar x.file.owner)), { w with locks })
  | paused (refused : (w.locks.request x.file.ino x.file.owner .exclusive).1 = false)
      (early : w.clock - x.since < timeout) : Attempted x timeout w locks (none, { w with locks })
  | late (refused : (w.locks.request x.file.ino x.file.owner .exclusive).1 = false)
      (late : timeout ≤ w.clock - x.since) :
      Attempted x timeout w locks (some (.error .eagain),
        (({ w with locks } : World).logWarn
          s!"timeout acquiring write lock {x.path.display}").close x.file)

theorem attempted (x : Wait) (timeout : Nat) (w : World) :
    Attempted x timeout w (w.locks.request x.file.ino x.file.owner .exclusive).2 (x.poll timeout w) := by
  unfold poll polling
  dsimp only
  cases asked : (w.locks.request x.file.ino x.file.owner .exclusive).1 with
  | true => exact .kept asked
  | false =>
    rw [if_neg Bool.false_ne_true]
    dsimp only [Attempt.verdict]
    by_cases late : timeout ≤ w.clock - x.since
    · rw [if_pos late]
      exact .late asked late
    · rw [if_neg late]
      exact .paused asked (Nat.lt_of_not_le late)

end Wait

namespace World

theorem waitClock (w : World) (ms : Nat) : (w.wait ms).clock = w.clock + ms := by
  have kept : ∀ (guards : List Guard) (w : World), (w.releaseAll guards).clock = w.clock := by
    intro guards
    induction guards with
    | nil => exact fun _ => rfl
    | cons g rest ih =>
      intro w
      rw [releaseAll, List.foldl_cons]
      refine (ih (w.release g)).trans ?_
      cases g <;> rfl
  unfold wait
  dsimp only
  rw [kept]

theorem releaseAllFs (guards : List Guard) (w : World) : (w.releaseAll guards).fs = w.fs := by
  induction guards generalizing w with
  | nil => rfl
  | cons g rest ih =>
    rw [releaseAll, List.foldl_cons]
    refine (ih (w.release g)).trans ?_
    cases g <;> rfl

end World

theorem Wait.Polled.fs {x : Wait} {timeout : Nat} {w : World} {r : Except Errno Guard × World}
    (polled : x.Polled timeout w r) : r.2.fs = w.fs := by
  induction polled with
  | @last w w' g ends =>
    have ended := x.attempted timeout w
    rw [ends] at ended
    cases ended <;> rfl
  | @again w w' r waits more ih =>
    have ended := x.attempted timeout w
    rw [waits] at ended
    cases ended
    exact ih.trans (World.releaseAllFs _ _)

namespace LockManager
open Wait (Polled)

def awaited (x : Wait) (timeout bound : Nat) (w : World) : Except Errno Guard × World :=
  match (polling x.file x.since).run timeout bound w with
  | (.keep, w) => (.ok (.sidecar x.file.owner), w)
  | (.giveUp e, w) =>
      (.error e, (w.logError s!"flock failed on {x.path.display}: {e.systemText}").close x.file)
  | (_, w) => (.error .eagain,
      (w.logWarn s!"timeout acquiring write lock {x.path.display}").close x.file)

theorem acquireEnters (path : Path) (timeout : Nat) (w : World) :
    acquireSidecar path timeout w =
      match enter path w with
      | (.error e, w) => (.error e, w)
      | (.ok x, w) => awaited x timeout (Waiting.bound timeout) w := by
  unfold acquireSidecar enter
  cases Path.forbidNul Errno.unknown path with
  | error e => rfl
  | ok u =>
    dsimp only
    cases w.fs.openCreate [.read, .write] 0o644 path with
    | error e => rfl
    | ok made => rfl

theorem awaitedStep (x : Wait) (timeout bound : Nat) (w : World) :
    awaited x timeout (bound + 1) w =
      match x.poll timeout w with
      | (some g, w') => (g, w')
      | (none, w') => awaited x timeout bound (w'.wait Limits.lockPoll) := by
  have ended := x.attempted timeout w
  generalize x.poll timeout w = answer at ended
  rw [awaited, Waiting.run, polling]
  dsimp only
  cases ended with
  | kept granted =>
    rw [granted, if_pos rfl]
    rfl
  | late refused late =>
    rw [refused, if_neg Bool.false_ne_true]
    dsimp only [Attempt.verdict]
    rw [if_pos late]
  | paused refused early =>
    rw [refused, if_neg Bool.false_ne_true]
    dsimp only [Attempt.verdict]
    rw [if_neg (Nat.not_le.mpr early)]
    rfl

theorem awaitedPolls {x : Wait} {timeout bound : Nat} {w : World} (began : x.since ≤ w.clock)
    (enough : timeout ≤ (w.clock - x.since) + bound * Limits.lockPoll) :
    Polled x timeout w (awaited x timeout (bound + 1) w) := by
  induction bound generalizing w with
  | zero =>
    rw [awaitedStep]
    have ended := x.attempted timeout w
    generalize asked : x.poll timeout w = answer at ended
    cases ended with
    | kept granted => exact .last asked
    | late refused late => exact .last asked
    | paused refused early => omega
  | succ bound ih =>
    rw [awaitedStep]
    have ended := x.attempted timeout w
    generalize asked : x.poll timeout w = answer at ended
    cases ended with
    | kept granted => exact .last asked
    | late refused late => exact .last asked
    | paused refused early =>
      refine .again asked (ih ?_ ?_)
      · rw [World.waitClock]
        dsimp only
        omega
      · rw [World.waitClock]
        rw [Nat.succ_mul] at enough
        dsimp only
        omega

theorem entered {path : Path} {w w' : World} {x : Wait} (ok : enter path w = (.ok x, w')) :
    ∃ fs, w.fs.openCreate [.read, .write] 0o644 path = .ok (x.file.ino, fs) ∧
      x.file.owner = w.owners ∧ x.since = w.clock ∧
      w' = { w with fs, owners := w.owners + 1 } := by
  unfold enter at ok
  split at ok
  · cases ok
  split at ok
  · cases ok
  · rename_i made
    cases ok
    exact ⟨_, made, rfl, rfl, rfl⟩

theorem notEntered {path : Path} {w w' : World} {e : Errno} (failed : enter path w = (.error e, w')) :
    w' = w ∧ (e = .unknown ∨ w.fs.openCreate [.read, .write] 0o644 path = .error e) := by
  unfold enter at failed
  split at failed
  · rename_i nul
    cases failed
    rw [Path.forbidNul] at nul
    split at nul
    · cases nul
      exact ⟨rfl, Or.inl rfl⟩
    · cases nul
  split at failed
  · rename_i refused
    cases failed
    exact ⟨rfl, Or.inr refused⟩
  · cases failed

theorem acquirePolls (path : Path) (timeout : Nat) (w : World) :
    (∃ e w', enter path w = (.error e, w') ∧ acquireSidecar path timeout w = (.error e, w')) ∨
      ∃ x w', enter path w = (.ok x, w') ∧ Polled x timeout w' (acquireSidecar path timeout w) := by
  rw [acquireEnters]
  cases begun : enter path w with
  | mk result w' =>
    cases result with
    | error e => exact Or.inl ⟨e, w', rfl, rfl⟩
    | ok x =>
      obtain ⟨fs, _, _, since, rfl⟩ := entered begun
      refine Or.inr ⟨x, _, rfl, awaitedPolls (Nat.le_of_eq since) ?_⟩
      have pause : Limits.lockPoll = 25 := rfl
      rw [since, pause]
      omega

end LockManager

inductive Progress
  | waiting (x : Wait) (w : World)
  | ended (r : Ran String)

namespace Handle
open LockManager (enter)

def timeout (h : Handle) : Nat := h.policy.locking.timeoutMs.toNat

def told (r : Ran String) : Ran String :=
  r.reported .startWrite r.handle.names.base (match r.result with
    | .ok temp => .object [("temp_path", .string temp)]
    | .error _ => r.handle.tempDetail)

def proceed (h : Handle) (g : Guard) (w : World) : Ran String :=
  match h.createTemp w with
  | (.error e, w) => ⟨.error e, h, w.release g⟩
  | (.ok temp, w) => ⟨.ok temp, { h with names := h.names.openWith temp, guard := some g }, w⟩

def beginWrite (h : Handle) (w : World) : Progress :=
  match h.names.temp?, h.lock with
  | none, some (.sidecar path) =>
      match enter path w with
      | (.error e, w) => .ended (told ⟨.error e, h, w⟩)
      | (.ok x, w) => .waiting x w
  | _, _ => .ended (h.startWrite w)

def settle (h : Handle) : Except Errno Guard → World → Ran String
  | .error e, w => ⟨.error e, h, w⟩
  | .ok g, w => h.proceed g w

def pollWrite (h : Handle) (x : Wait) (w : World) : Progress :=
  match x.poll h.timeout w with
  | (none, w) => .waiting x w
  | (some answer, w) => .ended (told (h.settle answer w))

inductive Polled (h : Handle) (x : Wait) : World → Ran String → Prop where
  | last {w r} (ends : h.pollWrite x w = .ended r) : Polled h x w r
  | again {w w' r} (waits : h.pollWrite x w = .waiting x w')
      (more : Polled h x (w'.wait Limits.lockPoll) r) : Polled h x w r

theorem polledWrite {h : Handle} {x : Wait} {w : World} {r : Except Errno Guard × World}
    (polled : x.Polled h.timeout w r) : h.Polled x w (told (h.settle r.1 r.2)) := by
  induction polled with
  | last ends => exact .last (by rw [pollWrite, ends])
  | again waits more ih => exact .again (by rw [pollWrite, waits]) ih

theorem openSidecar {h : Handle} {path : Path} (idle : h.names.temp? = none)
    (lock : h.lock = some (.sidecar path)) (w : World) :
    h.openCycle w = h.settle (LockManager.acquireSidecar path h.timeout w).1
      (LockManager.acquireSidecar path h.timeout w).2 := by
  have same : ({ h with lock := some (.sidecar path) } : Handle) = h := by rw [← lock]
  unfold openCycle takeGuard timeout
  rw [idle, lock]
  dsimp only [LockManager.acquire]
  rw [same]
  rcases LockManager.acquireSidecar path h.policy.locking.timeoutMs.toNat w with ⟨locked, w₁⟩
  cases locked with
  | error e => rfl
  | ok g =>
    dsimp only [Except.map, settle]
    unfold proceed
    rcases h.createTemp w₁ with ⟨made, w₂⟩
    cases made with
    | error e => rfl
    | ok temp =>
      dsimp only
      rw [lock]

theorem startWriteSteps (h : Handle) (w : World) :
    h.beginWrite w = .ended (h.startWrite w) ∨
      ∃ x w', h.beginWrite w = .waiting x w' ∧ h.Polled x w' (h.startWrite w) := by
  unfold beginWrite
  split
  · rename_i path idle lock
    have whole : h.startWrite w = told (h.settle (LockManager.acquireSidecar path h.timeout w).1
        (LockManager.acquireSidecar path h.timeout w).2) := by
      rw [← openSidecar idle lock]
      rfl
    rcases LockManager.acquirePolls path h.timeout w with ⟨e, w', begun, ends⟩ | ⟨x, w', begun, polled⟩
    · rw [begun, whole, ends]
      exact Or.inl rfl
    · rw [begun, whole]
      exact Or.inr ⟨x, w', rfl, polledWrite polled⟩
  · exact Or.inl rfl

end Handle
end AtomicUpdate
