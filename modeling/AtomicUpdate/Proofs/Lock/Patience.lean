import Mathlib.Algebra.Order.Floor.Div
import AtomicUpdate.Locking
import AtomicUpdate.Proofs.Fs.Gain
import AtomicUpdate.Proofs.Lock.Respite

/-! How long a lock is waited for. Whatever a lock answers and whoever acts during the pauses, attempts are made
while the lock is held elsewhere and the time is not up. Every pause takes its full time at least, so this comes
to an end, and not before an attempt that was made after the last pause. -/
namespace AtomicUpdate

def Attempt.of : Except Errno Unit → Attempt
  | .ok () => .granted
  | .error e => if e = .eagain then .contended else .failed e

namespace Waiting
variable {σ : Type} {x : Waiting σ} {s : σ} {timeout : Nat}

def before (x : Waiting σ) (s : σ) : Nat → σ
  | 0 => s
  | n + 1 => x.before (x.pause (x.attempt s).2) n

def asked (x : Waiting σ) (s : σ) (n : Nat) : Attempt := (x.attempt (x.before s n)).1

def after (x : Waiting σ) (s : σ) (n : Nat) : σ := (x.attempt (x.before s n)).2

def seen (x : Waiting σ) (s : σ) (n : Nat) : Nat := x.elapsed (x.after s n)

def ended (x : Waiting σ) (s : σ) (timeout n : Nat) : Verdict := (x.asked s n).verdict (x.seen s n) timeout

structure Ticks (x : Waiting σ) (s : σ) : Prop where
  goes : ∀ n, x.elapsed (x.before s n) ≤ x.seen s n
  sleeps : ∀ n, x.seen s n + Limits.lockPoll ≤ x.elapsed (x.before s (n + 1))

theorem beforeNext (x : Waiting σ) (s : σ) (n : Nat) : x.before s (n + 1) = x.pause (x.after s n) := by
  induction n generalizing s with
  | zero => rfl
  | succ n ih => exact ih (x.pause (x.attempt s).2)

theorem Ticks.passes (ticks : x.Ticks s) (n : Nat) : n * Limits.lockPoll ≤ x.seen s n := by
  induction n with
  | zero => simp
  | succ n ih =>
    have slept := ticks.sleeps n
    have went := ticks.goes (n + 1)
    rw [Nat.succ_mul]
    omega

theorem pauseExact {a : Attempt} {elapsed : Nat} :
    a.verdict elapsed timeout = .pause ↔ a = .contended ∧ elapsed < timeout := by
  cases a <;> simp [Attempt.verdict]

theorem runStep (x : Waiting σ) (timeout bound : Nat) (s : σ) :
    x.run timeout (bound + 1) s =
      if x.ended s timeout 0 = .pause then x.run timeout bound (x.before s 1)
      else (x.ended s timeout 0, x.after s 0) := by
  have next : x.before s 1 = x.pause (x.attempt s).2 := rfl
  have ended : x.ended s timeout 0 = (x.attempt s).1.verdict (x.elapsed (x.attempt s).2) timeout := rfl
  have after : x.after s 0 = (x.attempt s).2 := rfl
  rw [run, next, ended, after]
  rcases x.attempt s with ⟨a, s'⟩
  dsimp only
  cases a.verdict (x.elapsed s') timeout <;> rfl

theorem runLast {last : Nat} (paused : ∀ n < last, x.ended s timeout n = .pause)
    (ends : x.ended s timeout last ≠ .pause) {bound : Nat} (enough : last ≤ bound) :
    x.run timeout (bound + 1) s = (x.ended s timeout last, x.after s last) := by
  induction last generalizing s bound with
  | zero => rw [runStep, if_neg ends]
  | succ last ih =>
    obtain ⟨bound, rfl⟩ : ∃ k, bound = k + 1 := ⟨bound - 1, by omega⟩
    rw [runStep, if_pos (paused 0 (Nat.succ_pos last))]
    exact ih (fun n small => paused (n + 1) (Nat.succ_lt_succ small)) ends (Nat.le_of_succ_le_succ enough)

theorem Ticks.run (ticks : x.Ticks s) (timeout : Nat) : ∃ last ≤ timeout ⌈/⌉ Limits.lockPoll,
    (∀ n < last, x.asked s n = .contended ∧ x.seen s n < timeout) ∧ x.ended s timeout last ≠ .pause ∧
      x.run timeout (bound timeout) s = (x.ended s timeout last, x.after s last) := by
  have same : bound timeout = timeout ⌈/⌉ Limits.lockPoll + 1 := by
    rw [Nat.ceilDiv_eq_add_pred_div]
    rfl
  have full : timeout ≤ timeout ⌈/⌉ Limits.lockPoll * Limits.lockPoll := by
    rw [Nat.ceilDiv_eq_add_pred_div, Limits.lockPoll]
    omega
  have late : x.ended s timeout (timeout ⌈/⌉ Limits.lockPoll) ≠ .pause := fun paused =>
    Nat.not_lt.mpr (full.trans (ticks.passes _)) (pauseExact.mp paused).2
  have ends : ∃ n, x.ended s timeout n ≠ .pause := ⟨_, late⟩
  have paused : ∀ n < Nat.find ends, x.ended s timeout n = .pause := fun n small =>
    not_not.mp (Nat.find_min ends small)
  refine ⟨Nat.find ends, Nat.find_le late, fun n small => pauseExact.mp (paused n small), Nat.find_spec ends, ?_⟩
  rw [same]
  exact runLast paused (Nat.find_spec ends) (Nat.find_le late)

end Waiting

/-- What there is around an acquisition. The lock may answer as it likes and be held by whom it likes; while an
acquisition sleeps, anything may happen. -/
structure Surroundings where
  tryLock : OpenFile → World → Except Errno Unit × LockTable
  elapsed : Nat → World → Nat
  sleep : World → World

namespace Surroundings

def own : Surroundings where
  tryLock f w := ((f.tryLock .exclusive w).1, (f.tryLock .exclusive w).2.locks)
  elapsed since w := w.clock - since
  sleep w := w.wait Limits.lockPoll

def waiting (k : Surroundings) (f : OpenFile) (since : Nat) : Waiting World where
  attempt w :=
    let (answer, locks) := k.tryLock f w
    (.of answer, { w with locks })
  elapsed := k.elapsed since
  pause := k.sleep

def answer (k : Surroundings) (x : Wait) (w : World) (n : Nat) : Except Errno Unit :=
  (k.tryLock x.file ((k.waiting x.file x.since).before w n)).1

theorem answerExact {k : Surroundings} {x : Wait} {w : World} {n : Nat} :
    (k.waiting x.file x.since).asked w n = .contended ↔ k.answer x w n = .error .eagain := by
  change Attempt.of (k.answer x w n) = .contended ↔ _
  cases k.answer x w n <;> simp [Attempt.of]

theorem filesBefore {k : Surroundings} {P : Fs → Prop} (sleeps : ∀ w, P w.fs → P (k.sleep w).fs) {f : OpenFile}
    {since : Nat} {w : World} (holds : P w.fs) (n : Nat) : P ((k.waiting f since).before w n).fs := by
  induction n with
  | zero => exact holds
  | succ n ih =>
    rw [Waiting.beforeNext]
    exact sleeps ((k.waiting f since).after w n) ih

theorem ownPolls (f : OpenFile) (since : Nat) : own.waiting f since = LockManager.polling f since := by
  have attempt : (own.waiting f since).attempt = (LockManager.polling f since).attempt := by
    funext w
    dsimp only [waiting, own, LockManager.polling, OpenFile.tryLock]
    cases (w.locks.request f.ino f.owner .exclusive).1 <;> rfl
  let with' (attempt : World → Attempt × World) : Waiting World :=
    { attempt, elapsed := fun w => w.clock - since, pause := fun w => w.wait Limits.lockPoll }
  exact congrArg with' attempt

theorem ownTicks {x : Wait} {w : World} (began : x.since ≤ w.clock) : (own.waiting x.file x.since).Ticks w := by
  have clock : ∀ n, x.since ≤ ((own.waiting x.file x.since).before w n).clock := by
    intro n
    induction n with
    | zero => exact began
    | succ n ih =>
      rw [Waiting.beforeNext]
      refine ih.trans ?_
      change _ ≤ (World.wait _ Limits.lockPoll).clock
      rw [World.waitClock]
      exact Nat.le_add_right _ _
  refine ⟨fun n => Nat.le_refl _, fun n => ?_⟩
  have now := clock n
  rw [Waiting.beforeNext]
  change ((own.waiting x.file x.since).before w n).clock - x.since + Limits.lockPoll ≤
    (World.wait ((own.waiting x.file x.since).after w n) Limits.lockPoll).clock - x.since
  rw [World.waitClock]
  change _ ≤ ((own.waiting x.file x.since).before w n).clock + Limits.lockPoll - x.since
  omega

end Surroundings

def Wait.conclude (x : Wait) : Verdict × World → Except Errno Guard × World
  | (.keep, w) => (.ok (.sidecar x.file.owner), w)
  | (.giveUp e, w) => (.error e, (w.logError s!"flock failed on {x.path.display}: {e.systemText}").close x.file)
  | (_, w) => (.error .eagain, (w.logWarn s!"timeout acquiring write lock {x.path.display}").close x.file)

theorem Wait.concluded (x : Wait) {answer : Except Errno Unit} {elapsed timeout : Nat} (w : World)
    (ends : (Attempt.of answer).verdict elapsed timeout ≠ .pause) :
    let r := x.conclude ((Attempt.of answer).verdict elapsed timeout, w)
    r.1 = (answer.map fun _ => .sidecar x.file.owner) ∧ (answer = .ok () → r.2 = w) ∧ r.2.fs = w.fs ∧
      ∀ e, r.1 = .error e → ∀ l ∈ r.2.locks, l.owner ≠ x.file.owner := by
  cases answer with
  | ok u => exact ⟨rfl, fun _ => rfl, rfl, nofun⟩
  | error e =>
    have freed : ∀ w' : World, ∀ l ∈ (w'.close x.file).locks, l.owner ≠ x.file.owner :=
      fun w' l mem => (LockTable.memRelease.mp mem).2
    by_cases busy : e = .eagain
    · subst busy
      have late : timeout ≤ elapsed := by simpa [Attempt.of, Attempt.verdict] using ends
      simp only [Attempt.of, Attempt.verdict, if_pos, if_pos late, Wait.conclude]
      exact ⟨rfl, nofun, rfl, fun _ _ => freed _⟩
    · simp only [Attempt.of, if_neg busy, Attempt.verdict, Wait.conclude]
      exact ⟨rfl, nofun, rfl, fun _ _ => freed _⟩

namespace LockManager

def acquireAmid (k : Surroundings) (path : Path) (timeout : Nat) (w : World) : Except Errno Guard × World :=
  match enter path w with
  | (.error e, w) => (.error e, w)
  | (.ok x, w) => x.conclude ((k.waiting x.file x.since).run timeout (Waiting.bound timeout) w)

theorem acquireOwn (path : Path) (timeout : Nat) (w : World) :
    acquireSidecar path timeout w = acquireAmid .own path timeout w := by
  rw [acquireEnters, acquireAmid]
  rcases enter path w with ⟨e | x, w'⟩
  · rfl
  · dsimp only
    rw [Surroundings.ownPolls]
    rfl

structure Opened (path : Path) (w w' : World) (x : Wait) : Prop where
  there : w'.fs.file? path = some x.file.ino
  stays : ∀ i, w.fs.file? path = some i → w'.fs = w.fs
  fresh : w.fs.file? path = none → w.fs.node? x.file.ino = none ∧ w'.fs.node? x.file.ino = some (.file [] 0o644)
  kept : ∀ i b m, w.fs.node? i = some (.file b m) → w'.fs.node? i = some (.file b m)

theorem opened {path : Path} {w w' : World} {x : Wait} (ok : enter path w = (.ok x, w')) : Opened path w w' x := by
  obtain ⟨fs, made, _, _, rfl⟩ := entered ok
  refine ⟨Fs.openCreateLeads made, fun i led => Fs.openCreateThere led made, fun none => ?_,
    fun i b m file => (Fs.openCreateGains made).file file⟩
  rcases Fs.openCreateExact made with ⟨_, outer, d, n, s, located⟩ | ⟨new, d, n, s, located, rfl⟩
  · rw [Fs.fileOf outer located] at none
    cases none
  · rw [new]
    exact ⟨Array.getElem?_size, Fs.bornFile w.fs (Fs.vacantFree located).1 n _⟩

structure Awaited (k : Surroundings) (x : Wait) (timeout : Nat) (w : World) (last : Nat)
    (r : Except Errno Guard × World) : Prop where
  few : last ≤ timeout ⌈/⌉ Limits.lockPoll
  earlier : ∀ n < last, k.answer x w n = .error .eagain ∧ (k.waiting x.file x.since).seen w n < timeout
  late : k.answer x w last = .error .eagain → timeout ≤ (k.waiting x.file x.since).seen w last
  result : r.1 = (k.answer x w last).map fun _ => .sidecar x.file.owner
  granted : k.answer x w last = .ok () → r.2 = (k.waiting x.file x.since).after w last
  freed : ∀ e, r.1 = .error e → ∀ l ∈ r.2.locks, l.owner ≠ x.file.owner
  files : ∀ P : Fs → Prop, P w.fs → (∀ w, P w.fs → P (k.sleep w).fs) → P r.2.fs

theorem awaitedAmid {k : Surroundings} {path : Path} {w w' : World} {x : Wait} (ok : enter path w = (.ok x, w'))
    (ticks : (k.waiting x.file x.since).Ticks w') (timeout : Nat) :
    ∃ last, Awaited k x timeout w' last (acquireAmid k path timeout w) := by
  obtain ⟨last, few, earlier, ends, run⟩ := ticks.run timeout
  obtain ⟨result, granted, files, freed⟩ := x.concluded ((k.waiting x.file x.since).after w' last) ends
  have same : acquireAmid k path timeout w =
      x.conclude ((k.waiting x.file x.since).ended w' timeout last, (k.waiting x.file x.since).after w' last) := by
    rw [acquireAmid, ok]
    exact congrArg x.conclude run
  rw [same]
  refine ⟨last, few, fun n small => ?_, fun busy => ?_, result, granted, freed, fun P holds sleeps => ?_⟩
  · exact ⟨Surroundings.answerExact.mp (earlier n small).1, (earlier n small).2⟩
  · exact Nat.not_lt.mp fun early => ends (Waiting.pauseExact.mpr ⟨Surroundings.answerExact.mpr busy, early⟩)
  · exact (congrArg P files).mpr (Surroundings.filesBefore sleeps holds last)

theorem acquireWaits (k : Surroundings) (path : Path) (timeout : Nat) (w : World) :
    acquireSidecar path timeout w = acquireAmid .own path timeout w ∧
    (∀ e w', enter path w = (.error e, w') → acquireAmid k path timeout w = (.error e, w)) ∧
    ∀ x w', enter path w = (.ok x, w') → Opened path w w' x ∧ (Surroundings.own.waiting x.file x.since).Ticks w' ∧
      ((k.waiting x.file x.since).Ticks w' → ∃ last, Awaited k x timeout w' last (acquireAmid k path timeout w)) := by
  refine ⟨acquireOwn path timeout w, fun e w' failed => ?_, fun x w' ok => ⟨opened ok, ?_, fun ticks => ?_⟩⟩
  · rw [acquireAmid, failed, (notEntered failed).1]
  · obtain ⟨fs, _, _, since, rfl⟩ := entered ok
    exact Surroundings.ownTicks (Nat.le_of_eq since)
  · exact awaitedAmid ok ticks timeout

theorem freedWhileAsleep :
    let path := Path.ofString "/f.lock"
    let fs := Fs.bare.born 0 (Path.ofString "f.lock") 0o644
    let w : World := { fs, locks := [⟨4, 7, .exclusive⟩], due := [(60, .sidecar 7)], owners := 8 }
    let w' : World := { w with owners := 9 }
    let x : Wait := ⟨path, { ino := 4, owner := 8 }, 0⟩
    enter path w = (.ok x, w') ∧ (Surroundings.own.waiting x.file x.since).Ticks w' ∧
      Awaited .own x 60 w' 3 (acquireSidecar path 60 w) ∧ (acquireSidecar path 60 w).1 = .ok (.sidecar 8) := by
  intro path fs w w' x
  have clean : Path.forbidNul Errno.unknown path = .ok () := by decide
  have made : w.fs.openCreate [.read, .write] 0o644 path = .ok (4, fs) := by decide
  have ok : enter path w = (.ok x, w') := by
    rw [enter, clean]
    dsimp only
    rw [made]
    rfl
  have contended : ∀ n < 3, Surroundings.own.answer x w' n = .error .eagain := by decide
  have free : Surroundings.own.answer x w' 3 = .ok () := by decide
  have guard : (acquireSidecar path 60 w).1 = .ok (.sidecar 8) := by decide
  obtain ⟨same, _, waits⟩ := acquireWaits .own path 60 w
  obtain ⟨_, ticks, ends⟩ := waits x w' ok
  obtain ⟨last, awaited⟩ := ends ticks
  rw [← same] at awaited
  have enough : ¬ last < 3 := by
    intro small
    have result := awaited.result
    rw [guard, contended last small] at result
    cases result
  have few : ¬ 3 < last := by
    intro large
    have busy := (awaited.earlier 3 large).1
    rw [free] at busy
    cases busy
  obtain rfl : last = 3 := by omega
  exact ⟨ok, ticks, awaited, guard⟩

end LockManager
end AtomicUpdate
