import AtomicUpdate.Commit
import AtomicUpdate.Proofs.Fs.Refused

/-! Every way in which a commit can end, and the copy that it may come to, with the world that is left.
A rename says that it crosses devices only where it is told to, so it is settled before a commit begins
which of the two it tries. -/
namespace AtomicUpdate

namespace Files
variable {fs fs₁ fs₂ : Fs} {source target : Path} {i j : Ino} {mode m : Nat} {old c : Bytes}

theorem copyUnopened {e : Errno} (refused : openBoth fs source target = .error e) :
    copy fs source target = (fs, .error e) := by
  rw [copy, refused]

theorem copyFile (opened : openBoth fs source target = .ok (i, mode, j, fs₁))
    (emptied : (fs₁.truncate j).node? j = some (.file old m))
    (rest : ((fs₁.truncate j).replace j (.file old mode)).readRest i 0 = .ok c)
    (wrote : ((fs₁.truncate j).replace j (.file old mode)).writeAt j 0 c = .ok fs₂) :
    copy fs source target = (fs₂, .ok ()) := by
  unfold copy
  rw [opened]
  dsimp only
  rw [emptied]
  dsimp only
  rw [rest]
  dsimp only
  rw [wrote]

end Files

namespace Commit

theorem namesRefused {temp base : Name} {e : Errno} (failed : checkNames temp base = .error e) :
    e ∈ [Errno.einval, .enoent, .enametoolong] := by
  have nul : ∀ {p : Path} {e}, Path.forbidNul Errno.einval p = .error e → e = .einval := by
    intro p e failed
    unfold Path.forbidNul at failed
    split at failed <;> cases failed
    rfl
  have long : ∀ {p e}, Fs.checkLength p = .error e → e ∈ [Errno.einval, .enoent, .enametoolong] :=
    fun failed => List.mem_cons_of_mem _ (Fs.lengthRefused failed)
  rcases bindError failed with first | ⟨_, _, failed⟩
  · rw [nul first]
    decide
  rcases bindError failed with second | ⟨_, _, failed⟩
  · rw [nul second]
    decide
  rcases bindError failed with third | ⟨_, _, fourth⟩
  · exact long third
  · exact long fourth

theorem renameCrosses {fs : Fs} {d : Ino} {temp base : Name} {forced : Bool}
    (crossed : rename fs d temp base forced = .error .exdev) : forced = true := by
  unfold rename at crossed
  split at crossed
  · rename_i told
    exact told
  · rcases bindError crossed with unchecked | ⟨_, _, failed⟩
    · exact absurd (namesRefused unchecked) (by decide)
    · exact absurd rfl (Fs.renameRefused failed)

theorem copyOverUnopened {temp base : Path} {w : World} {e : Errno}
    (refused : Files.openBoth w.fs temp base = .error e) : copyOver temp base w = (.error e, w) := by
  rw [copyOver, Files.copyUnopened refused]
  rfl

theorem copyOverOf {temp base : Path} {w : World} {fs₁ fs₂ : Fs}
    (copied : Files.copy w.fs temp base = (fs₁, .ok ())) (flushed : Files.flush fs₁ base = .ok ())
    (removed : Files.remove fs₁ temp = .ok fs₂) : copyOver temp base w = (.ok (), w.withFs fs₂) := by
  rw [copyOver, copied]
  dsimp only [World.withFs]
  rw [flushed]
  dsimp only
  rw [removed]

inductive Copying (temp base : Path) (w : World) : Except Errno Unit × World → Prop where
  | broken {e} (broke : (Files.copy w.fs temp base).2 = .error e) :
      Copying temp base w (.error e, w.withFs (Files.copy w.fs temp base).1)
  | unflushed {e} (copied : (Files.copy w.fs temp base).2 = .ok ())
      (refused : Files.flush (Files.copy w.fs temp base).1 base = .error e) :
      Copying temp base w (.error e, w.withFs (Files.copy w.fs temp base).1)
  | unremoved {e} (copied : (Files.copy w.fs temp base).2 = .ok ())
      (flushed : Files.flush (Files.copy w.fs temp base).1 base = .ok ())
      (refused : Files.remove (Files.copy w.fs temp base).1 temp = .error e) :
      Copying temp base w (.error e, w.withFs (Files.copy w.fs temp base).1)
  | done {fs} (copied : (Files.copy w.fs temp base).2 = .ok ())
      (flushed : Files.flush (Files.copy w.fs temp base).1 base = .ok ())
      (removed : Files.remove (Files.copy w.fs temp base).1 temp = .ok fs) :
      Copying temp base w (.ok (), w.withFs fs)

theorem copying (temp base : Path) (w : World) : Copying temp base w (copyOver temp base w) := by
  unfold copyOver
  dsimp only
  cases copied : (Files.copy w.fs temp base).2 with
  | error e => exact .broken copied
  | ok u =>
    dsimp only [World.withFs]
    cases flushed : Files.flush (Files.copy w.fs temp base).1 base with
    | error e => exact .unflushed copied flushed
    | ok u =>
      dsimp only
      cases removed : Files.remove (Files.copy w.fs temp base).1 temp with
      | error e => exact .unremoved copied flushed removed
      | ok fs => exact .done copied flushed removed

theorem copyOverFiles {temp base : Path} {w : World} {r : Except Errno Unit × World}
    (ends : copyOver temp base w = r) : ∃ fs, r.2 = w.withFs fs := by
  have ended := copying temp base w
  rw [ends] at ended
  cases ended <;> exact ⟨_, rfl⟩

theorem copyOverBroke {temp base : Path} {w w' : World} {e : Errno}
    (broke : copyOver temp base w = (.error e, w')) : w' = w.withFs (Files.copy w.fs temp base).1 := by
  have ended := copying temp base w
  rw [broke] at ended
  cases ended <;> rfl

theorem copyOverDone {temp base : Path} {w w' : World} (done : copyOver temp base w = (.ok (), w')) :
    ∃ fs₁ fs₂, Files.copy w.fs temp base = (fs₁, .ok ()) ∧ Files.flush fs₁ base = .ok () ∧
      Files.remove fs₁ temp = .ok fs₂ ∧ w' = w.withFs fs₂ := by
  have ended := copying temp base w
  rw [done] at ended
  cases ended with
  | done copied flushed removed => exact ⟨_, _, Prod.ext rfl copied, flushed, removed, rfl⟩

def warned (base : Path) (w : World) : World :=
  w.logWarn s!"cross-device rename, falling back to copy for {base.display}"

section Ways
variable {temp base : Path} {allowCopy : Bool} {force : Option Bool} {w : World} {t b : Name} {d : Ino}

theorem runUnready {e : Errno} (refused : prepare w.fs temp base = .error e) :
    run temp base allowCopy force w = (.error e, w) := by
  rw [run, refused]

theorem runRenames (ready : prepare w.fs temp base = .ok (t, b, d))
    (free : force.getD (forcedByEnv w.env) = false) :
    run temp base allowCopy force w =
      match rename w.fs d t b false with
      | .ok fs => (.ok ⟨false, 0⟩, w.withFs fs)
      | .error e => (.error e, w) := by
  rw [run, ready]
  dsimp only
  rw [free]
  cases moved : rename w.fs d t b false with
  | ok fs =>
    dsimp only [World.withFs]
    rw [Nat.sub_self]
  | error e =>
    refine if_neg fun both => ?_
    rw [both.1] at moved
    cases renameCrosses moved

theorem runBarred (ready : prepare w.fs temp base = .ok (t, b, d))
    (crosses : force.getD (forcedByEnv w.env) = true) (barred : allowCopy = false) :
    run temp base allowCopy force w = (.error .exdev, w) := by
  rw [run, ready]
  dsimp only
  rw [crosses, rename, if_pos rfl]
  exact if_neg fun both => by cases barred.symm.trans both.2

theorem runCopies (ready : prepare w.fs temp base = .ok (t, b, d))
    (crosses : force.getD (forcedByEnv w.env) = true) (allowed : allowCopy = true) :
    run temp base allowCopy force w =
      ((copyOver temp base (warned base w)).1.map fun _ => ⟨true, 0⟩,
        (copyOver temp base (warned base w)).2) := by
  obtain ⟨fs, left⟩ := @copyOverFiles temp base (warned base w) _ rfl
  rw [run, ready]
  dsimp only
  rw [crosses, rename, if_pos rfl]
  dsimp only
  rw [if_pos ⟨rfl, allowed⟩]
  unfold warned at left ⊢
  generalize copyOver temp base _ = r at left ⊢
  obtain ⟨result, w'⟩ := r
  cases left
  cases result with
  | error e => rfl
  | ok u =>
    dsimp only [World.withFs, World.logWarn, World.emit, Except.map]
    rw [Nat.sub_self]

end Ways

inductive Running (temp base : Path) (allowCopy : Bool) (force : Option Bool) (w : World) :
    Except Errno Committed × World → Prop where
  | unready {e} (refused : prepare w.fs temp base = .error e) :
      Running temp base allowCopy force w (.error e, w)
  | refused {t b d e} (ready : prepare w.fs temp base = .ok (t, b, d))
      (free : force.getD (forcedByEnv w.env) = false) (refused : rename w.fs d t b false = .error e) :
      Running temp base allowCopy force w (.error e, w)
  | renamed {t b d fs} (ready : prepare w.fs temp base = .ok (t, b, d))
      (free : force.getD (forcedByEnv w.env) = false) (moved : w.fs.renameIn d t b = .ok fs) :
      Running temp base allowCopy force w (.ok ⟨false, 0⟩, w.withFs fs)
  | barred {names} (ready : prepare w.fs temp base = .ok names)
      (crosses : force.getD (forcedByEnv w.env) = true) (barred : allowCopy = false) :
      Running temp base allowCopy force w (.error .exdev, w)
  | broken {names e w'} (ready : prepare w.fs temp base = .ok names)
      (crosses : force.getD (forcedByEnv w.env) = true) (allowed : allowCopy = true)
      (broke : copyOver temp base (warned base w) = (.error e, w')) :
      Running temp base allowCopy force w (.error e, w')
  | copied {names w'} (ready : prepare w.fs temp base = .ok names)
      (crosses : force.getD (forcedByEnv w.env) = true) (allowed : allowCopy = true)
      (copied : copyOver temp base (warned base w) = (.ok (), w')) :
      Running temp base allowCopy force w (.ok ⟨true, 0⟩, w')

theorem running (temp base : Path) (allowCopy : Bool) (force : Option Bool) (w : World) :
    Running temp base allowCopy force w (run temp base allowCopy force w) := by
  cases ready : prepare w.fs temp base with
  | error e =>
    rw [runUnready ready]
    exact .unready ready
  | ok names =>
    obtain ⟨t, b, d⟩ := names
    cases told : force.getD (forcedByEnv w.env) with
    | false =>
      rw [runRenames ready told]
      cases moved : rename w.fs d t b false with
      | error e => exact .refused ready told moved
      | ok fs =>
        obtain ⟨_, _, moved⟩ := bindOk moved
        exact .renamed ready told moved
    | true =>
      cases may : allowCopy with
      | false =>
        rw [runBarred ready told rfl]
        exact .barred ready told rfl
      | true =>
        rw [runCopies ready told rfl]
        cases ended : copyOver temp base (warned base w) with
        | mk result w' =>
          cases result with
          | error e => exact .broken ready told rfl ended
          | ok u => exact .copied ready told rfl ended

end Commit
end AtomicUpdate
