import AtomicUpdate.Proofs.Fs.Age
import AtomicUpdate.Proofs.Staged.Holding

/-! What the operations of a handle do to names. Only the rename of a commit gives a node another one; every
other operation makes files and takes names away. -/
namespace AtomicUpdate
open Fs (Ages)

namespace Files
variable {fs fs' : Fs}

theorem removeAges {p : Path} (tidy : fs.Tidy) (ok : remove fs p = .ok fs') : Ages fs fs' := by
  obtain ⟨d, n, i, located, _, rfl⟩ := removeExact ok
  exact (Ages.refl tidy).erase (Fs.entryTaken located).1 n

theorem copyAges (tidy : fs.Tidy) (source target : Path) : Ages fs (copy fs source target).1 := by
  cases opened : openBoth fs source target with
  | error e =>
    rw [copyUnopened opened]
    exact .refl tidy
  | ok made =>
    obtain ⟨i, mode, j, fs₁⟩ := made
    obtain ⟨_, _, _, m, created⟩ := openBothExact opened
    have gains := Fs.openCreateGains created
    exact .gains gains ((Ages.refl (gains.tidy tidy)).poured (copyPoured opened))

end Files

namespace Commit
variable {temp base : Path} {allowCopy : Bool} {force : Option Bool} {w : World}

theorem copyOverAges {r : Except Errno Unit × World} (ends : copyOver temp base w = r) (tidy : w.fs.Tidy) :
    Ages w.fs r.2.fs := by
  have copied := Files.copyAges tidy temp base
  have ended := copying temp base w
  rw [ends] at ended
  cases ended with
  | broken | unflushed | unremoved => exact copied
  | done _ _ removed =>
    obtain ⟨d, n, i, located, _, rfl⟩ := Files.removeExact removed
    exact copied.erase (Fs.entryTaken located).1 n

theorem runTidy (tidy : w.fs.Tidy) : (run temp base allowCopy force w).2.fs.Tidy := by
  have ended := running temp base allowCopy force w
  generalize run temp base allowCopy force w = r at ended
  cases ended with
  | unready | refused | barred => exact tidy
  | @renamed t b d _ _ _ moved =>
    rcases Fs.renameExact moved with ⟨rfl, _⟩ | ⟨i, entry, _, _, rfl⟩
    · exact tidy
    · exact tidy.move d t b (tidy.entryBound entry)
  | broken _ _ _ ends | copied _ _ _ ends => exact (copyOverAges ends tidy).tidy

end Commit

namespace Handle
variable {base : String} {h : Handle} {w : World}

theorem openCycleAges (built : Over base h.names) (tidy : w.fs.Tidy) : Ages w.fs (h.openCycle w).world.fs := by
  have begun : Begun base h w (h.openCycle w) := openCycleBegun built
  generalize h.openCycle w = r at begun
  cases begun with
  | refused error names sink gains => exact .gains gains (.refl (gains.tidy tidy))
  | @opened s fs d idle ok names sink gains home proper free write made =>
    have born : Fs.Gains fs (fs.born d (s.after (leafOf base)) 0o600) := .born home.dir free
    rw [made]
    exact .gains gains (.gains born (.refl (born.tidy (gains.tidy tidy))))

theorem openTempAges (temp : String) (tidy : w.fs.Tidy) : Ages w.fs (openTemp temp w).2.fs := by
  rcases openTempExact temp w with ⟨_, _, same⟩ | ⟨wr, _, _, emptied⟩
  · rw [same]
    exact .refl tidy
  · rw [emptied]
    exact (Ages.refl tidy).poured (Fs.truncatePoured w.fs wr.file.ino)

theorem commitCycleTidy (tidy : w.fs.Tidy) : (h.commitCycle w).world.fs.Tidy := by
  have ran : ∀ temp, (h.commitTo temp w).2.fs.Tidy := fun _ => Commit.runTidy tidy
  have ended := h.committing w
  generalize h.commitCycle w = r at ended
  cases ended with
  | idle idle => exact tidy
  | unflushed pending refused => exact tidy
  | @failed temp _ _ pending flushed refused =>
    have after := ran temp
    rw [refused] at after
    exact after
  | @done temp _ _ pending flushed committed =>
    have after := ran temp
    rw [committed] at after
    dsimp only
    rw [endCycleFs]
    exact after

theorem rollBackAges (tidy : w.fs.Tidy) : Ages w.fs (h.rollBack w).world.fs := by
  have ended := h.rollingBack w
  generalize h.rollBack w = r at ended
  cases ended with
  | idle idle => exact .refl tidy
  | kept pending refused other => exact .refl tidy
  | vanished pending refused =>
    dsimp only
    rw [endCycleFs]
    exact .refl tidy
  | removed pending removed =>
    dsimp only
    rw [endCycleFs]
    exact Files.removeAges tidy removed

theorem removeTargetAges {fs : Fs} (ages : Ages fs w.fs) (target : String) :
    Ages fs (removeTarget target w).2.fs := by
  rcases removeTargetErases target w with same | ⟨d, n, dir, erased⟩
  · rw [same]
    exact ages
  · rw [erased]
    exact ages.erase dir n

theorem retireAges (tidy : w.fs.Tidy) : Ages w.fs (h.retire w).world.fs := by
  have both : ∀ {staging based w₁ w₂}, removeTarget h.names.staging w = (staging, w₁) →
      removeTarget h.names.base w₁ = (based, w₂) → Ages w.fs w₂.fs := by
    intro staging based w₁ w₂ first second
    have one := removeTargetAges (.refl tidy) h.names.staging
    rw [first] at one
    have two := removeTargetAges one h.names.base
    rwa [second] at two
  have ended := h.retiring w
  generalize h.retire w = r at ended
  cases ended with
  | kept first second failure => exact both first second
  | @retired w₁ w₂ first second =>
    have after := both first second
    obtain ⟨locks, events, released⟩ := h.releaseGuardWorld w₂
    rw [released]
    exact after

end Handle
end AtomicUpdate
