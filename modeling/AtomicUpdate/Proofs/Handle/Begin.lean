import AtomicUpdate.Proofs.Fs.Gain
import AtomicUpdate.Proofs.Handle.Failure
import AtomicUpdate.Proofs.Store.Ground

/-! Opening a cycle, wherever the base is and whatever the lock is. Where it succeeds, a file is new in the
folder of the base under a temp name of the base; all else that may be new is a lock file. -/
namespace AtomicUpdate
open Path (Proper)

abbrev Names.writing (base : String) (s : Suffix) : Names :=
  (Names.ofBase base).openWith (Template.fill (Template.stemOf base) s)

theorem Names.writingInjective {base : String} {s s' : Suffix}
    (same : Names.writing base s = .writing base s') : s = s' :=
  Template.fillInjective (congrArg staging same)

namespace Handle

theorem Sided.gains {fs fs' : Fs} {lock : Option LockManager} (sided : Sided fs lock fs') :
    Fs.Gains fs fs' := by
  cases sided with
  | same => exact .none
  | made vacant =>
    obtain ⟨dir, free⟩ := Fs.vacantFree vacant
    exact .born dir free

/-- The names of a handle that was made for a base, at any time. -/
inductive Over (base : String) : Names → Prop where
  | live : Over base (.ofBase base)
  | writing (s : Suffix) : Over base (.writing base s)
  | retired : Over base .retired

variable {base : String} {h : Handle} {w : World}

theorem Over.drawn {names : Names} (built : Over base names) (idle : names.temp? = none) {stem : List Char}
    (template : Template.stem? names.staging = some stem) :
    names = .ofBase base ∧ stem = Template.stemOf base := by
  cases built with
  | live => exact ⟨rfl, (Option.some.inj (template.symm.trans (Template.stemOfBase base)))⟩
  | writing s => cases idle
  | retired => cases template.symm.trans Template.noStemOfEmpty

theorem Over.closed {names : Names} (built : Over base names) {temp : String}
    (pending : names.temp? = some temp) : Over base names.closed := by
  cases built with
  | live => exact .live
  | writing s => exact .live
  | retired => cases pending

inductive Begun (base : String) (h : Handle) (w : World) : Ran String → Prop where
  | refused {r e} (error : r.result = .error e) (names : r.handle.names = h.names)
      (sink : r.handle.sink = h.sink) (gains : Fs.Gains w.fs r.world.fs) : Begun base h w r
  | opened {r} (s : Suffix) {fs d} (idle : h.names = .ofBase base)
      (ok : r.result = .ok (Template.fill (Template.stemOf base) s))
      (names : r.handle.names = .writing base s) (sink : r.handle.sink = h.sink)
      (gains : Fs.Gains w.fs fs) (home : fs.Home (folderOf base) d)
      (proper : Proper (folderOf base) (s.after (leafOf base)))
      (free : fs.named? d (s.after (leafOf base)) = none) (write : fs.permits d .write = true)
      (made : r.world.fs = fs.born d (s.after (leafOf base)) 0o600) : Begun base h w r

theorem createdIn (built : Over base h.names) (idle : h.names.temp? = none) {temp : String} {w' : World}
    (created : h.createTemp w = (.ok temp, w')) :
    ∃ s d, h.names = .ofBase base ∧ temp = Template.fill (Template.stemOf base) s ∧
      w.fs.Home (folderOf base) d ∧ Proper (folderOf base) (s.after (leafOf base)) ∧
      w.fs.named? d (s.after (leafOf base)) = none ∧ w.fs.permits d .write = true ∧
      w'.fs = w.fs.born d (s.after (leafOf base)) 0o600 := by
  rcases h.createTempExact w with
    ⟨drawn, events', ended⟩ | ⟨stem, m, d, n, s, drawn, template, clean, located, write, ended⟩
  · rw [ended] at created
    cases created
  · rw [ended] at created
    cases created
    obtain ⟨live, rfl⟩ := built.drawn idle template
    generalize suffix : w.draws (w.drawn + m) = s at *
    have name : Files.drawName (Template.stemOf base) w m = Template.fill (Template.stemOf base) s := by
      rw [Files.drawName, suffix]
    rw [name, tempPath] at located clean
    obtain ⟨home, rfl, short⟩ := Fs.vacantHome (folderEnds base) (afterPlain base s) located
    have within := Path.lengthFits (Fs.locateExact located).1
    exact ⟨s, d, live, name, home, ⟨afterPlain base s, short, within, clean⟩, (Fs.vacantFree located).2, write,
      rfl⟩

theorem openCycleBegun (built : Over base h.names) : Begun base h w (h.openCycle w) := by
  cases started : (h.openCycle w).result with
  | error e =>
    obtain ⟨names, _, sink, sided⟩ := unopenedCycle started
    exact .refused started names sink sided.gains
  | ok temp =>
    have sided := h.takeGuardSided w
    have names := h.takeGuardNames w
    have sink := h.takeGuardSink w
    have ended := h.opening w
    generalize h.openCycle w = r at ended started
    cases ended with
    | busy pending => cases started
    | locked idle refused => cases started
    | failed idle granted refused => cases started
    | @opened g _ w' idle granted created =>
      rw [← names] at built idle
      obtain ⟨s, d, live, rfl, home, proper, free, write, made⟩ := createdIn built idle created
      rw [names] at live
      refine .opened s live rfl ?_ sink sided.gains home proper free write made
      change (h.takeGuard w).handle.names.openWith _ = _
      rw [names, live]

theorem openCycleOver (built : Over base h.names) (w : World) : Over base (h.openCycle w).handle.names := by
  cases openCycleBegun (w := w) built with
  | refused error names sink gains => exact names ▸ built
  | opened s idle ok names sink gains home proper free write made => exact names ▸ .writing s

end Handle

theorem Call.over {base : String} {h : Handle} (built : Handle.Over base h.names) (c : Call) (w : World) :
    Handle.Over base (c.perform h w).handle.names := by
  cases c with
  | startWrite => exact Handle.openCycleOver built w
  | startWriteStream =>
    change Handle.Over base (h.startWriteStream w).handle.names
    rw [h.startWriteStreamHandle w]
    exact Handle.openCycleOver built w
  | finishWrite =>
    change Handle.Over base (h.commitCycle w).handle.names
    have ended := h.committing w
    generalize h.commitCycle w = r at ended
    cases ended with
    | done pending flushed committed => exact built.closed pending
    | _ => exact built
  | failWrite =>
    change Handle.Over base (h.rollBack w).handle.names
    have ended := h.rollingBack w
    generalize h.rollBack w = r at ended
    cases ended with
    | idle idle => exact built
    | kept pending refused other => exact built
    | removed pending removed => exact built.closed pending
    | vanished pending refused => exact built.closed pending
  | delete =>
    change Handle.Over base (h.retire w).handle.names
    rcases h.retireNames w with ⟨_, retired⟩ | ⟨_, same⟩
    · rw [retired]
      exact .retired
    · rwa [same]
  | getBaseFile => exact built
  | readFully => exact built
  | openRead => exact built

theorem Run.over {base : String} {first h : Handle} {past : Past} (run : Run first past h)
    (built : first.names = .ofBase base) : Handle.Over base h.names := by
  induction run with
  | start => exact built ▸ .live
  | call before c w ih => exact c.over ih w

end AtomicUpdate
