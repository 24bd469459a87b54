import AtomicUpdate.Fs.Outside
import AtomicUpdate.Proofs.Handle.Failure
import AtomicUpdate.Proofs.Lock.Table

/-! A handle whose file has been deleted. It has no names left, so that whatever is asked of it later
finds nothing to read and nowhere to make a temp file: the lock is all that a start still takes, and it
gives that back. -/
namespace AtomicUpdate

theorem Names.Gone.same {n : Names} (gone : n.Gone) : n = .retired := by
  obtain ⟨base, staging, phase⟩ := n
  cases gone.base
  cases gone.template
  cases gone.committed
  rfl

namespace World

theorem releaseLocks (w : World) (g : Guard) : (w.release g).locks ⊆ w.locks := by
  cases g with
  | scripted => exact fun _ mem => mem
  | sidecar o => exact fun _ mem => (LockTable.memRelease.mp mem).1

theorem waitLocks (w : World) (ms : Nat) : (w.wait ms).locks ⊆ w.locks := by
  have kept : ∀ (guards : List Guard) (w : World), (w.releaseAll guards).locks ⊆ w.locks := by
    intro guards
    induction guards with
    | nil => exact fun _ _ mem => mem
    | cons g rest ih => exact fun w _ mem => w.releaseLocks g (ih (w.release g) mem)
  exact kept _ _

end World

theorem Wait.Polled.locks {x : Wait} {timeout : Nat} {w : World} {r : Except Errno Guard × World}
    (polled : x.Polled timeout w r) :
    (∀ l ∈ r.2.locks, l.owner ≠ x.file.owner → l ∈ w.locks) ∧
      (r.1 = .ok (.sidecar x.file.owner) ∨
        (∃ e, r.1 = .error e) ∧ ∀ l ∈ r.2.locks, l.owner ≠ x.file.owner) := by
  induction polled with
  | @last w w' g ends =>
    have ended := x.attempted timeout w
    rw [ends] at ended
    cases ended with
    | kept granted => exact ⟨fun l mem other => (LockTable.memRequest other).mp mem, Or.inl rfl⟩
    | late refused late =>
      have closed : ∀ l ∈ (w.locks.request x.file.ino x.file.owner .exclusive).2.release x.file.owner,
          l ∈ (w.locks.request x.file.ino x.file.owner .exclusive).2 ∧ l.owner ≠ x.file.owner :=
        fun l mem => LockTable.memRelease.mp mem
      exact ⟨fun l mem other => (LockTable.memRequest other).mp (closed l mem).1,
        Or.inr ⟨⟨_, rfl⟩, fun l mem => (closed l mem).2⟩⟩
  | @again w w' r waits more ih =>
    have ended := x.attempted timeout w
    rw [waits] at ended
    cases ended
    exact ⟨fun l mem other => (LockTable.memRequest other).mp (World.waitLocks _ _ (ih.1 l mem other)),
      ih.2⟩

theorem LockManager.acquireLocks (m : LockManager) (timeout : Nat) (w : World) :
    (Handle.giveBack (m.acquire timeout w).1.toOption (m.acquire timeout w).2.2).locks ⊆ w.locks := by
  cases m with
  | scripted answers =>
    dsimp only [acquire]
    split <;> exact fun _ mem => mem
  | sidecar path =>
    change (Handle.giveBack (acquireSidecar path timeout w).1.toOption
      (acquireSidecar path timeout w).2).locks ⊆ w.locks
    rcases acquirePolls path timeout w with ⟨e, w', begun, ends⟩ | ⟨x, w', begun, polled⟩
    · rw [ends, (notEntered begun).1]
      exact fun _ mem => mem
    · obtain ⟨fs, _, _, _, rfl⟩ := entered begun
      obtain ⟨others, ends⟩ := polled.locks
      intro l mem
      rcases ends with granted | ⟨⟨e, refused⟩, closed⟩
      · rw [granted] at mem
        obtain ⟨held, other⟩ := LockTable.memRelease.mp mem
        exact others l held other
      · rw [refused] at mem
        exact others l mem (closed l mem)

namespace Handle
variable {h : Handle} {w : World}

structure Spent (h : Handle) : Prop where
  gone : h.names.Gone
  free : h.guard = none

theorem Spent.idle (spent : h.Spent) : h.isPending = false := by
  rw [isPending, spent.gone.idle]
  rfl

def refusal (h : Handle) (w : World) : Errno :=
  match h.lock with
  | none => .enoent
  | some m => match (m.acquire h.timeout w).1 with
    | .error e => e
    | .ok _ => .enoent

def spentAnswer (h : Handle) (w : World) : Call → Except Errno Unit
  | .startWrite | .startWriteStream => .error (h.refusal w)
  | .delete => .ok ()
  | .finishWrite | .failWrite | .getBaseFile | .readFully | .openRead => .error .enoent

/-- An operation that does nothing: no lock is kept, and the files change at most by a lock file that
is made for a start, and by what whoever is given the fact does to them. -/
structure Inert (h : Handle) (w : World) (c : Call) (r : Ran Unit) : Prop where
  answer : r.result = h.spentAnswer w c
  spent : r.handle.Spent
  locks : r.world.locks ⊆ w.locks
  files : ∃ fs, (if c.starts then Sided w.fs h.lock fs else fs = w.fs) ∧ h.Told fs r.world.fs

theorem takeGuardAnswer (h : Handle) (w : World) :
    (∀ e, (h.takeGuard w).result = .error e → h.refusal w = e) ∧
      (∀ g, (h.takeGuard w).result = .ok g → h.refusal w = .enoent) ∧
      (giveBack (h.takeGuard w).result.toOption.join (h.takeGuard w).world).locks ⊆ w.locks := by
  unfold refusal
  cases manager : h.lock with
  | none =>
    unfold takeGuard
    rw [manager]
    exact ⟨nofun, fun _ _ => rfl, fun _ mem => mem⟩
  | some m =>
    have locks := m.acquireLocks h.timeout w
    rw [takeGuardAsks manager]
    dsimp only
    cases answer : (m.acquire h.timeout w).1 with
    | error e =>
      rw [answer] at locks
      exact ⟨fun e' same => by cases same; rfl, nofun, locks⟩
    | ok g =>
      rw [answer] at locks
      exact ⟨nofun, fun _ _ => rfl, locks⟩

theorem openCycleSpent (spent : h.Spent) (w : World) :
    (h.openCycle w).result = .error (h.refusal w) ∧ (h.openCycle w).world.locks ⊆ w.locks := by
  have names := h.takeGuardNames w
  obtain ⟨refuses, grants, locks⟩ := h.takeGuardAnswer w
  have ended := h.opening w
  generalize h.openCycle w = r at ended
  cases ended with
  | busy pending =>
    rw [spent.gone.idle] at pending
    cases pending
  | @locked e idle refused =>
    rw [refused] at locks
    exact ⟨congrArg Except.error (refuses e refused).symm, locks⟩
  | @failed g e w' idle granted refused =>
    rcases (h.takeGuard w).handle.createTempExact (h.takeGuard w).world with
      ⟨drawn, events, ends⟩ | ⟨stem, _, _, _, _, _, template, _⟩
    · rw [refused] at ends
      cases ends
      rw [granted] at locks
      refine ⟨congrArg Except.error (grants g granted).symm, ?_⟩
      cases g with
      | none => exact locks
      | some g => cases g <;> exact locks
    · rw [names, spent.gone.template, Template.noStemOfEmpty] at template
      cases template
  | opened idle granted created =>
    have made := createdTemp created
    rw [names] at made
    exact (spent.gone.nothingCreated made).elim

theorem startWriteSpent (spent : h.Spent) {c : Call} (starts : c.starts = true) :
    Inert h w c (h.startWrite w).ended := by
  obtain ⟨refused, locks⟩ := openCycleSpent spent w
  obtain ⟨names, guard, sink, sided⟩ := unopenedCycle refused
  obtain ⟨kept, told⟩ := reportTold sink .startWrite (h.openCycle w).handle.names.base
    (h.openCycle w).handle.tempDetail (h.openCycle w).result (h.openCycle w).world
  have world : (h.startWrite w).world = (h.openCycle w).handle.sink.report .startWrite
      (h.openCycle w).handle.names.base (h.openCycle w).handle.tempDetail (h.openCycle w).result
      (h.openCycle w).world := by
    unfold startWrite
    dsimp only [Ran.reported]
    rw [refused]
  rw [← world] at kept told
  refine ⟨?_, ⟨names ▸ spent.gone, guard.trans spent.free⟩, fun l mem => locks (kept ▸ mem),
    _, if_pos starts ▸ sided, told⟩
  change (h.openCycle w).result.map (fun _ => ()) = _
  rw [refused]
  cases c with
  | startWrite => rfl
  | startWriteStream => rfl
  | _ => cases starts

theorem startWriteStreamSpent (spent : h.Spent) (w : World) :
    Inert h w .startWriteStream (h.startWriteStream w).ended := by
  have refused : (h.startWrite w).result = .error (h.refusal w) := (openCycleSpent spent w).1
  have same : (h.startWriteStream w).ended = (h.startWrite w).ended := by
    rw [startWriteStreamRefused refused, Ran.ended, Ran.ended, refused]
    rfl
  rw [same]
  exact startWriteSpent spent rfl

theorem Spent.tells (spent : h.Spent) {c : Call} (other : c.starts = false) {α : Type} {r : Ran α}
    (same : r.handle = h) (looked : w.Looked r.world) (answer : r.ended.result = h.spentAnswer w c)
    (stage : Stage) (path : String) (details : Json.Value) :
    Inert h w c (r.reported stage path details).ended := by
  obtain ⟨result, handle, _⟩ := r
  cases same
  obtain ⟨owners, lines, _, _, rfl⟩ := looked
  obtain ⟨kept, told⟩ := reportTold (h := handle) rfl stage path details result
    { w with owners, events := w.events ++ lines }
  refine ⟨answer, spent, fun l mem => ?_, w.fs, ?_, told⟩
  · exact kept ▸ mem
  · rw [other]
    rfl

theorem finishWriteSpent (spent : h.Spent) (w : World) : Inert h w .finishWrite (h.finishWrite w) := by
  have ran := commitCycleUnopened spent.gone.idle w
  have told := spent.tells (c := .finishWrite) rfl (r := h.commitCycle w) (by rw [ran])
    (by rw [ran]; exact .line _ _ _) (by rw [ran]; rfl) .finishWrite h.names.base h.tempDetail
  unfold finishWrite
  rw [ran] at told ⊢
  exact told

theorem failWriteSpent (spent : h.Spent) (w : World) : Inert h w .failWrite (h.failWrite w) := by
  have ran := rollBackUnopened spent.gone.idle w
  have told := spent.tells (c := .failWrite) rfl (r := h.rollBack w) (by rw [ran])
    (by rw [ran]; exact .line _ _ _) (by rw [ran]; rfl) .failWrite h.names.base h.tempDetail
  unfold failWrite
  rw [ran] at told ⊢
  exact told

theorem retireGone (gone : h.names.Gone) (w : World) :
    h.retire w = ⟨.ok (), { h with names := .retired, guard := none }, h.releaseGuard w⟩ := by
  unfold retire
  rw [gone.same]
  rfl

theorem deleteSpent (spent : h.Spent) (w : World) : Inert h w .delete (h.delete w) := by
  have still : ({ h with names := .retired, guard := none } : Handle) = h := by
    rw [← spent.gone.same, ← spent.free]
  have ran : h.retire w = ⟨.ok (), h, w⟩ := by
    rw [retireGone spent.gone, still, releaseGuard, spent.free]
  unfold delete
  rw [ran]
  exact spent.tells (r := ⟨.ok (), h, w⟩) rfl rfl (.refl w) rfl .delete h.names.base _

theorem canonicalGone (gone : h.names.Gone) (fs : Fs) : Files.canonical fs h.names.basePath = .error .enoent := by
  rw [gone.same]
  rfl

theorem openResolvedGone (gone : h.names.Gone) (w : World) : h.openResolved w =
    (.error .enoent, w.logError s!"Failed to resolve real path, err:{Errno.enoent.number}") :=
  openResolvedUnresolved (canonicalGone gone w.fs)

theorem readContentsGone (gone : h.names.Gone) (w : World) : h.readContents w =
    (.error .enoent, w.logError s!"Failed to resolve real path, err:{Errno.enoent.number}") := by
  unfold readContents
  rw [openResolvedGone gone]

theorem openReaderGone (gone : h.names.Gone) (w : World) : h.openReader w =
    (.error .enoent, w.logError s!"Failed to resolve real path, err:{Errno.enoent.number}") :=
  openReaderUnresolved (canonicalGone gone w.fs)

theorem getBaseFileSpent (spent : h.Spent) (w : World) :
    Inert h w .getBaseFile (h.getBaseFile w).ended := by
  refine spent.tells (r := ⟨(h.openBase w).1, h, (h.openBase w).2⟩) rfl rfl (h.openBaseLooks w) ?_
    .read h.names.base _
  change (h.openBase w).1.map (fun _ => ()) = .error .enoent
  unfold openBase
  rw [spent.gone.base, if_neg (by decide), openResolvedGone spent.gone]
  rfl

theorem readFullySpent (spent : h.Spent) (w : World) : Inert h w .readFully (h.readFully w).ended := by
  refine spent.tells (r := ⟨(h.readContents w).1, h, (h.readContents w).2⟩) rfl rfl
    (h.readContentsLooks w) ?_ .read h.names.base _
  change (h.readContents w).1.map (fun _ => ()) = .error .enoent
  rw [readContentsGone spent.gone]
  rfl

theorem openReadSpent (spent : h.Spent) (w : World) : Inert h w .openRead (h.openRead w).ended := by
  refine spent.tells (r := ⟨(h.openReader w).1, h, (h.openReader w).2⟩) rfl rfl
    (h.openReaderLooks w) ?_ .read h.names.base _
  change (h.openReader w).1.map (fun _ => ()) = .error .enoent
  rw [openReaderGone spent.gone]
  rfl

end Handle

theorem Call.inert {h : Handle} (spent : h.Spent) (c : Call) (w : World) :
    h.Inert w c (c.perform h w) := by
  cases c with
  | startWrite => exact Handle.startWriteSpent spent rfl
  | startWriteStream => exact Handle.startWriteStreamSpent spent w
  | finishWrite => exact Handle.finishWriteSpent spent w
  | failWrite => exact Handle.failWriteSpent spent w
  | delete => exact Handle.deleteSpent spent w
  | getBaseFile => exact Handle.getBaseFileSpent spent w
  | readFully => exact Handle.readFullySpent spent w
  | openRead => exact Handle.openReadSpent spent w

theorem Run.spent {first h : Handle} {past : Past} (run : Run first past h) (deleted : past.Deleted) :
    h.Spent := by
  induction run with
  | start => exact absurd deleted List.not_mem_nil
  | @call past h before c w ih =>
    rcases List.mem_append.mp deleted with early | last
    · exact (c.inert (ih early) w).spent
    · obtain ⟨rfl, ok⟩ := Prod.mk.inj (List.mem_singleton.mp last)
      have ended := h.retiring w
      change (h.retire w).handle.Spent
      replace ok : .ok () = (h.retire w).result := ok
      generalize h.retire w = r at ended ok
      cases ended with
      | kept first second failure => cases ok
      | retired first second => exact ⟨Names.goneRetired, rfl⟩

theorem deletedInert {first h : Handle} {past : Past} (run : Run first past h) (deleted : past.Deleted)
    (c : Call) (w : World) :
    h.Inert w c (c.perform h w) ∧ ∀ m, h.lock = some m →
      ∃ account, Occasion.Account ⟨c, h, w⟩ account ∧ balance none account = some none := by
  have spent := run.spent deleted
  have inert := c.inert spent w
  refine ⟨inert, fun m manager => ?_⟩
  have watchful : h.Watchful := ⟨⟨m, manager⟩, by rw [spent.free, spent.idle]; rfl⟩
  obtain ⟨_, account, accounts⟩ := Occasion.accounted ⟨c, h, w⟩ watchful
  have balanced := accounts.balanced watchful
  have after : (c.perform h w).handle.guard = none := inert.spent.free
  change balance h.guard account = some (c.perform h w).handle.guard at balanced
  rw [spent.free, after] at balanced
  exact ⟨account, accounts, balanced⟩

theorem refusedThenInert :
    let first : Handle := { Handle.ofBase "f" with lock := some (.scripted [some .eagain]) }
    let littered : World :=
      { fs := ((Fs.bare.writeWhole (Path.ofString "f") [1]).fs.writeWhole (Path.ofString "_XXXXXX") [2]).fs }
    let deleted := Call.delete.perform first { fs := .bare }
    let refused := Call.startWrite.perform deleted.handle littered
    let granted := Call.startWrite.perform refused.handle littered
    deleted.result = .ok () ∧ refused.result = .error .eagain ∧ granted.result = .error .enoent ∧
      granted.world.fs = littered.fs ∧
      deleted.handle.Inert littered .startWrite refused ∧ refused.handle.Inert littered .startWrite granted ∧
      ∀ m, refused.handle.lock = some m → ∃ account,
        Occasion.Account ⟨.startWrite, refused.handle, littered⟩ account ∧
          balance none account = some none := by
  intro first littered deleted refused granted
  have ok : deleted.result = .ok () := by decide +kernel
  have once : Run first [(.delete, deleted.result)] deleted.handle := .call .start .delete { fs := .bare }
  have twice : Run first [(.delete, deleted.result), (.startWrite, refused.result)] refused.handle :=
    .call once .startWrite littered
  have gone : Past.Deleted [(.delete, deleted.result)] := ok ▸ List.mem_singleton_self _
  have still : Past.Deleted [(.delete, deleted.result), (.startWrite, refused.result)] :=
    List.mem_append_left _ gone
  have later := deletedInert twice still .startWrite littered
  exact ⟨ok, by decide +kernel, by decide +kernel, by decide +kernel,
    (deletedInert once gone .startWrite littered).1, later.1, later.2⟩

end AtomicUpdate
