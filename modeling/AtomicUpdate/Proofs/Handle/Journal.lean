import AtomicUpdate.Proofs.Handle.Untold
import AtomicUpdate.Proofs.Table

/-! The facts of a handle are the journal of its write cycle: replayed in order, they give the state that
the handle is in. A replay reads the stage of a fact, its decision, its errno and the temp path in its
details. -/
namespace AtomicUpdate
open Json (Value)

def Event.fact? : Event → Option Fact
  | .fact f => some f
  | _ => none

namespace Fact

def errno? (f : Fact) : Option Errno :=
  match f.fields.get? "errno" with
  | some (.number n 0) => some ⟨n⟩
  | _ => none

def tempIn (details : Value) : Option String :=
  match details.field? "temp_path" with
  | some (.string temp) => some temp
  | _ => none

def temp? (f : Fact) : Option String := (f.fields.get? "details").bind tempIn

def ofOutcome {α : Type} (stage : Stage) (path : String) (details : Value) (result : Except Errno α)
    (time : String) : Fact :=
  let draft := ((Draft.start stage).path path).field "details" details
  match result with
  | .ok _ => draft.emit .success time
  | .error e => (draft.error e).emit .failure time

variable {α : Type} {stage : Stage} {path time : String} {details : Value} {result : Except Errno α}

@[simp] theorem outcomeStage : (ofOutcome stage path details result time).stage = stage := by
  cases result <;> rfl

@[simp] theorem outcomeOk (a : α) :
    (ofOutcome stage path details (.ok a) time).decision = .success := rfl

@[simp] theorem outcomeError (e : Errno) :
    (ofOutcome stage path details (.error e : Except Errno α) time).decision = .failure := rfl

@[simp] theorem outcomeErrno (e : Errno) :
    (ofOutcome stage path details (.error e : Except Errno α) time).errno? = some e := by
  simp [ofOutcome, errno?, Draft.emit, Draft.error, Draft.failure, Failure.of, Draft.field, Draft.path, Draft.start, Value.int]

@[simp] theorem outcomeTemp :
    (ofOutcome stage path details result time).temp? = tempIn details := by
  cases result <;>
    simp [ofOutcome, temp?, Draft.emit, Draft.error, Draft.failure, Failure.of, Draft.field, Draft.path, Draft.start]

end Fact

namespace World

def facts (w : World) : List Fact := w.events.filterMap Event.fact?

@[simp] theorem factsEmit (w : World) (e : Event) : (w.emit e).facts = w.facts ++ e.fact?.toList := by
  cases e <;> simp [facts, emit, Event.fact?]

theorem Untold.facts {w w' : World} (untold : w.Untold w') : w'.facts = w.facts := by
  obtain ⟨lines, untold, events⟩ := untold
  have none : lines.filterMap Event.fact? = [] := by
    refine List.filterMap_eq_nil_iff.mpr fun e mem => ?_
    have silent := untold e mem
    cases e with
    | fact f => cases silent
    | _ => rfl
  simp [World.facts, events, none]

end World

namespace Sink
variable {s : Sink}

theorem factFacts (captures : s.captures = true) (f : Fact) (w : World) :
    (s.fact f w).facts = w.facts ++ [f] := by
  unfold fact
  rw [if_pos captures]
  exact w.factsEmit (.fact f)

theorem auditFacts (s : Sink) (level : Level) (message : String) (w : World) :
    (s.audit level message w).facts = w.facts := by
  unfold audit
  split <;> simp [Event.fact?]

theorem reportFacts (captures : s.captures = true) {α : Type} (stage : Stage) (path : String)
    (details : Value) (result : Except Errno α) (w : World) : ∃ time,
      (s.report stage path details result w).facts =
        w.facts ++ [Fact.ofOutcome stage path details result time] := by
  refine ⟨Clock.text w.clock, ?_⟩
  cases result with
  | ok a => exact factFacts captures _ w
  | error e =>
    have told := factFacts captures (Fact.ofOutcome stage path details (.error e : Except Errno α)
      (Clock.text w.clock)) (s.audit .warn (failureLine stage path e) w)
    rw [auditFacts] at told
    exact told

end Sink

inductive Standing
  | committed
  | pending (temp : String)
  | deleted
  deriving DecidableEq, Repr

namespace Standing

def after (s : Standing) (stage : Stage) (decision : Decision) (errno : Option Errno)
    (temp : Option String) : Standing :=
  match stage, decision, temp with
  | .startWrite, .success, some temp => .pending temp
  | .finishWrite, .success, _ => .committed
  | .failWrite, .success, _ => .committed
  | .failWrite, .failure, some _ => if errno = some .enoent then .committed else s
  | .delete, .success, _ => .deleted
  | _, _, _ => s

def next (s : Standing) (f : Fact) : Standing := s.after f.stage f.decision f.errno? f.temp?

def replay (facts : List Fact) : Standing := facts.foldl next .committed

def names (base : String) : Standing → Names
  | .committed => .ofBase base
  | .pending temp => (Names.ofBase base).openWith temp
  | .deleted => .retired

theorem idleNames {base : String} {s : Standing} (idle : (s.names base).temp? = none) :
    s = .committed ∨ s = .deleted := by
  cases s with
  | committed => exact Or.inl rfl
  | pending temp => cases idle
  | deleted => exact Or.inr rfl

theorem pendingNames {base temp : String} {s : Standing} (pending : (s.names base).temp? = some temp) :
    s = .pending temp := by
  cases s with
  | committed => cases pending
  | pending temp' =>
    cases pending
    rfl
  | deleted => cases pending

theorem closedNames (base temp : String) :
    ((pending temp).names base).closed = committed.names base := rfl

theorem namesInjective (base : String) : Function.Injective (names base) := by
  intro s t same
  have temp := congrArg Names.temp? same
  cases s with
  | committed =>
    cases t with
    | committed => rfl
    | pending temp => cases temp
    | deleted => exact absurd same (Names.liveNames base)
  | pending temp => exact (pendingNames (temp.symm.trans rfl)).symm
  | deleted =>
    cases t with
    | committed => exact absurd same.symm (Names.liveNames base)
    | pending temp => cases temp
    | deleted => rfl

end Standing

structure Journals (base : String) (s : Standing) (w : World) (r : Ran Unit) (f : Fact) : Prop where
  facts : r.world.facts = w.facts ++ [f]
  names : r.handle.names = (s.next f).names base

namespace Handle
open Standing (closedNames)
variable {base : String} {s : Standing} {h : Handle}

@[simp] theorem tempInDetail (h : Handle) : Fact.tempIn h.tempDetail = h.names.temp? := by
  unfold tempDetail
  cases h.names.temp? <;> rfl

theorem startWriteTells (captures : h.sink.captures = true) (w : World) :
    ∃ path, ∃ details : Value, ∃ time, (h.startWrite w).world.facts = w.facts ++
        [Fact.ofOutcome .startWrite path details (h.openCycle w).result time] ∧
      ∀ temp, (h.openCycle w).result = .ok temp → Fact.tempIn details = some temp := by
  have told : ∀ said : Value, ∃ time, ((h.openCycle w).reported .startWrite
      (h.openCycle w).handle.names.base said).world.facts = w.facts ++
        [Fact.ofOutcome .startWrite (h.openCycle w).handle.names.base said (h.openCycle w).result time] := by
    intro said
    rw [← (h.openCycleUntold w).facts]
    exact Sink.reportFacts ((h.openCycleSink w).symm ▸ captures) _ _ _ _ _
  unfold startWrite
  dsimp only
  split
  · rename_i temp opened
    obtain ⟨time, told⟩ := told (.object [("temp_path", .string temp)])
    exact ⟨_, _, time, told, fun _ same => by cases opened.symm.trans same; rfl⟩
  · rename_i e failed
    obtain ⟨time, told⟩ := told (h.openCycle w).handle.tempDetail
    exact ⟨_, _, time, told, fun _ same => by cases failed.symm.trans same⟩

theorem startWriteJournals (captures : h.sink.captures = true) (names : h.names = s.names base)
    (w : World) : ∃ f, Journals base s w (h.startWrite w).ended f := by
  have taken := h.takeGuardNames w
  obtain ⟨path, details, time, told, opened⟩ := startWriteTells captures w
  refine ⟨_, told, ?_⟩
  change (h.openCycle w).handle.names = _
  have ended := h.opening w
  generalize h.openCycle w = r at ended opened
  cases ended with
  | busy pending => simpa [Standing.next, Standing.after] using names
  | locked idle refused => simpa [Standing.next, Standing.after] using taken.trans names
  | failed idle granted refused => simpa [Standing.next, Standing.after] using taken.trans names
  | @opened g temp w' idle granted created =>
    have live : s = .committed := by
      rw [names] at idle
      rcases Standing.idleNames idle with live | gone
      · exact live
      · have made := createdTemp created
        rw [taken, names, gone] at made
        exact (Names.goneRetired.nothingCreated made).elim
    subst live
    simp [Standing.next, Standing.after, opened temp rfl, taken, names, Standing.names]

theorem startWriteStreamJournals (captures : h.sink.captures = true) (names : h.names = s.names base)
    (w : World) : ∃ f, Journals base s w (h.startWriteStream w).ended f := by
  obtain ⟨f, journals⟩ := startWriteJournals captures names w
  refine ⟨f, ?_⟩
  cases started : (h.startWrite w).result with
  | error e =>
    rw [startWriteStreamRefused started]
    exact ⟨journals.facts, journals.names⟩
  | ok temp =>
    rw [startWriteStreamOpens started]
    exact ⟨(openTempAside temp _).untold.facts.trans journals.facts, journals.names⟩

theorem finishWriteTells (captures : h.sink.captures = true) (w : World) :
    ∃ path, ∃ details : Value, ∃ time, (h.finishWrite w).world.facts = w.facts ++
      [Fact.ofOutcome .finishWrite path details (h.commitCycle w).result time] := by
  obtain ⟨details, said⟩ := h.finishWriteWorld w
  obtain ⟨time, told⟩ := Sink.reportFacts ((h.commitCycleSink w).symm ▸ captures) .finishWrite
    (h.commitCycle w).handle.names.base details (h.commitCycle w).result (h.commitCycle w).world
  rw [(h.commitCycleEnding w).untold.facts] at told
  refine ⟨(h.commitCycle w).handle.names.base, details, time, ?_⟩
  rcases said with same | ⟨line, same⟩
  · rw [same]
    exact told
  · rw [same, Sink.auditFacts]
    exact told

theorem finishWriteJournals (captures : h.sink.captures = true) (names : h.names = s.names base)
    (w : World) : ∃ f, Journals base s w (h.finishWrite w) f := by
  obtain ⟨path, details, time, told⟩ := finishWriteTells captures w
  refine ⟨_, told, ?_⟩
  change (h.commitCycle w).handle.names = _
  have ended := h.committing w
  generalize h.commitCycle w = r at ended
  cases ended with
  | idle idle => simpa [Standing.next, Standing.after] using names
  | unflushed pending refused => simpa [Standing.next, Standing.after] using names
  | failed pending flushed refused => simpa [Standing.next, Standing.after] using names
  | done pending flushed committed =>
    rw [names] at pending
    cases Standing.pendingNames pending
    simp [Standing.next, Standing.after, endCycle, names, closedNames]

theorem failWriteJournals (captures : h.sink.captures = true) (names : h.names = s.names base)
    (w : World) : ∃ f, Journals base s w (h.failWrite w) f := by
  obtain ⟨time, told⟩ := Sink.reportFacts ((h.rollBackSink w).symm ▸ captures) .failWrite
    (h.rollBack w).handle.names.base h.tempDetail (h.rollBack w).result (h.rollBack w).world
  rw [(h.rollBackEnding w).untold.facts] at told
  refine ⟨_, told, ?_⟩
  change (h.rollBack w).handle.names = _
  have ended := h.rollingBack w
  generalize h.rollBack w = r at ended
  cases ended with
  | idle idle => simpa [Standing.next, Standing.after, idle] using names
  | removed pending removed =>
    rw [names] at pending
    cases Standing.pendingNames pending
    simp [Standing.next, Standing.after, endCycle, names, closedNames]
  | vanished pending refused =>
    rw [names] at pending
    cases Standing.pendingNames pending
    simp [Standing.next, Standing.after, endCycle, names, pending, closedNames]
  | kept pending refused other => simpa [Standing.next, Standing.after, pending, other] using names

theorem deleteJournals (captures : h.sink.captures = true) (names : h.names = s.names base)
    (w : World) : ∃ f, Journals base s w (h.delete w) f := by
  obtain ⟨time, told⟩ := Sink.reportFacts ((h.retireSink w).symm ▸ captures) .delete h.names.base
    (.object [("base_path", .string h.names.base), ("temp_path", .string h.names.staging)])
    (h.retire w).result (h.retire w).world
  rw [(h.retireEnding w).untold.facts] at told
  refine ⟨_, told, ?_⟩
  change (h.retire w).handle.names = _
  have ended := h.retiring w
  generalize h.retire w = r at ended
  cases ended with
  | kept first second failure => simpa [Standing.next, Standing.after] using names
  | retired first second => simp [Standing.next, Standing.after, Standing.names]

theorem readJournals (captures : h.sink.captures = true) (names : h.names = s.names base) {w w' : World}
    (looked : w.Looked w') {α : Type} (details : Value) (result : Except Errno α) :
    ∃ f, Journals base s w ((Ran.mk result h w').reported .read h.names.base details).ended f := by
  obtain ⟨time, told⟩ := Sink.reportFacts captures .read h.names.base details result w'
  rw [looked.aside.untold.facts] at told
  exact ⟨_, told, by simpa [Standing.next, Standing.after, Ran.ended, Ran.reported] using names⟩

end Handle

theorem Call.journals {base : String} {s : Standing} {h : Handle} (captures : h.sink.captures = true)
    (names : h.names = s.names base) (c : Call) (w : World) :
    ∃ f, Journals base s w (c.perform h w) f := by
  cases c with
  | startWrite => exact Handle.startWriteJournals captures names w
  | startWriteStream => exact Handle.startWriteStreamJournals captures names w
  | finishWrite => exact Handle.finishWriteJournals captures names w
  | failWrite => exact Handle.failWriteJournals captures names w
  | delete => exact Handle.deleteJournals captures names w
  | getBaseFile => exact Handle.readJournals captures names (h.openBaseLooks w) _ _
  | readFully => exact Handle.readJournals captures names (h.readContentsLooks w) _ _
  | openRead => exact Handle.readJournals captures names (h.openReaderLooks w) _ _

namespace Occasion

def facts (o : Occasion) : List Fact := o.ran.world.facts.drop o.world.facts.length

def journal (past : List Occasion) : List Fact := past.flatMap facts

theorem Series.sink {first h : Handle} {past : List Occasion} (series : Series first past h) :
    h.sink = first.sink := by
  induction series with
  | start => rfl
  | next before c w ih => exact (c.performSink _ w).trans ih

theorem Series.replays {base : String} {first h : Handle} {past : List Occasion}
    (series : Series first past h) (built : first.names = .ofBase base)
    (captures : first.sink.captures = true) :
    h.names = (Standing.replay (journal past)).names base := by
  induction series with
  | start => exact built
  | @next past h before c w ih =>
    obtain ⟨f, facts, names⟩ := c.journals (before.sink.symm ▸ captures) ih w
    have told : Occasion.facts ⟨c, h, w⟩ = [f] := by
      change (c.perform h w).world.facts.drop w.facts.length = [f]
      simp [facts]
    simpa [journal, told, Standing.replay] using names

/-- Whatever has become of the operations so far, their facts replayed are where the handle stands: they
give all its names, and nothing else gives the same. -/
theorem journalReplays {base : String} {first h : Handle} {past : List Occasion}
    (built : first.names = .ofBase base) (captures : first.sink.captures = true)
    (series : Series first past h) :
    h.names = (Standing.replay (journal past)).names base ∧
      ∀ s : Standing, h.names = s.names base → s = Standing.replay (journal past) := by
  have replays := series.replays built captures
  exact ⟨replays, fun s same => Standing.namesInjective base (same.symm.trans replays)⟩

theorem journalOfVanished :
    let first := Handle.ofBase "f"
    let opened := Call.startWrite.perform first { fs := .bare }
    let lost := { opened.world with fs := .bare }
    let closed := Call.failWrite.perform opened.handle lost
    let ended := Call.delete.perform closed.handle closed.world
    let opening : Occasion := ⟨.startWrite, first, { fs := .bare }⟩
    let failing : Occasion := ⟨.failWrite, opened.handle, lost⟩
    let deleting : Occasion := ⟨.delete, closed.handle, closed.world⟩
    Standing.replay (journal [opening]) = .pending opened.handle.names.staging ∧
      closed.result = .error .enoent ∧ Standing.replay (journal [opening, failing]) = .committed ∧
      Standing.replay (journal [opening, failing, deleting]) = .deleted ∧
      ended.handle.names = (Standing.replay (journal [opening, failing, deleting])).names "f" ∧
      ∀ s : Standing, ended.handle.names = s.names "f" →
        s = Standing.replay (journal [opening, failing, deleting]) := by
  intro first opened lost closed ended opening failing deleting
  have series : Series first [opening, failing, deleting] ended.handle :=
    .next (.next (.next .start .startWrite _) .failWrite lost) .delete closed.world
  exact ⟨by decide +kernel, by decide +kernel, by decide +kernel, by decide +kernel,
    journalReplays rfl rfl series⟩

end Occasion
end AtomicUpdate
