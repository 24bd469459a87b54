import AtomicUpdate.Proofs.Handle.Journal
import AtomicUpdate.Proofs.Snapshot.Ending

/-! How an operation reports itself. Once all else is done it tells one fact, and a failure in an audit
line before the fact as well. Only a commit that copied has more to say, in an audit line after it. -/
namespace AtomicUpdate
open Json (Value)

namespace Sink

def passes (s : Sink) (e : Event) : Option Event :=
  if s.captures then some e
  else match e with
    | .fact _ => none
    | .audit level message => some (.auditLog level message)
    | e => some e

def warnings {α : Type} (stage : Stage) (path : String) : Except Errno α → List Event
  | .ok _ => []
  | .error e => [.audit .warn (failureLine stage path e)]

variable {α : Type}

theorem factEvents (s : Sink) (f : Fact) (w : World) :
    (s.fact f w).events = w.events ++ [Event.fact f].filterMap s.passes := by
  unfold fact passes
  split <;> simp_all [World.withFs, World.emit]

theorem auditEvents (s : Sink) (level : Level) (message : String) (w : World) :
    (s.audit level message w).events = w.events ++ [Event.audit level message].filterMap s.passes := by
  unfold audit passes
  split <;> simp_all [World.emit]

theorem reportEvents (s : Sink) (stage : Stage) (path : String) (details : Value)
    (result : Except Errno α) (w : World) : ∃ time,
      (s.report stage path details result w).events = w.events ++
        (warnings stage path result ++ [Event.fact (Fact.ofOutcome stage path details result time)]).filterMap
          s.passes := by
  refine ⟨Clock.text w.clock, ?_⟩
  cases result with
  | ok a => exact s.factEvents _ w
  | error e =>
    have told := s.factEvents (Fact.ofOutcome stage path details (.error e : Except Errno α)
      (Clock.text w.clock)) (s.audit .warn (failureLine stage path e) w)
    rw [s.auditEvents, List.append_assoc, ← List.filterMap_append] at told
    exact told

end Sink

structure Fact.Tells (f : Fact) (stage : Stage) (path : String) (details : Value)
    (result : Except Errno Unit) : Prop where
  event : f.event = stage.event
  stage : f.fields.get? "stage" = some (.string stage.event)
  decision : f.fields.get? "decision" = some (.string f.decision.text)
  success : f.decision = .success ↔ result = .ok ()
  path : f.fields.get? "path" = some (.string path)
  details : f.fields.get? "details" = some details
  clear : result = .ok () → ∀ key ∈ ["errno", "error_code", "error_message"], f.fields.get? key = none
  cause : ∀ e, result = .error e → f.fields.get? "errno" = some (.int e.number) ∧
    f.fields.get? "error_code" = some (.int e.code) ∧
    f.fields.get? "error_message" = some (.string e.message)

theorem Fact.outcomeTells {α : Type} (stage : Stage) (path : String) (details : Value)
    (result : Except Errno α) (time : String) :
    (ofOutcome stage path details result time).Tells stage path details (result.map fun _ => ()) := by
  cases result with
  | ok a =>
    constructor <;> simp [ofOutcome, event, Draft.emit, Draft.field, Draft.path, Draft.start, Except.map]
  | error e =>
    constructor <;>
      simp [ofOutcome, event, Draft.emit, Draft.error, Draft.failure, Failure.of, Draft.field, Draft.path, Draft.start, Except.map]

theorem Commit.runDegraded {temp base : Path} {allowCopy : Bool} {force : Option Bool} {w w' : World}
    {done : Committed} (ran : run temp base allowCopy force w = (.ok done, w')) :
    done.degraded = force.getD (forcedByEnv w.env) := by
  have ended := running temp base allowCopy force w
  rw [ran] at ended
  cases ended with
  | renamed _ free => exact free.symm
  | copied _ crosses => exact crosses.symm

theorem Handle.commitCycleDegraded {h : Handle} {w : World} {done : Committed}
    (ok : (h.commitCycle w).result = .ok done) : done.degraded = h.forced w := by
  have ended := h.committing w
  generalize h.commitCycle w = r at ended ok
  cases ended with
  | done pending flushed committed =>
    cases ok
    exact Commit.runDegraded committed
  | _ => cases ok

namespace Call

def stage : Call → Stage
  | .startWrite | .startWriteStream => .startWrite
  | .finishWrite => .finishWrite
  | .failWrite => .failWrite
  | .delete => .delete
  | .getBaseFile | .readFully | .openRead => .read

inductive Details (h : Handle) (w : World) (r : Ran Unit) : Call → Value → Prop where
  | startWrite : Details h w r .startWrite r.handle.tempDetail
  | finished (ok : r.result = .ok ()) (ms : Nat) :
      Details h w r .finishWrite (.object [("degraded", .bool (h.forced w)), ("fsync_ms", .int ms)])
  | unfinished (e : Errno) (failed : r.result = .error e) : Details h w r .finishWrite r.handle.tempDetail
  | failWrite : Details h w r .failWrite h.tempDetail
  | delete : Details h w r .delete
      (.object [("base_path", .string h.names.base), ("temp_path", .string h.names.staging)])
  | getBaseFile : Details h w r .getBaseFile (Handle.readDetail "get_base_file")
  | readAll (bytes : Bytes) (ok : (h.readFully w).result = .ok bytes) : Details h w r .readFully
      (.object [("op", .string "read_fully"), ("length", .int bytes.length)])
  | unread (e : Errno) (failed : r.result = .error e) :
      Details h w r .readFully (Handle.readDetail "read_fully")
  | openRead : Details h w r .openRead (Handle.readDetail "open_read")

def aftermath (c : Call) (h : Handle) (w : World) (result : Except Errno Unit) : List Event :=
  if c = .finishWrite ∧ result = .ok () ∧ h.forced w = true then
    [.audit .warn s!"degraded commit (copy fallback) for {h.names.base}"]
  else []

structure Reports (c : Call) (h : Handle) (w : World) (r : Ran Unit) (f : Fact) (details : Value) : Prop where
  tells : f.Tells c.stage h.names.base details r.result
  details : c.Details h w r details
  events : ∃ lines, (∀ e ∈ lines, e.tells = false) ∧ r.world.events = w.events ++ lines ++
    (Sink.warnings c.stage h.names.base r.result ++ [Event.fact f] ++ c.aftermath h w r.result).filterMap
      h.sink.passes

variable {α : Type} {h : Handle} {w : World}

theorem warningsEnded (stage : Stage) (path : String) (result : Except Errno α) :
    Sink.warnings stage path (result.map fun _ => ()) = Sink.warnings stage path result := by
  cases result <;> rfl

theorem unitMapped (result : Except Errno Unit) : (result.map fun _ => ()) = result := by
  cases result <;> rfl

theorem Reports.last {c : Call} {r : Ran α} {s : Ran Unit} {details : Value} (untold : w.Untold r.world)
    (sink : r.handle.sink = h.sink) (said : c.Details h w s details)
    (result : s.result = r.result.map fun _ => ())
    (events : s.world.events = (r.reported c.stage h.names.base details).world.events ++
      (c.aftermath h w s.result).filterMap h.sink.passes) : ∃ f, c.Reports h w s f details := by
  obtain ⟨lines, silent, before⟩ := untold
  obtain ⟨time, told⟩ := r.handle.sink.reportEvents c.stage h.names.base details r.result r.world
  have tells := Fact.outcomeTells c.stage h.names.base details r.result time
  rw [← result] at tells
  refine ⟨_, tells, said, lines, silent, ?_⟩
  change _ = (r.handle.sink.report c.stage h.names.base details r.result r.world).events ++ _ at events
  rw [events, told, before, sink, result, warningsEnded, List.append_assoc, ← List.filterMap_append]

end Call
namespace Handle
variable {h : Handle} {w : World}

theorem openCycleBase (h : Handle) (w : World) : (h.openCycle w).handle.names.base = h.names.base := by
  have taken := congrArg Names.base (h.takeGuardNames w)
  have ended := h.opening w
  generalize h.openCycle w = r at ended
  cases ended with
  | busy pending => rfl
  | _ => exact taken

theorem commitCycleBase (h : Handle) (w : World) : (h.commitCycle w).handle.names.base = h.names.base := by
  have ended := h.committing w
  generalize h.commitCycle w = r at ended
  cases ended <;> rfl

theorem rollBackBase (h : Handle) (w : World) : (h.rollBack w).handle.names.base = h.names.base := by
  have ended := h.rollingBack w
  generalize h.rollBack w = r at ended
  cases ended <;> rfl

theorem startWriteReported (h : Handle) (w : World) : h.startWrite w =
    (h.openCycle w).reported .startWrite h.names.base (h.openCycle w).handle.tempDetail := by
  have base := h.openCycleBase w
  have ended := h.opening w
  unfold startWrite
  generalize h.openCycle w = r at ended base
  cases ended with
  | opened idle granted created => rw [← base]; rfl
  | _ => rw [← base]

theorem startWriteReports (h : Handle) (w : World) : ∃ f details,
    Call.startWrite.Reports h w (h.startWrite w).ended f details := by
  rw [startWriteReported]
  obtain ⟨f, reports⟩ := Call.Reports.last
    (s := ((h.openCycle w).reported .startWrite h.names.base (h.openCycle w).handle.tempDetail).ended)
    (h.openCycleUntold w) (h.openCycleSink w) .startWrite rfl (List.append_nil _).symm
  exact ⟨f, _, reports⟩

theorem finishWriteFailed {e : Errno} (failed : (h.commitCycle w).result = .error e) :
    (h.finishWrite w).world = ((h.commitCycle w).reported .finishWrite h.names.base
      (h.commitCycle w).handle.tempDetail).world := by
  have base := h.commitCycleBase w
  unfold finishWrite
  generalize h.commitCycle w = r at failed base
  obtain ⟨result, h', w'⟩ := r
  cases failed
  rw [← base]
  rfl

theorem finishWriteLines {done : Committed} (ok : (h.commitCycle w).result = .ok done) :
    (h.finishWrite w).world.events = ((h.commitCycle w).reported .finishWrite h.names.base (.object
        [("degraded", .bool done.degraded), ("fsync_ms", .int done.duration)])).world.events ++
      (if done.degraded then [Event.audit .warn s!"degraded commit (copy fallback) for {h.names.base}"]
        else []).filterMap h.sink.passes := by
  rw [← h.commitCycleBase w, ← h.commitCycleSink w]
  unfold finishWrite
  generalize h.commitCycle w = r at ok
  obtain ⟨result, h', w'⟩ := r
  cases ok
  obtain ⟨degraded, duration⟩ := done
  cases degraded with
  | false => exact (List.append_nil _).symm
  | true => exact h'.sink.auditEvents _ _ _

theorem finishWriteReports (h : Handle) (w : World) : ∃ f details,
    Call.finishWrite.Reports h w (h.finishWrite w) f details := by
  have untold := (h.commitCycleEnding w).untold
  have sink := h.commitCycleSink w
  have result := h.finishWriteResult w
  cases ended : (h.commitCycle w).result with
  | error e =>
    have failed : (h.finishWrite w).result = .error e := by rw [result, ended]; rfl
    have nothing : Call.finishWrite.aftermath h w (h.finishWrite w).result = [] := by
      rw [failed]
      exact if_neg fun both => nomatch both.2.1
    obtain ⟨f, reports⟩ := Call.Reports.last untold sink (.unfinished e failed) result
      (by rw [nothing, finishWriteFailed ended]; exact (List.append_nil _).symm)
    exact ⟨f, _, reports⟩
  | ok done =>
    have ok : (h.finishWrite w).result = .ok () := by rw [result, ended]; rfl
    have degraded := commitCycleDegraded ended
    have after : Call.finishWrite.aftermath h w (h.finishWrite w).result = if done.degraded then
        [Event.audit .warn s!"degraded commit (copy fallback) for {h.names.base}"] else [] := by
      rw [ok, degraded]
      simp [Call.aftermath]
    obtain ⟨f, reports⟩ := Call.Reports.last untold sink (.finished ok done.duration) result
      (by rw [after, finishWriteLines ended, ← degraded]; rfl)
    exact ⟨f, _, reports⟩

theorem failWriteReports (h : Handle) (w : World) : ∃ f details,
    Call.failWrite.Reports h w (h.failWrite w) f details := by
  have same : h.failWrite w = (h.rollBack w).reported .failWrite h.names.base h.tempDetail := by
    rw [← h.rollBackBase w]
    rfl
  rw [same]
  obtain ⟨f, reports⟩ := Call.Reports.last
    (s := (h.rollBack w).reported .failWrite h.names.base h.tempDetail)
    (h.rollBackEnding w).untold (h.rollBackSink w) .failWrite (Call.unitMapped _).symm
    (List.append_nil _).symm
  exact ⟨f, _, reports⟩

theorem deleteReports (h : Handle) (w : World) : ∃ f details,
    Call.delete.Reports h w (h.delete w) f details := by
  obtain ⟨f, reports⟩ := Call.Reports.last (s := h.delete w) (h.retireEnding w).untold (h.retireSink w)
    .delete (Call.unitMapped _).symm (List.append_nil _).symm
  exact ⟨f, _, reports⟩

theorem readReports {α : Type} {c : Call} {h : Handle} {w w' : World} (reads : c.stage = .read)
    (looked : w.Looked w') {result : Except Errno α} {details : Value}
    (said : c.Details h w ((Ran.mk result h w').reported .read h.names.base details).ended details) :
    ∃ f details', c.Reports h w ((Ran.mk result h w').reported .read h.names.base details).ended f details' := by
  have nothing : c.aftermath h w (result.map fun _ => ()) = [] := by
    refine if_neg fun both => ?_
    rw [both.1] at reads
    cases reads
  rw [← reads] at said ⊢
  have events : ((Ran.mk result h w').reported c.stage h.names.base details).world.events =
      ((Ran.mk result h w').reported c.stage h.names.base details).world.events ++
        (c.aftermath h w (result.map fun _ => ())).filterMap h.sink.passes := by
    rw [nothing]
    exact (List.append_nil _).symm
  obtain ⟨f, reports⟩ := Call.Reports.last (r := Ran.mk result h w') looked.aside.untold rfl said rfl events
  exact ⟨f, _, reports⟩

theorem getBaseFileReports (h : Handle) (w : World) : ∃ f details,
    Call.getBaseFile.Reports h w (h.getBaseFile w).ended f details :=
  readReports rfl (h.openBaseLooks w) .getBaseFile

theorem openReadReports (h : Handle) (w : World) : ∃ f details,
    Call.openRead.Reports h w (h.openRead w).ended f details :=
  readReports rfl (h.openReaderLooks w) .openRead

theorem readFullyReports (h : Handle) (w : World) : ∃ f details,
    Call.readFully.Reports h w (h.readFully w).ended f details := by
  have looked := h.readContentsLooks w
  cases read : h.readContents w with
  | mk result w' =>
    rw [read] at looked
    cases result with
    | error e =>
      have told : h.readFully w =
          (Ran.mk (.error e) h w').reported .read h.names.base (readDetail "read_fully") := by
        rw [readFully, read]
      rw [told]
      exact readReports rfl looked (.unread e rfl)
    | ok bytes =>
      have told : h.readFully w = (Ran.mk (.ok bytes) h w').reported .read h.names.base
          (.object [("op", .string "read_fully"), ("length", .int bytes.length)]) := by
        rw [readFully, read]
      rw [told]
      exact readReports rfl looked (.readAll bytes (congrArg Ran.result told))

end Handle

theorem Call.tellsOutcome (c : Call) (h : Handle) (w : World) (whole : c ≠ .startWriteStream) :
    ∃ f details, c.Reports h w (c.perform h w) f details := by
  cases c with
  | startWrite => exact h.startWriteReports w
  | startWriteStream => exact absurd rfl whole
  | finishWrite => exact h.finishWriteReports w
  | failWrite => exact h.failWriteReports w
  | delete => exact h.deleteReports w
  | getBaseFile => exact h.getBaseFileReports w
  | readFully => exact h.readFullyReports w
  | openRead => exact h.openReadReports w

theorem Call.tellsOfCopy :
    let first := { Handle.ofBase "f" with policy := .relaxed, forceExdev := some true }
    let opened := Call.startWrite.perform first { fs := .bare }
    let done := Call.finishWrite.perform opened.handle opened.world
    done.result = .ok () ∧ opened.handle.forced opened.world = true ∧
      ∃ f details, Call.finishWrite.Reports opened.handle opened.world done f details := by
  intro first opened done
  exact ⟨by decide +kernel, by decide +kernel, Call.tellsOutcome .finishWrite opened.handle opened.world (by decide)⟩

end AtomicUpdate
