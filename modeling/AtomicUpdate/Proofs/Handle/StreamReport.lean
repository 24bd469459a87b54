import AtomicUpdate.Proofs.Handle.Begin
import AtomicUpdate.Proofs.Handle.Report

/-! What is told of a start that opens a stream as well. It tells of the start alone: that has gone through by
the time its temp file is opened, so where somebody takes the file away in between, all that tells of a
success while the operation fails. With nobody in between the file is there, and no failure goes untold. -/
namespace AtomicUpdate
open Path (Proper)

namespace Fs
variable {fs : Fs} {pre n : Path} {d : Ino}

theorem bornOpens (home : fs.Home pre d) (proper : Proper pre n) (free : fs.named? d n = none) :
    ∃ i fs', Files.openTruncate (fs.born d n 0o600) (pre ++ n) = .ok (i, fs') := by
  have holds := bornHolds home.dir n 0o600
  have led := (home.kept (keepsBorn (fun _ => True) free 0o600)).lookup proper holds.entry
    (notInner holds.outer).2
  have write : (fs.born d n 0o600).demand fs.nodes.size .write = .ok () := holds.demand (by decide)
  refine ⟨fs.nodes.size, (fs.born d n 0o600).truncate fs.nodes.size, ?_⟩
  rw [Files.openTruncate, Path.forbidNone _ proper.noNul]
  change (fs.born d n 0o600).openTruncate (pre ++ n) = _
  rw [openTruncate, led]
  change (if (fs.born d n 0o600).isDir fs.nodes.size then .error .eisdir else
    (fs.born d n 0o600).demand fs.nodes.size .write >>= fun _ => _) = _
  rw [(notInner holds.outer).1, if_neg Bool.false_ne_true, write]
  rfl

end Fs
namespace Handle
variable {base : String} {h : Handle} {w : World}

theorem startWriteStreamTold (h : Handle) (w : World) : ∃ after, (∀ e ∈ after, e.logs = true) ∧
    (h.startWriteStream w).world.events = (h.startWrite w).world.events ++ after := by
  cases started : (h.startWrite w).result with
  | error e =>
    rw [startWriteStreamRefused started]
    exact ⟨[], fun _ mem => absurd mem List.not_mem_nil, (List.append_nil _).symm⟩
  | ok temp =>
    rw [startWriteStreamOpens started]
    exact (openTempAside temp _).logged

theorem startedStreams (built : Over base h.names) (quiet : h.Quiet) {temp : String}
    (started : (h.startWrite w).result = .ok temp) : ∃ writer, (h.startWriteStream w).result = .ok writer := by
  have begun := openCycleBegun (w := w) built
  have opened : (h.openCycle w).result = .ok temp := started
  have same : (h.startWrite w).world.fs = (h.openCycle w).world.fs :=
    reportedFs (quiet.same (h.openCycleSink w)) _ _ _
  rw [startWriteStreamOpens started]
  cases begun with
  | refused error names sink gains => cases opened.symm.trans error
  | opened s idle ok names sink gains home proper free write made =>
    cases opened.symm.trans ok
    obtain ⟨i, fs', opens⟩ := Fs.bornOpens home proper free
    rw [← made, ← same, ← tempPath] at opens
    unfold openTemp
    dsimp only
    rw [opens]
    exact ⟨_, rfl⟩

/-- Opening a stream tells just what the start of the cycle has come to, and a failure to open the temp file
goes untold. It comes to that only where somebody was at the files when the start was told of. -/
theorem startWriteStreamTells (built : Over base h.names) (w : World) :
    (∀ e, (h.startWrite w).result = .error e → (h.startWriteStream w).result = .error e) ∧
      (∀ writer, (h.startWriteStream w).result = .ok writer → ∃ temp, (h.startWrite w).result = .ok temp) ∧
      (h.Quiet → ∀ e, (h.startWriteStream w).result = .error e → (h.startWrite w).result = .error e) ∧
      ∃ f details after, Call.startWrite.Reports h w (h.startWrite w).ended f details ∧
        (∀ e ∈ after, e.logs = true) ∧
        (h.startWriteStream w).world.events = (h.startWrite w).world.events ++ after := by
  refine ⟨fun e refused => by rw [startWriteStreamRefused refused], fun writer opened => ?_,
    fun quiet e failed => ?_, ?_⟩
  · cases started : (h.startWrite w).result with
    | ok temp => exact ⟨temp, rfl⟩
    | error e =>
      rw [startWriteStreamRefused started] at opened
      cases opened
  · cases started : (h.startWrite w).result with
    | ok temp =>
      obtain ⟨writer, opened⟩ := startedStreams built quiet started
      cases failed.symm.trans opened
    | error e' =>
      rw [startWriteStreamRefused started] at failed
      cases failed
      rfl
  · obtain ⟨f, details, reports⟩ := h.startWriteReports w
    obtain ⟨after, logs, events⟩ := h.startWriteStreamTold w
    exact ⟨f, details, after, reports, logs, events⟩

theorem streamRefusalTold :
    let h := Handle.ofBase "d/f"
    let w : World := { fs := .bare }
    (h.startWrite w).result = .error .enoent ∧ (h.startWriteStream w).result = .error .enoent ∧
      ∃ f details, Call.startWrite.Reports h w (h.startWrite w).ended f details := by
  intro h w
  have started : (h.startWrite w).result = .error .enoent := by decide +kernel
  obtain ⟨refused, _, _, f, details, _, reports, _⟩ := startWriteStreamTells (h := h) .live w
  exact ⟨started, refused _ started, f, details, reports⟩

theorem lostStreamUntold :
    let h := { Handle.ofBase "f" with sink := { react := fun _ _ => .bare } }
    let r := h.startWriteStream { fs := .bare }
    r.ended.result = .error .enoent ∧ r.world.facts.map Fact.decision = [.success] ∧
      (r.world.events.filter Event.tells).length = 1 := by
  decide +kernel

end Handle
end AtomicUpdate
