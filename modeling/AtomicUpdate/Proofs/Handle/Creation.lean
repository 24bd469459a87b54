import AtomicUpdate.Proofs.Fs.Calls
import AtomicUpdate.Proofs.Handle.Outcome
import AtomicUpdate.Proofs.Naming

/-! Making a temp file: either nothing is made, or an empty file under a name drawn for the template,
which led to nothing before. A writer that is opened on it empties it once more. -/
namespace AtomicUpdate.Handle

theorem createTempExact (h : Handle) (w : World) :
    (∃ drawn events, h.createTemp w = (.error .enoent, { w with drawn, events })) ∨
      ∃ stem k d n s drawn, Template.stem? h.names.staging = some stem ∧
        0 ∉ Path.ofString (Files.drawName stem w k) ∧
        w.fs.locate .creatingNew (Path.ofString (Files.drawName stem w k)) = .ok ⟨.vacant d n, s⟩ ∧
        w.fs.permits d .write = true ∧ h.createTemp w =
          (.ok (Files.drawName stem w k), { w with fs := w.fs.born d n 0o600, drawn }) := by
  unfold createTemp
  split
  · exact Or.inl ⟨w.drawn, _, rfl⟩
  · unfold Files.createFrom
    cases template : Template.stem? h.names.staging with
    | none => exact Or.inl ⟨w.drawn, _, rfl⟩
    | some stem =>
      dsimp only
      have drawing := Files.drawing stem Limits.attempts w
      generalize Files.createUnique stem Limits.attempts w = ended at drawing
      cases drawing with
      | @made k i fs bound taken free =>
        obtain ⟨_, clean, free⟩ := bindOk free
        obtain ⟨_, d, n, s, located, write, rfl⟩ := Fs.createNewExact free
        exact Or.inr ⟨stem, k, d, n, s, w.drawn + k + 1, rfl, Path.noneForbidden clean, located, write,
          rfl⟩
      | failed bound taken refused other => exact Or.inl ⟨_, _, rfl⟩
      | crowded taken => exact Or.inl ⟨_, _, rfl⟩

theorem openTempExact (temp : String) (w : World) :
    (∃ e, (openTemp temp w).1 = .error e ∧ (openTemp temp w).2.fs = w.fs) ∨
      ∃ wr, (openTemp temp w).1 = .ok wr ∧ w.fs.lookup (Path.ofString temp) = .ok wr.file.ino ∧
        (openTemp temp w).2.fs = w.fs.truncate wr.file.ino := by
  unfold openTemp
  dsimp only
  cases opened : Files.openTruncate w.fs (Path.ofString temp) with
  | error e => exact Or.inl ⟨e, rfl, rfl⟩
  | ok made =>
    obtain ⟨_, _, opened⟩ := bindOk opened
    obtain ⟨i, led, opened⟩ := bindOk opened
    split at opened
    · cases opened
    · obtain ⟨_, _, same⟩ := bindOk opened
      cases same
      exact Or.inr ⟨_, rfl, led, rfl⟩

end AtomicUpdate.Handle
