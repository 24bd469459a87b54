import AtomicUpdate.Proofs.Staged.Intact

/-! What a stream hands over to its file, call by call. As long as the file is there to be written, which an
open file always is, the calls of a stream change it by just that. -/
namespace AtomicUpdate
open Fs (Reworks)

def Edit.all (es : List Edit) (b : Bytes) : Bytes := es.foldl (fun b e => e.apply b) b

theorem Edit.allAppend (first second : List Edit) (b : Bytes) :
    Edit.all (first ++ second) b = Edit.all second (Edit.all first b) := by
  rw [all, all, all, List.foldl_append]

namespace Writer

def spill (wr : Writer) : List Edit := if wr.buffer = [] then [] else [.put wr.file.pos wr.buffer]

def edits (wr : Writer) : StreamCall → List Edit
  | .write data =>
      (if Limits.streamBuffer < wr.buffer.length + data.length then wr.spill else []) ++
        if Limits.streamBuffer ≤ data.length then [.put (wr.file.pos + wr.buffer.length) data] else []
  | .flush => wr.spill
  | .close => wr.spill
  | .drop => wr.spill

def emptied (wr : Writer) : Writer :=
  { wr with file := { wr.file with pos := wr.file.pos + wr.buffer.length }, buffer := [] }

theorem emptiedNone {wr : Writer} (none : wr.buffer = []) : wr.emptied = wr := by
  rcases wr with ⟨⟨ino, owner, pos⟩, path, buffer⟩
  cases none
  rfl

variable {fs : Fs} {wr : Writer} {b : Bytes} {m : Nat}

theorem pushReworks (file : fs.node? wr.file.ino = some (.file b m)) (data : Bytes) :
    ∃ fs', wr.push fs data =
        ⟨.ok (), { wr with file := { wr.file with pos := wr.file.pos + data.length } }, fs'⟩ ∧
      Reworks wr.file.ino (Edit.all [.put wr.file.pos data]) fs fs' := by
  obtain ⟨fs', m', wrote, only, after, rights, _⟩ := Fs.writeFile file wr.file.pos data
  refine ⟨fs', ?_, .ofFile only file after rights⟩
  rw [push, wrote]

theorem flushReworks (file : fs.node? wr.file.ino = some (.file b m)) :
    ∃ fs', wr.flush fs = ⟨.ok (), wr.emptied, fs'⟩ ∧
      Reworks wr.file.ino (Edit.all wr.spill) fs fs' := by
  unfold flush spill
  by_cases none : wr.buffer = []
  · rw [if_pos (by rw [none]; rfl), if_pos none, emptiedNone none]
    exact ⟨fs, rfl, .refl _ fs⟩
  · obtain ⟨fs', pushed, reworks⟩ := pushReworks file wr.buffer
    rw [if_neg (by simpa using none), if_neg none, pushed]
    exact ⟨fs', rfl, reworks⟩

theorem writeReworks (file : fs.node? wr.file.ino = some (.file b m)) (data : Bytes) :
    Reworks wr.file.ino (Edit.all (wr.edits (.write data))) fs (wr.write fs data).fs := by
  -- The room that is made for the data, and then the data themselves where they are too many.
  have roomy : ∃ wr' fs', wr.makeRoom fs data = ⟨.ok (), wr', fs'⟩ ∧ wr'.file.ino = wr.file.ino ∧
      (Limits.streamBuffer ≤ data.length → wr'.file.pos = wr.file.pos + wr.buffer.length) ∧
      Reworks wr.file.ino (Edit.all (if Limits.streamBuffer < wr.buffer.length + data.length
        then wr.spill else [])) fs fs' := by
    unfold makeRoom
    split
    · obtain ⟨fs', flushed, reworks⟩ := flushReworks file
      exact ⟨wr.emptied, fs', flushed, rfl, fun _ => rfl, reworks⟩
    · rename_i fits
      exact ⟨wr, fs, rfl, rfl, fun many => by omega, .refl _ fs⟩
  obtain ⟨wr', fs', made, ino, pos, first⟩ := roomy
  unfold write edits
  rw [made]
  dsimp only
  by_cases many : Limits.streamBuffer ≤ data.length
  · rw [if_pos many, if_pos many]
    obtain ⟨m', file', _⟩ := first.file file
    rw [← ino] at file'
    obtain ⟨fs'', pushed, second⟩ := pushReworks file' data
    rw [pushed]
    rw [ino, pos many] at second
    exact (first.trans second).congr fun b => (Edit.allAppend _ _ b).symm
  · rw [if_neg many, if_neg many, List.append_nil]
    exact first

theorem callReworks {w : World} (file : w.fs.node? wr.file.ino = some (.file b m)) (call : StreamCall) :
    Reworks wr.file.ino (Edit.all (wr.edits call)) w.fs (wr.call w call).2.fs := by
  obtain ⟨fs', flushed, reworks⟩ := flushReworks file
  cases call with
  | write data => exact writeReworks file data
  | flush =>
    change Reworks _ _ w.fs (wr.flush w.fs).fs
    rw [flushed]
    exact reworks
  | close =>
    -- The stream that is let go has an empty buffer by then.
    change Reworks _ _ w.fs ((wr.flush w.fs).writer.flush (wr.flush w.fs).fs).fs
    rw [flushed]
    exact reworks
  | drop =>
    change Reworks _ _ w.fs (wr.flush w.fs).fs
    rw [flushed]
    exact reworks

end Writer
end AtomicUpdate
