import AtomicUpdate.Proofs.Snapshot.Cycle

/-! Streams into temp files. A stream is opened on the temp file of its cycle, which is nobody else's, and
whatever is done with it afterwards changes the bytes of that file only. -/
namespace AtomicUpdate
open Fs (Poured)
open Path (Plain)

namespace Writer

theorem pushPours (wr : Writer) (fs : Fs) (data : Bytes) :
    Poured wr.file.ino fs (wr.push fs data).fs ∧ (wr.push fs data).writer.file.ino = wr.file.ino := by
  unfold push
  split
  · rename_i wrote
    exact ⟨Fs.writePoured wrote, rfl⟩
  · exact ⟨.refl _ fs, rfl⟩

theorem flushPours (wr : Writer) (fs : Fs) :
    Poured wr.file.ino fs (wr.flush fs).fs ∧ (wr.flush fs).writer.file.ino = wr.file.ino := by
  unfold flush
  split
  · exact ⟨.refl _ fs, rfl⟩
  · dsimp only
    split <;> exact wr.pushPours fs wr.buffer

theorem makeRoomPours (wr : Writer) (fs : Fs) (data : Bytes) :
    Poured wr.file.ino fs (wr.makeRoom fs data).fs ∧
      (wr.makeRoom fs data).writer.file.ino = wr.file.ino := by
  unfold makeRoom
  split
  · exact wr.flushPours fs
  · exact ⟨.refl _ fs, rfl⟩

theorem writePours (wr : Writer) (fs : Fs) (data : Bytes) :
    Poured wr.file.ino fs (wr.write fs data).fs ∧ (wr.write fs data).writer.file.ino = wr.file.ino := by
  obtain ⟨first, same⟩ := wr.makeRoomPours fs data
  unfold write
  dsimp only
  split
  · exact ⟨first, same⟩
  · split
    · obtain ⟨second, same'⟩ := (wr.makeRoom fs data).writer.pushPours (wr.makeRoom fs data).fs data
      exact ⟨first.trans (same ▸ second), same'.trans same⟩
    · exact ⟨first, same⟩

theorem dropPours (wr : Writer) (w : World) : Poured wr.file.ino w.fs (wr.drop w).fs :=
  (wr.flushPours w.fs).1

theorem closePours (wr : Writer) (w : World) : Poured wr.file.ino w.fs (wr.close w).2.fs := by
  obtain ⟨first, same⟩ := wr.flushPours w.fs
  have second := (wr.flush w.fs).writer.dropPours (w.withFs (wr.flush w.fs).fs)
  exact first.trans (same ▸ second)

end Writer

namespace Handle
variable {base : String} {kept : Ino → Prop} {k : Stakes} {w : World} {h : Handle}

inductive Streams (base : String) (kept : Ino → Prop) (k : Stakes) (h : Handle) (w : World) :
    Ran Writer → Prop where
  | refused {r e} (error : r.result = .error e) (names : r.handle.names = h.names)
      (sink : r.handle.sink = h.sink) (shelters : Shelters base kept k w.fs r.world.fs) :
      Streams base kept k h w r
  | unopened {r e} (s : Suffix) (error : r.result = .error e)
      (names : r.handle.names =
        (Names.ofBase base).openWith (Template.fill (Template.stemOf base) s))
      (sink : r.handle.sink = h.sink)
      (shelters : Shelters base kept
        { k with staged := fun n => k.staged n ∨ n = s.after (leafOf base) } w.fs r.world.fs) :
      Streams base kept k h w r
  | opened {r wr} (s : Suffix) (ok : r.result = .ok wr)
      (names : r.handle.names =
        (Names.ofBase base).openWith (Template.fill (Template.stemOf base) s))
      (sink : r.handle.sink = h.sink)
      (shelters : Shelters base kept
        ⟨fun n => k.staged n ∨ n = s.after (leafOf base), fun j => k.written j ∨ j = wr.file.ino⟩
        w.fs r.world.fs) : Streams base kept k h w r

theorem startWriteStreams (quiet : h.Quiet) (built : Over base h.names)
    (sheltered : Sheltered base kept k w.fs) : Streams base kept k h w (h.startWriteStream w) := by
  have begins := startWriteBegins quiet built sheltered
  unfold startWriteStream
  generalize h.startWrite w = r at begins
  dsimp only
  cases begins with
  | refused error names sink shelters =>
    rw [error]
    exact .refused rfl names sink shelters
  | opened s ok names sink shelters =>
    rw [ok]
    dsimp only
    rcases openTempExact (Template.fill (Template.stemOf base) s) r.world with
      ⟨e, failed, same⟩ | ⟨wr, opened, led, emptied⟩
    · exact .unopened s failed names sink (same ▸ shelters)
    · rw [tempPath] at led
      obtain ⟨d, home, entry⟩ := shelters.state.led (Or.inr rfl) led
      have pours := Fs.truncatePoured r.world.fs wr.file.ino
      have alike := pours.alike
      have sheltered' := shelters.state.poured pours (shelters.state.spared home (Or.inr rfl) entry)
      have keeps : Fs.Keeps (fun _ => False) r.world.fs (r.world.fs.truncate wr.file.ino) := alike.keeps
      refine .opened s opened names sink (shelters.trans ?_)
      rw [emptied]
      exact ⟨sheltered'.state.opened (home.kept keeps) (Or.inr rfl) ((alike.entry d _).trans entry),
        sheltered'.spares⟩

end Handle
end AtomicUpdate
