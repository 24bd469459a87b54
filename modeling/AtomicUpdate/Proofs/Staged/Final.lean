import AtomicUpdate.Proofs.Staged.Aging
import AtomicUpdate.Proofs.Staged.Settled

/-! What a commit makes of the base: the file that was staged, for good. Reads of the base give the bytes that
had been staged then, until the base is replaced or deleted or a stream hands over what it had kept back. -/
namespace AtomicUpdate
open Path (Plain Proper)

namespace Handle
variable {base : String} {h : Handle} {w : World}

theorem commitRenames (uncopied : ¬ h.Copies w) (done : (h.finishWrite w).result = .ok ()) :
    ∃ temp t b d fs, h.names.temp? = some temp ∧
      Commit.prepare w.fs (Path.ofString temp) h.names.basePath = .ok (t, b, d) ∧
      w.fs.renameIn d t b = .ok fs ∧ (h.commitCycle w).world.fs = fs ∧
      (h.commitCycle w).handle.names = h.names.closed := by
  obtain ⟨temp, committed, w', pending, flushed, ran, cycle⟩ := committedBy done
  rw [cycle]
  rcases commitToRenames uncopied pending flushed with ⟨_, same⟩ | ⟨t, b, d, fs, _, ready, renamed, same⟩
  · cases ran.symm.trans same
  · cases ran.symm.trans same
    exact ⟨temp, t, b, d, fs, pending, ready, renamed, h.endCycleFs _, rfl⟩

theorem renameHome {s : Suffix} (plain : Plain (leafOf base)) {t b : Name} {d : Ino} {fs : Fs}
    (ready : Commit.prepare w.fs (Path.ofString (Template.fill (Template.stemOf base) s))
      (Path.ofString base) = .ok (t, b, d))
    (renamed : w.fs.renameIn d t b = .ok fs) :
    t = s.after (leafOf base) ∧ b = leafOf base ∧ w.fs.Home (folderOf base) d := by
  rw [tempPath, AtomicUpdate.basePath] at ready
  obtain ⟨rfl, rfl, led⟩ := Commit.prepared plain (afterPlain base s) ready
  obtain ⟨_, child, _⟩ := bindOk renamed
  exact ⟨rfl, rfl, Fs.homeOfFolder (folderEnds base) plain led child⟩

end Handle

theorem Fs.renamedHome {fs fs' : Fs} {pre : Path} {d i : Ino} {old new : Name} {c : Bytes} {m : Nat}
    (home : fs.Home pre d) (holds : fs.Holds d old i c m) (renamed : fs.renameIn d old new = .ok fs') :
    (∀ e, fs'.Home pre e → fs'.named? e new = some i) ∧ fs'.node? i = some (.file c m) := by
  rcases renameExact renamed with ⟨rfl, j, first, second⟩ | ⟨j, first, _, _, rfl⟩
  · cases first.symm.trans holds.entry
    refine ⟨fun e home' => ?_, holds.file⟩
    cases home'.unique home
    exact second
  · cases first.symm.trans holds.entry
    refine ⟨fun e home' => ?_, fileUpdateDir _ holds.file⟩
    cases ((Recedes.move holds.outer).home home').unique home
    rw [entryMove home.dir, if_pos rfl, if_pos rfl]

namespace Bench
variable {base : String} {b b' : Bench}

theorem Sound.callTidy (sound : Sound base b) (tidy : b.world.fs.Tidy) {c : Call} :
    (c.perform b.handle b.world).world.fs.Tidy := by
  have quiet := sound.quiet
  have started := (Handle.openCycleAges sound.held.built tidy).tidy
  rw [← Handle.startWriteFs quiet] at started
  cases c with
  | startWrite => exact started
  | startWriteStream =>
    change (b.handle.startWriteStream b.world).world.fs.Tidy
    cases opened : (b.handle.startWrite b.world).result with
    | error e =>
      rw [Handle.startWriteStreamRefused opened]
      exact started
    | ok temp =>
      rw [Handle.startWriteStreamOpens opened]
      exact (Handle.openTempAges temp started).tidy
  | finishWrite =>
    change (b.handle.finishWrite b.world).world.fs.Tidy
    rw [Handle.finishWriteFs quiet]
    exact Handle.commitCycleTidy tidy
  | failWrite =>
    change (b.handle.failWrite b.world).world.fs.Tidy
    rw [Handle.failWriteFs quiet]
    exact (Handle.rollBackAges tidy).tidy
  | delete =>
    change (b.handle.delete b.world).world.fs.Tidy
    rw [Handle.deleteFs quiet]
    exact (Handle.retireAges tidy).tidy
  | getBaseFile => exact (Handle.readFs quiet b.world).1.symm ▸ tidy
  | readFully => exact (Handle.readFs quiet b.world).2.1.symm ▸ tidy
  | openRead => exact (Handle.readFs quiet b.world).2.2.symm ▸ tidy

theorem Sound.tidy (sound : Sound base b) (tidy : b.world.fs.Tidy) {t : Turn} (may : b.Undisturbed t) :
    (b.turn t).world.fs.Tidy := by
  cases t with
  | call c => exact sound.callTidy tidy
  | edit e =>
    change (b.edit e).world.fs.Tidy
    unfold Bench.edit
    split
    · exact tidy
    · rename_i temp pending
      change (e.perform (Path.ofString temp) b.world.fs).Tidy
      rcases e.pours (Path.ofString temp) b.world.fs with same | ⟨j, _, poured⟩
      · rw [same]
        exact tidy
      · exact poured.tidy tidy
  | stream k call =>
    change (b.stream k call).world.fs.Tidy
    unfold Bench.stream
    split
    · exact tidy
    · rename_i x is
      exact (x.writer.callPours b.world call).1.tidy tidy
  | others w =>
    have same : w.fs = b.world.fs := may
    exact same.symm ▸ tidy

theorem Fresh.ready {first : Bench} (fresh : Fresh base first) (tidy : first.world.fs.Tidy)
    (run : Run Renaming first b) : Sound base b ∧ b.world.fs.Tidy := by
  induction run with
  | refl => exact ⟨fresh.sound, tidy⟩
  | turn run t may ih => exact ⟨ih.1.turn may.undisturbed, ih.1.tidy ih.2 may.undisturbed⟩

theorem Sound.settled (sound : Sound base b) (tidy : b.world.fs.Tidy) (plain : Plain (leafOf base))
    (uncopied : ¬ b.handle.Copies b.world) (done : (b.handle.finishWrite b.world).result = .ok ()) :
    ∃ i, Settled base b.tally.cycles i (b.call .finishWrite).world.fs b.tally.staged
        (b.call .finishWrite) ∧ Proper (folderOf base) (leafOf base) ∧
      ∀ d, (b.call .finishWrite).world.fs.Home (folderOf base) d →
        (b.call .finishWrite).world.fs.named? d (leafOf base) = some i := by
  have sound' := sound.call .finishWrite
  have tidy' : (b.call .finishWrite).world.fs.Tidy := sound.callTidy tidy
  obtain ⟨temp, t, n, d, fs, pending, ready, renamed, files, names⟩ := Handle.commitRenames uncopied done
  rw [← Handle.finishWriteFs sound.quiet] at files
  have idle : (b.call .finishWrite).handle.names.temp? = none := by
    change (b.handle.commitCycle b.world).handle.names.temp? = none
    rw [names]
    rfl
  have held := sound.held
  generalize b.handle.names = now at held pending ready
  have inFolder : ∀ {s}, now = .writing base s → t = s.after (leafOf base) ∧ n = leafOf base ∧
      b.world.fs.Home (folderOf base) d := by
    rintro s rfl
    cases pending
    exact Handle.renameHome plain ready renamed
  cases held with
  | idle built idle => cases pending.symm.trans idle
  | lost s spoilt lacks =>
    obtain ⟨rfl, rfl, home⟩ := inFolder rfl
    have gone := lacks d home
    rcases Fs.renameExact renamed with ⟨_, i, entry, _⟩ | ⟨i, entry, _⟩
    · cases gone.symm.trans entry
    · cases gone.symm.trans entry
  | @writing d' i m s kept intact mine =>
    obtain ⟨rfl, rfl, home⟩ := inFolder rfl
    cases home.unique intact.home
    obtain ⟨entry, file⟩ := Fs.renamedHome home intact.holds renamed
    rw [← files] at entry file
    rw [callOther rfl (by decide)] at sound' tidy' idle ⊢
    refine ⟨i, ?_, intact.proper.shorter plain, entry⟩
    exact {
      sound := sound'
      kept := kept
      late := Nat.le_refl _
      beside := .refl tidy'
      file := ⟨m, file⟩
      mine := mine
      apart := by
        intro s' e writing
        rw [writing] at idle
        cases idle }

theorem Settled.contents {n : Nat} {i : Ino} {first : Fs} {c : Bytes} (settled : Settled base n i first c b)
    (proper : Proper (folderOf base) (leafOf base))
    (entry : ∀ d, first.Home (folderOf base) d → first.named? d (leafOf base) = some i) :
    ((∃ d, first.Home (folderOf base) d) → b.world.fs.contents? (Path.ofString base) = some c) ∧
      ((¬ ∃ d, first.Home (folderOf base) d) → b.world.fs.contents? (Path.ofString base) = none) := by
  rw [AtomicUpdate.basePath]
  constructor
  · rintro ⟨d, home⟩
    obtain ⟨m, file⟩ := settled.file
    exact ((settled.beside.homes d).mpr home).contents proper
      ⟨settled.beside.entry home (entry d home), file⟩
  · intro homeless
    unfold Fs.contents?
    split
    · rename_i j led
      obtain ⟨d, _, home, _⟩ := Fs.lookupHome (folderEnds base) proper.plain led
      exact absurd ⟨d, (settled.beside.homes d).mp home⟩ homeless
    · rfl

theorem blankTidy (base : String) : (blank base).world.fs.Tidy := by
  have kept : ∀ node ∈ Fs.bare.nodes.toList, node.WellKept Fs.bare.nodes.size := by decide +kernel
  exact (Fs.tidyOf kept).1

end Bench
end AtomicUpdate
