import AtomicUpdate.Proofs.Staged.Holding

/-! What an open cycle promises of its temp file, in whatever run of turns it was opened. The bytes that have
been staged are there, all of them and no others, until a delete fails: by then the file has been removed. -/
namespace AtomicUpdate

namespace Bench
variable {base : String} {b b' : Bench}

structure Sound (base : String) (b : Bench) : Prop where
  held : Held base b.streams b.tally b.world.fs b.handle.names
  quiet : b.handle.Quiet

theorem callOther {c : Call} (other : c.starts = false) (spares : c ≠ .delete) :
    b.call c = ⟨(c.perform b.handle b.world).handle, (c.perform b.handle b.world).world, b.streams,
      b.tally⟩ := by
  have none : b.opened c = [] := by
    cases c with
    | startWriteStream => cases other
    | _ => rfl
  rw [call, none, List.map_nil, List.append_nil, Tally.afterOther other spares]

theorem callStart : b.call .startWrite = ⟨(b.handle.openCycle b.world).handle,
    (b.handle.startWrite b.world).world, b.streams,
    if b.handle.isPending = false ∧ (b.handle.openCycle b.world).handle.isPending = true
      then b.tally.begun else b.tally⟩ := by
  have same : (b.handle.startWrite b.world).ended.handle = (b.handle.openCycle b.world).handle := rfl
  have tally : (b.call .startWrite).tally = _ := Tally.afterStart rfl same
  have alone : (b.call .startWrite).streams = b.streams := List.append_nil _
  rw [← tally, ← alone]
  rfl

theorem callStream : b.call .startWriteStream = ⟨(b.call .startWrite).handle,
    (b.handle.startWriteStream b.world).world, b.streams ++
      (b.handle.startWriteStream b.world).result.toOption.toList.map (⟨(b.call .startWrite).tally.cycles, ·⟩),
    (b.call .startWrite).tally⟩ := by
  have handle : (b.call .startWriteStream).handle = (b.call .startWrite).handle :=
    b.handle.startWriteStreamHandle b.world
  have tally : (b.call .startWriteStream).tally = (b.call .startWrite).tally :=
    (Tally.afterStart rfl handle).trans (Tally.afterStart rfl rfl).symm
  rw [← handle, ← tally]
  rfl

namespace Sound

theorem call (sound : Sound base b) (c : Call) : Sound base (b.call c) := by
  have held := sound.held
  have quiet := sound.quiet
  refine ⟨?_, quiet.same (c.performSink b.handle b.world)⟩
  cases c with
  | startWrite =>
    have started := held.start
    rw [← Handle.startWriteFs quiet b.world] at started
    rw [callStart]
    exact started
  | startWriteStream =>
    exact held.startStream quiet (Tally.afterStart rfl (b.handle.startWriteStreamHandle b.world))
  | finishWrite =>
    rw [callOther rfl (by decide)]
    change Held base b.streams b.tally (b.handle.finishWrite b.world).world.fs
      (b.handle.commitCycle b.world).handle.names
    rw [Handle.finishWriteFs quiet]
    exact held.commit
  | failWrite =>
    rw [callOther rfl (by decide)]
    change Held base b.streams b.tally (b.handle.failWrite b.world).world.fs
      (b.handle.rollBack b.world).handle.names
    rw [Handle.failWriteFs quiet]
    exact held.rollBack
  | delete =>
    have retired := held.retire
    rw [← Handle.deleteFs quiet b.world] at retired
    have tally : (b.call .delete).tally = _ := Tally.afterDelete
    have alone : (b.call .delete).streams = b.streams := List.append_nil _
    rw [tally, alone]
    exact retired
  | getBaseFile =>
    rw [callOther rfl (by decide)]
    exact (Handle.readFs quiet b.world).1 ▸ held
  | readFully =>
    rw [callOther rfl (by decide)]
    exact (Handle.readFs quiet b.world).2.1 ▸ held
  | openRead =>
    rw [callOther rfl (by decide)]
    exact (Handle.readFs quiet b.world).2.2 ▸ held

theorem turn (sound : Sound base b) {t : Turn} (may : b.Undisturbed t) : Sound base (b.turn t) := by
  cases t with
  | call c => exact sound.call c
  | edit e =>
    change Sound base (b.edit e)
    unfold Bench.edit
    split
    · exact sound
    · rename_i temp pending
      exact ⟨sound.held.edited pending e, sound.quiet⟩
  | stream k call =>
    change Sound base (b.stream k call)
    unfold Bench.stream
    split
    · exact sound
    · rename_i x is
      exact ⟨sound.held.streamed is call, sound.quiet⟩
  | others w =>
    have same : w.fs = b.world.fs := may
    have held := sound.held
    rw [← same] at held
    exact ⟨held, sound.quiet⟩

theorem run (sound : Sound base b) (run : Run Undisturbed b b') : Sound base b' := by
  induction run with
  | refl => exact sound
  | turn run t may ih => exact ih.turn may

end Sound

theorem Fresh.sound (fresh : Fresh base b) : Sound base b where
  held := .idle (fresh.built ▸ .live) (fresh.built ▸ rfl) (by rw [fresh.unopened]; exact List.forall_mem_nil _)
  quiet := fresh.quiet

/-- The temp file of an open cycle holds what has been staged, whichever operations have failed in the
meantime; only after a failed delete it is gone, though the handle still goes by it. -/
theorem stagedHeld {first : Bench} (fresh : Fresh base first) (run : Run Undisturbed first b) {temp : String}
    (pending : b.handle.names.temp? = some temp) :
    (b.tally.spoilt = false → ∃ i m, b.world.fs.lookupEntry (Path.ofString temp) = .ok i ∧
      b.world.fs.node? i = some (.file b.tally.staged m)) ∧
    (b.tally.spoilt = true → ∀ i, b.world.fs.lookupEntry (Path.ofString temp) ≠ .ok i) := by
  have held := (fresh.sound.run run).held
  generalize b.handle.names = names at held pending
  cases held with
  | idle built idle => cases pending.symm.trans idle
  | writing s sound intact mine =>
    cases pending
    exact ⟨fun _ => ⟨_, _, intact.lookupEntry, intact.holds.file⟩, fun spoilt => by cases sound.symm.trans spoilt⟩
  | lost s spoilt lacks =>
    cases pending
    exact ⟨fun sound => (by cases sound.symm.trans spoilt), fun _ => lacks.lookupEntry⟩

def blank (base : String) : Bench := { handle := .ofBase base, world := { fs := .bare } }

theorem blankFresh (base : String) : Fresh base (blank base) := ⟨rfl, fun _ _ => rfl, rfl⟩

theorem stagedFound :
    let opened := ((blank "f").call .startWriteStream).call .startWrite
    let written := (opened.stream 0 (.write [1, 2])).stream 0 .flush
    let refused := ((blank "dev").call .startWrite).call .delete
    (∃ temp, written.handle.names.temp? = some temp ∧ ∃ i m,
      written.world.fs.lookupEntry (Path.ofString temp) = .ok i ∧
        written.world.fs.node? i = some (.file [1, 2] m)) ∧
    ∃ temp, refused.handle.names.temp? = some temp ∧
      ∀ i, refused.world.fs.lookupEntry (Path.ofString temp) ≠ .ok i := by
  intro opened written refused
  have run : Run Undisturbed (blank "f") written :=
    ((((Run.refl (blank "f")).turn (.call .startWriteStream) trivial).turn (.call .startWrite) trivial).turn
      (.stream 0 (.write [1, 2])) trivial).turn (.stream 0 .flush) trivial
  have run' : Run Undisturbed (blank "dev") refused :=
    ((Run.refl (blank "dev")).turn (.call .startWrite) trivial).turn (.call .delete) trivial
  obtain ⟨temp, pending⟩ : ∃ temp, written.handle.names.temp? = some temp :=
    Option.isSome_iff_exists.mp (by decide +kernel)
  obtain ⟨temp', pending'⟩ : ∃ temp, refused.handle.names.temp? = some temp :=
    Option.isSome_iff_exists.mp (by decide +kernel)
  have staged : written.tally.staged = [1, 2] := by decide +kernel
  have there := (stagedHeld (blankFresh "f") run pending).1 (by decide +kernel)
  rw [staged] at there
  exact ⟨⟨temp, pending, there⟩, temp', pending',
    (stagedHeld (blankFresh "dev") run' pending').2 (by decide +kernel)⟩

theorem stagedForgotten :
    ¬ ∀ (base : String) (first b : Bench) (temp : String), Fresh base first → Run Undisturbed first b →
      b.handle.names.temp? = some temp → ∃ i m, b.world.fs.lookupEntry (Path.ofString temp) = .ok i ∧
        b.world.fs.node? i = some (.file b.tally.staged m) := by
  intro always
  let b := ((blank "dev").call .startWrite).call .delete
  have run : Run Undisturbed (blank "dev") b :=
    ((Run.refl (blank "dev")).turn (.call .startWrite) trivial).turn (.call .delete) trivial
  obtain ⟨temp, pending⟩ : ∃ temp, b.handle.names.temp? = some temp :=
    Option.isSome_iff_exists.mp (by decide +kernel)
  obtain ⟨i, m, led, _⟩ := always "dev" (blank "dev") b temp (blankFresh "dev") run pending
  have gone : b.handle.names.temp?.map (fun temp => (b.world.fs.lookupEntry (Path.ofString temp)).toOption) =
      some none := by decide +kernel
  rw [pending, Option.map_some, led] at gone
  cases gone

end Bench
end AtomicUpdate
