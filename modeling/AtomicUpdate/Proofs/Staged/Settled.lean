import AtomicUpdate.Proofs.Staged.Beside
import AtomicUpdate.Proofs.Staged.Promise

/-! What becomes of the base after a commit, until it is replaced or deleted. It stays the file that was
committed, and nobody writes into that but the streams of its own cycle, with what they had not yet handed over. -/
namespace AtomicUpdate
open Path (Plain Proper)

namespace Handle
variable {h : Handle} {w : World}

theorem commitCycleKept (uncopied : ¬ h.Copies w) (failed : (h.finishWrite w).result ≠ .ok ()) :
    (h.commitCycle w).world.fs = w.fs ∧ (h.commitCycle w).handle.names = h.names := by
  rw [finishWriteResult] at failed
  have ended := h.committing w
  generalize h.commitCycle w = r at ended failed
  cases ended with
  | idle idle => exact ⟨rfl, rfl⟩
  | unflushed pending refused => exact ⟨rfl, rfl⟩
  | @failed temp e w' pending flushed refused =>
    rcases commitToRenames uncopied pending flushed with ⟨_, same⟩ | ⟨_, _, _, _, _, _, _, same⟩
    · cases refused.symm.trans same
      exact ⟨rfl, rfl⟩
    · cases refused.symm.trans same
  | done pending flushed committed => exact absurd rfl failed

end Handle

namespace Bench

def Renaming (b : Bench) : Turn → Prop
  | .call .finishWrite => ¬ b.handle.Copies b.world
  | t => b.Undisturbed t

def Standing (b : Bench) : Turn → Prop
  | .call .finishWrite => ¬ b.handle.Copies b.world ∧ (b.handle.finishWrite b.world).result ≠ .ok ()
  | .call .delete => False
  | t => b.Undisturbed t

def late (b : Bench) (n : Nat) : Turn → List Edit
  | .stream k call =>
      match b.streams[k]? with
      | none => []
      | some x => if x.cycle = n then x.writer.edits call else []
  | _ => []

inductive Aftermath (n : Nat) (first : Bench) : List Edit → Bench → Prop where
  | none : Aftermath n first [] first
  | turn {es b} (before : Aftermath n first es b) (t : Turn) (may : b.Standing t) :
      Aftermath n first (es ++ b.late n t) (b.turn t)

variable {base : String} {n : Nat} {i : Ino} {first : Fs} {c c' : Bytes} {b b' : Bench}

theorem Renaming.undisturbed {t : Turn} (may : b.Renaming t) : b.Undisturbed t := by
  cases t with
  | call c => trivial
  | edit e => trivial
  | stream k call => trivial
  | others w => exact may

structure Settled (base : String) (n : Nat) (i : Ino) (first : Fs) (c : Bytes) (b : Bench) : Prop where
  sound : Sound base b
  kept : b.tally.spoilt = false
  late : n ≤ b.tally.cycles
  beside : Fs.Beside base i first b.world.fs
  file : ∃ m, b.world.fs.node? i = some (.file c m)
  mine : ∀ x ∈ b.streams, x.cycle = n ↔ x.writer.file.ino = i
  apart : ∀ {s d}, b.handle.names = .writing base s → b.world.fs.Home (folderOf base) d →
    b.world.fs.named? d (s.after (leafOf base)) ≠ some i

namespace Settled

theorem elsewhere (settled : Settled base n i first c b) {temp : String}
    (pending : b.handle.names.temp? = some temp) :
    ∃ s d j m, temp = Template.fill (Template.stemOf base) s ∧
      Fs.Intact base s d j b.tally.staged m b.world.fs ∧ i ≠ j := by
  have held := settled.sound.held
  have apart := @settled.apart
  generalize b.handle.names = names at held pending apart
  cases held with
  | idle built idle => cases pending.symm.trans idle
  | lost s spoilt lacks => cases settled.kept.symm.trans spoilt
  | @writing d j m s sound intact mine =>
    cases pending
    refine ⟨s, d, j, m, rfl, intact, ?_⟩
    rintro rfl
    exact apart rfl intact.home intact.holds.entry

theorem moved (settled : Settled base n i first c b) (sound : Sound base b')
    (beside : Fs.Beside base i b.world.fs b'.world.fs) (file : ∃ m, b'.world.fs.node? i = some (.file c' m))
    (names : b'.handle.names = b.handle.names ∨ b'.handle.names.temp? = none)
    (tally : b'.tally.cycles = b.tally.cycles ∧ b'.tally.spoilt = b.tally.spoilt)
    (mine : ∀ x ∈ b'.streams, x.cycle = n ↔ x.writer.file.ino = i) : Settled base n i first c' b' where
  sound := sound
  kept := tally.2.trans settled.kept
  late := tally.1 ▸ settled.late
  beside := settled.beside.trans beside
  file := file
  mine := mine
  apart := by
    intro s d writing home entry
    rcases names with same | idle
    · exact settled.apart (same.symm.trans writing) ((beside.homes d).mp home) (beside.since entry)
    · rw [writing] at idle
      cases idle

theorem inherited (settled : Settled base n i first c b) {streams : List Stream}
    (inherit : Inherit b.streams streams) : ∀ x ∈ streams, x.cycle = n ↔ x.writer.file.ino = i := by
  intro y mem
  obtain ⟨x, mem', cycle, ino⟩ := inherit y mem
  rw [← cycle, ← ino]
  exact settled.mine x mem'

theorem start (settled : Settled base n i first c b) : Settled base n i first c (b.call .startWrite) := by
  have sound := settled.sound.call .startWrite
  have files := Handle.startWriteFs settled.sound.quiet b.world
  obtain ⟨m, file⟩ := settled.file
  have old := Fs.nodeBound file
  have begun : Handle.Begun base b.handle b.world (b.handle.openCycle b.world) :=
    Handle.openCycleBegun settled.sound.held.built
  rw [callStart] at sound ⊢
  generalize b.handle.openCycle b.world = r at begun sound files ⊢
  cases begun with
  | refused error names sink gains =>
    have still : ¬ (b.handle.isPending = false ∧ r.handle.isPending = true) := by
      rintro ⟨idle, opened⟩
      rw [Handle.isPending, names] at opened
      cases idle.symm.trans opened
    rw [if_neg still] at sound ⊢
    rw [← files] at gains
    exact settled.moved sound (.gains gains settled.beside.tidy old) ⟨m, gains.file file⟩ (Or.inl names)
      ⟨rfl, rfl⟩ settled.mine
  | @opened s fs d idle ok names sink gains home proper free write made =>
    have opened : b.handle.isPending = false ∧ r.handle.isPending = true :=
      ⟨by rw [Handle.isPending, idle]; rfl, by rw [Handle.isPending, names]; rfl⟩
    rw [if_pos opened] at sound ⊢
    have born : Fs.Gains fs (b.handle.startWrite b.world).world.fs := by
      rw [files, made]
      exact .born home.dir free
    have grown : Fs.Beside base i b.world.fs fs := .gains gains settled.beside.tidy old
    have last : Fs.Beside base i fs (b.handle.startWrite b.world).world.fs :=
      .gains born grown.tidy (Nat.lt_of_lt_of_le old gains.more)
    exact {
      sound := sound
      kept := rfl
      late := settled.late.trans (Nat.le_succ _)
      beside := (settled.beside.trans grown).trans last
      file := ⟨m, born.file (gains.file file)⟩
      mine := settled.mine
      apart := by
        intro s' d' writing home' entry
        -- The name was free, and no old file gets a new name.
        have was := last.since entry
        cases (born.recedes.home home').unique home
        rw [← Names.writingInjective (names.symm.trans writing), free] at was
        cases was }

theorem startStream (settled : Settled base n i first c b) :
    Settled base n i first c (b.call .startWriteStream) := by
  have started := settled.start
  have sound := settled.sound.call .startWriteStream
  have alone : (b.call .startWrite).streams = b.streams := by rw [callStart]
  rw [callStream, ← alone] at sound ⊢
  cases opened : (b.handle.openCycle b.world).result with
  | error e =>
    have refused := Handle.startWriteStreamRefused (h := b.handle) (w := b.world) opened
    rw [refused, Except.toOption, Option.toList, List.map_nil, List.append_nil]
    exact started
  | ok temp =>
    obtain ⟨idle, pending⟩ := Handle.openedTemp opened
    obtain ⟨s, d, j, m, rfl, intact, apart⟩ := started.elsewhere pending
    have opens := Handle.startWriteStreamOpens (h := b.handle) (w := b.world) opened
    have later : (b.call .startWrite).tally.cycles = b.tally.cycles + 1 := by
      have pends : (b.handle.openCycle b.world).handle.isPending = true := by
        rw [Handle.isPending, pending]
        rfl
      rw [callStart, if_pos ⟨idle, pends⟩]
      rfl
    obtain ⟨m', file⟩ := started.file
    rw [opens] at sound ⊢
    obtain ⟨poured, here⟩ := Handle.openTempPours (w := (b.handle.startWrite b.world).world) intact
    refine started.moved sound (.poured poured started.beside.tidy)
      ⟨m', (poured.only.others i apart).trans file⟩ (Or.inl rfl) ⟨rfl, rfl⟩ ?_
    intro x mem
    rcases List.mem_append.mp mem with old | new
    · exact started.mine x old
    · obtain ⟨wr, given, rfl⟩ := List.mem_map.mp new
      -- The stream is of a later cycle, and its file is the temp file of that.
      have early := settled.late
      have other : (b.call .startWrite).tally.cycles ≠ n := by omega
      exact ⟨fun same => absurd same other, fun same => absurd (same.symm.trans (here wr given)) apart⟩

theorem finishFailed (settled : Settled base n i first c b) (may : b.Standing (.call .finishWrite)) :
    Settled base n i first c (b.call .finishWrite) := by
  have sound := settled.sound.call .finishWrite
  obtain ⟨same, names⟩ := Handle.commitCycleKept may.1 may.2
  rw [← Handle.finishWriteFs settled.sound.quiet] at same
  rw [callOther rfl (by decide)] at sound ⊢
  refine settled.moved sound ?_ ?_ (Or.inl names) ⟨rfl, rfl⟩ settled.mine
  · change Fs.Beside base i b.world.fs (b.handle.finishWrite b.world).world.fs
    rw [same]
    exact .refl settled.beside.tidy
  · change ∃ m, (b.handle.finishWrite b.world).world.fs.node? i = _
    rw [same]
    exact settled.file

theorem failWrite (settled : Settled base n i first c b) : Settled base n i first c (b.call .failWrite) := by
  have sound := settled.sound.call .failWrite
  have elsewhere := @settled.elsewhere
  have still : Fs.Beside base i b.world.fs b.world.fs := .refl settled.beside.tidy
  obtain ⟨m, file⟩ := settled.file
  have effect : Fs.Beside base i b.world.fs (b.handle.rollBack b.world).world.fs ∧
      (b.handle.rollBack b.world).world.fs.node? i = some (.file c m) ∧
      ((b.handle.rollBack b.world).handle.names = b.handle.names ∨
        (b.handle.rollBack b.world).handle.names.temp? = none) := by
    have ended := b.handle.rollingBack b.world
    generalize b.handle.rollBack b.world = r at ended
    cases ended with
    | idle idle => exact ⟨still, file, Or.inl rfl⟩
    | kept pending refused other => exact ⟨still, file, Or.inl rfl⟩
    | vanished pending refused =>
      dsimp only
      rw [Handle.endCycleFs]
      exact ⟨still, file, Or.inr rfl⟩
    | removed pending removed =>
      obtain ⟨s, d, j, m, rfl, intact, apart⟩ := elsewhere pending
      cases intact.remove.symm.trans removed
      dsimp only
      rw [Handle.endCycleFs]
      exact ⟨.removed intact settled.beside.tidy, Fs.fileUpdateDir _ file, Or.inr rfl⟩
  rw [← Handle.failWriteFs settled.sound.quiet] at effect
  obtain ⟨beside, file', names⟩ := effect
  rw [callOther rfl (by decide)] at sound ⊢
  exact settled.moved sound beside ⟨m, file'⟩ names ⟨rfl, rfl⟩ settled.mine

theorem reads (settled : Settled base n i first c b) {r : Call}
    (reads : r = .getBaseFile ∨ r = .readFully ∨ r = .openRead) : Settled base n i first c (b.call r) := by
  have sound := settled.sound.call r
  have same : (r.perform b.handle b.world).world.fs = b.world.fs ∧
      (r.perform b.handle b.world).handle = b.handle := by
    obtain ⟨first, second, third⟩ := Handle.readFs settled.sound.quiet b.world
    rcases reads with rfl | rfl | rfl
    · exact ⟨first, rfl⟩
    · exact ⟨second, rfl⟩
    · exact ⟨third, rfl⟩
  have other : r.starts = false ∧ r ≠ .delete := by rcases reads with rfl | rfl | rfl <;> decide
  rw [callOther other.1 other.2] at sound ⊢
  refine settled.moved sound ?_ ?_ (Or.inl (congrArg Handle.names same.2)) ⟨rfl, rfl⟩ settled.mine
  · dsimp only
    rw [same.1]
    exact .refl settled.beside.tidy
  · dsimp only
    rw [same.1]
    exact settled.file

theorem edit (settled : Settled base n i first c b) (e : Edit) : Settled base n i first c (b.edit e) := by
  have sound : Sound base (b.edit e) := settled.sound.turn (t := .edit e) trivial
  obtain ⟨m, file⟩ := settled.file
  unfold Bench.edit at sound ⊢
  cases pending : b.handle.names.temp? with
  | none => exact settled
  | some temp =>
    rw [pending] at sound
    obtain ⟨s, d, j, m', rfl, intact, apart⟩ := settled.elsewhere pending
    have poured : Fs.Poured j b.world.fs
        (e.perform (Path.ofString (Template.fill (Template.stemOf base) s)) b.world.fs) := by
      rcases e.pours _ b.world.fs with same | ⟨k, led, poured⟩
      · rw [same]
        exact .refl j _
      · cases intact.lookup.symm.trans led
        exact poured
    exact settled.moved sound (.poured poured settled.beside.tidy)
      ⟨m, (poured.only.others i apart).trans file⟩ (Or.inl rfl) ⟨rfl, rfl⟩ settled.mine

theorem stream (settled : Settled base n i first c b) (k : Nat) (call : StreamCall) :
    Settled base n i first (Edit.all (b.late n (.stream k call)) c) (b.stream k call) := by
  have sound : Sound base (b.stream k call) := settled.sound.turn (t := .stream k call) trivial
  obtain ⟨m, file⟩ := settled.file
  unfold Bench.stream at sound ⊢
  unfold Bench.late
  dsimp only
  cases is : b.streams[k]? with
  | none => exact settled
  | some x =>
    rw [is] at sound
    obtain ⟨poured, same⟩ := x.writer.callPours b.world call
    have mine := settled.mine x (List.mem_of_getElem? is)
    have file' : ∃ m', (x.writer.call b.world call).2.fs.node? i =
        some (.file (Edit.all (if x.cycle = n then x.writer.edits call else []) c) m') := by
      by_cases own : x.cycle = n
      · rw [if_pos own]
        obtain rfl := mine.mp own
        obtain ⟨m', after, _⟩ := (Writer.callReworks file call).file file
        exact ⟨m', after⟩
      · rw [if_neg own]
        exact ⟨m, (poured.only.others i fun here => own (mine.mpr here.symm)).trans file⟩
    refine settled.moved sound (.poured poured settled.beside.tidy) file' (Or.inl rfl) ?_
      (settled.inherited (.called is same))
    dsimp only
    split <;> exact ⟨rfl, rfl⟩

theorem turn (settled : Settled base n i first c b) {t : Turn} (may : b.Standing t) :
    Settled base n i first (Edit.all (b.late n t) c) (b.turn t) := by
  cases t with
  | call r =>
    cases r with
    | startWrite => exact settled.start
    | startWriteStream => exact settled.startStream
    | finishWrite => exact settled.finishFailed may
    | failWrite => exact settled.failWrite
    | delete => exact may.elim
    | getBaseFile => exact settled.reads (Or.inl rfl)
    | readFully => exact settled.reads (Or.inr (Or.inl rfl))
    | openRead => exact settled.reads (Or.inr (Or.inr rfl))
  | edit e => exact settled.edit e
  | stream k call => exact settled.stream k call
  | others w =>
    have same : w.fs = b.world.fs := may
    refine settled.moved (settled.sound.turn may) ?_ ?_ (Or.inl rfl) ⟨rfl, rfl⟩ settled.mine
    · change Fs.Beside base i b.world.fs w.fs
      rw [same]
      exact .refl settled.beside.tidy
    · change ∃ m, w.fs.node? i = _
      rw [same]
      exact settled.file

theorem aftermath {b₀ : Bench} (settled : Settled base n i first c b₀) {es : List Edit}
    (after : Aftermath n b₀ es b) : Settled base n i first (Edit.all es c) b := by
  induction after with
  | none => exact settled
  | turn before t may ih =>
    rw [Edit.allAppend]
    exact ih.turn may

end Settled
end Bench
end AtomicUpdate
