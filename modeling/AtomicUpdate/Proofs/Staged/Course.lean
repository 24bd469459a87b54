import AtomicUpdate.Proofs.Staged.Final

/-! What a turn makes of the temp file: it opens a cycle with a new one, or closes the cycle and leaves nothing
under its name, or does neither. In no case does any other node get one of the temp names. -/
namespace AtomicUpdate
open Fs (Ages)
open Path (Plain Proper)

theorem Fs.unlinkHome {fs fs' : Fs} {pre n : Path} (ends : pre = [] ∨ ∃ a, pre = a ++ [Path.slash])
    (plain : Plain n) (ok : fs.unlink (pre ++ n) = .ok fs') :
    ∃ d, fs.Home pre d ∧ fs' = fs.updateDir d (·.erase n) := by
  obtain ⟨d, k, i, located, _, rfl⟩ := unlinkExact ok
  obtain ⟨e, home, _, ⟨same, _⟩ | ⟨_, same, _⟩⟩ := homeOfPlace ends plain rfl located
  · cases same
  · cases same
    exact ⟨d, home, rfl⟩

namespace Files
variable {base : String} {fs fs' : Fs}

theorem removeLacks {s : Suffix}
    (ok : remove fs (Path.ofString (Template.fill (Template.stemOf base) s)) = .ok fs') :
    Fs.Lacks base s fs' := by
  obtain ⟨_, _, ok⟩ := bindOk ok
  rw [tempPath] at ok
  obtain ⟨d, home, rfl⟩ := Fs.unlinkHome (folderEnds base) (afterPlain base s) ok
  intro e home'
  rw [Fs.entryErase home.dir, if_pos ⟨((Fs.Recedes.erase fs d _).home home').unique home, rfl⟩]

end Files

inductive Course (base : String) (fs : Fs) (names : Names) (fs' : Fs) (names' : Names) : Prop where
  | stays (same : names' = names ∨ names.temp? = none ∧ names'.temp? = none) (ages : Ages fs fs') :
      Course base fs names fs' names'
  | opens {s d i} (idle : names.temp? = none) (opened : names' = .writing base s) (ages : Ages fs fs')
      (home : fs'.Home (folderOf base) d) (proper : Proper (folderOf base) (s.after (leafOf base)))
      (entry : fs'.named? d (s.after (leafOf base)) = some i)
      (apart : fs'.named? d (leafOf base) ≠ some i) : Course base fs names fs' names'
  | closes {s} (pending : names = .writing base s) (closed : names'.temp? = none)
      (lacks : Fs.Lacks base s fs') (tidy : fs'.Tidy) (more : fs.nodes.size ≤ fs'.nodes.size)
      (since : ∀ {s' : Suffix} {d i}, fs'.Home (folderOf base) d → fs'.named? d (s'.after (leafOf base)) = some i →
        i < fs.nodes.size → fs.Home (folderOf base) d ∧ fs.named? d (s'.after (leafOf base)) = some i) :
      Course base fs names fs' names'

namespace Course
variable {base : String} {fs fs' fs'' : Fs} {names names' : Names}

theorem still (tidy : fs.Tidy) : Course base fs names fs names := .stays (Or.inl rfl) (.refl tidy)

theorem more (course : Course base fs names fs' names') : fs.nodes.size ≤ fs'.nodes.size := by
  cases course with
  | stays same ages => exact ages.more
  | opens idle opened ages => exact ages.more
  | closes pending closed lacks tidy more => exact more

theorem since (course : Course base fs names fs' names') {s : Suffix} {d i : Ino}
    (home : fs'.Home (folderOf base) d) (entry : fs'.named? d (s.after (leafOf base)) = some i)
    (old : i < fs.nodes.size) :
    fs.Home (folderOf base) d ∧ fs.named? d (s.after (leafOf base)) = some i := by
  cases course with
  | stays same ages => exact ⟨ages.recedes.home home, ages.since entry old⟩
  | opens idle opened ages => exact ⟨ages.recedes.home home, ages.since entry old⟩
  | closes pending closed lacks tidy more since => exact since home entry old

theorem aged {s : Suffix} (pending : names = .writing base s) (closed : names'.temp? = none)
    (lacks : Fs.Lacks base s fs') (ages : Ages fs fs') : Course base fs names fs' names' :=
  .closes pending closed lacks ages.tidy ages.more fun home entry old =>
    ⟨ages.recedes.home home, ages.since entry old⟩

theorem poured {j : Ino} (course : Course base fs names fs' names') (poured : Fs.Poured j fs' fs'') :
    Course base fs names fs'' names' := by
  have keeps : Fs.Keeps (fun _ => False) fs' fs'' := poured.alike.keeps
  have same := poured.alike.entry
  cases course with
  | stays known ages => exact .stays known (ages.poured poured)
  | opens idle opened ages home proper entry apart =>
    refine .opens idle opened (ages.poured poured) (home.kept keeps) proper ((same _ _).trans entry) ?_
    rwa [same]
  | closes pending closed lacks tidy more since =>
    refine .closes pending closed (lacks.alike poured.alike) (poured.tidy tidy)
      (more.trans (Nat.le_of_eq poured.only.size.symm)) fun home entry old => ?_
    rw [same] at entry
    exact since ((Fs.Recedes.ofAlike poured.alike).home home) entry old

end Course

def Fs.Twinless (base : String) (names : Names) (fs : Fs) : Prop :=
  ∀ {s d j}, names = .writing base s → fs.Home (folderOf base) d →
    fs.named? d (s.after (leafOf base)) = some j → fs.named? d (leafOf base) ≠ some j

namespace Handle
variable {base : String} {h : Handle} {w : World}

theorem openCycleCourse (built : Over base h.names) (tidy : w.fs.Tidy) :
    Course base w.fs h.names (h.openCycle w).world.fs (h.openCycle w).handle.names := by
  have ages := openCycleAges built tidy
  have begun : Begun base h w (h.openCycle w) := openCycleBegun built
  generalize h.openCycle w = r at begun ages
  cases begun with
  | refused error names sink gains => exact .stays (Or.inl names) ages
  | @opened s fs d idle ok names sink gains home proper free write made =>
    have born : Fs.Gains fs (fs.born d (s.after (leafOf base)) 0o600) := .born home.dir free
    rw [made] at ages ⊢
    refine .opens (idle ▸ rfl) names ages (home.kept (born.keeps fun _ => False)) proper
      (by rw [Fs.bornEntry home.dir, if_pos ⟨rfl, rfl⟩]) ?_
    rw [Fs.bornEntry home.dir, if_neg fun both => afterNotLeaf base s both.2.symm]
    intro entry
    exact Nat.lt_irrefl _ ((gains.tidy tidy).entryBound entry)

theorem renameCourse {s : Suffix} {d i : Ino} {c : Bytes} {m : Nat} (plain : Plain (leafOf base))
    (intact : Fs.Intact base s d i c m w.fs) (tidy : w.fs.Tidy)
    (apart : w.fs.named? d (leafOf base) ≠ some i) {t b : Name} {e : Ino} {fs : Fs}
    (ready : Commit.prepare w.fs (Path.ofString (Template.fill (Template.stemOf base) s))
      (Path.ofString base) = .ok (t, b, e))
    (renamed : w.fs.renameIn e t b = .ok fs) {names : Names} (closed : names.temp? = none) :
    Course base w.fs (.writing base s) fs names := by
  obtain ⟨rfl, rfl, home⟩ := renameHome plain ready renamed
  cases home.unique intact.home
  have entry := intact.holds.entry
  rcases Fs.renameExact renamed with ⟨_, j, first, second⟩ | ⟨j, first, _, _, rfl⟩
  · cases first.symm.trans entry
    exact absurd second apart
  · cases first.symm.trans entry
    have recedes : Fs.Recedes w.fs (w.fs.updateDir d (fun es =>
        Fs.supplant (leafOf base) i (es.erase (s.after (leafOf base))))) := .move intact.outer
    refine .closes rfl closed ?_ (tidy.move d _ _ (tidy.entryBound entry))
      (Nat.le_of_eq (Fs.sizeUpdateDir _ _ _).symm) ?_
    · intro e home
      rw [Fs.entryMove intact.home.dir, if_pos ((recedes.home home).unique intact.home),
        if_neg (afterNotLeaf base s), if_pos rfl]
    · intro s' e k home entry' _
      rw [Fs.entryMove intact.home.dir, if_pos ((recedes.home home).unique intact.home),
        if_neg (afterNotLeaf base s')] at entry'
      split at entry'
      · cases entry'
      · exact ⟨recedes.home home, ((recedes.home home).unique intact.home).symm ▸ entry'⟩

theorem commitCourse {streams : List Stream} {t : Tally} (held : Held base streams t w.fs h.names)
    (tidy : w.fs.Tidy) (plain : Plain (leafOf base)) (twinless : w.fs.Twinless base h.names) :
    Course base w.fs h.names (h.commitCycle w).world.fs (h.commitCycle w).handle.names := by
  have ended := h.committing w
  generalize h.commitCycle w = r at ended
  cases ended with
  | idle idle => exact .still tidy
  | unflushed pending refused => exact .still tidy
  | @failed temp e w' pending flushed refused =>
    have failed := h.commitRunning temp w
    rw [refused] at failed
    refine .stays (Or.inl rfl) ?_
    change Ages w.fs w'.fs
    cases failed with
    | unready | refused | barred => exact .refl tidy
    | broken _ _ _ broke => exact Commit.copyOverAges broke tidy
  | @done temp done w' pending flushed committed =>
    have ran := h.commitRunning temp w
    rw [committed] at ran
    dsimp only
    rw [endCycleFs]
    generalize names : h.names = now at held twinless ran
    cases held with
    | idle built idle => cases (names ▸ pending).symm.trans idle
    | lost s spoilt lacks =>
      cases (names ▸ pending : (Names.writing base s).temp? = some temp)
      cases ran with
      | renamed ready _ renamed =>
        obtain ⟨rfl, rfl, home⟩ := renameHome plain ready renamed
        rcases Fs.renameExact renamed with ⟨_, i, entry, _⟩ | ⟨i, entry, _⟩
        all_goals cases (lacks _ home).symm.trans entry
      | copied _ _ _ copied =>
        obtain ⟨_, failed⟩ := Commit.copyOverLacks copied lacks
        cases failed
    | writing s sound intact mine =>
      cases (names ▸ pending : (Names.writing base s).temp? = some temp)
      cases ran with
      | renamed ready _ renamed =>
        exact renameCourse plain intact tidy (twinless rfl intact.home intact.holds.entry) ready renamed rfl
      | copied _ _ _ copied =>
        obtain ⟨_, _, _, _, removed, rfl⟩ := Commit.copyOverDone copied
        exact .aged rfl rfl (Files.removeLacks removed) (Commit.copyOverAges copied tidy)

theorem rollBackCourse {streams : List Stream} {t : Tally} (held : Held base streams t w.fs h.names)
    (tidy : w.fs.Tidy) :
    Course base w.fs h.names (h.rollBack w).world.fs (h.rollBack w).handle.names := by
  have ages := h.rollBackAges tidy
  have ended := h.rollingBack w
  generalize h.rollBack w = r at ended ages
  cases ended with
  | idle idle => exact .still tidy
  | kept pending refused other => exact .still tidy
  | @vanished temp pending refused =>
    dsimp only at ages ⊢
    rw [endCycleFs] at ages ⊢
    generalize names : h.names = now at held
    cases held with
    | idle built idle => cases (names ▸ pending).symm.trans idle
    | lost s spoilt lacks => exact .aged rfl rfl lacks ages
    | writing s sound intact mine =>
      cases (names ▸ pending : (Names.writing base s).temp? = some temp)
      cases (Files.removeAbsent refused).symm.trans intact.lookupEntry
  | @removed temp fs pending removed =>
    dsimp only at ages ⊢
    rw [endCycleFs] at ages ⊢
    generalize names : h.names = now at held
    cases held.built with
    | live => cases (names ▸ pending : (Names.ofBase base).temp? = some temp)
    | retired => cases (names ▸ pending : Names.retired.temp? = some temp)
    | writing s =>
      cases (names ▸ pending : (Names.writing base s).temp? = some temp)
      exact .aged rfl rfl (Files.removeLacks removed) ages

theorem retireCourse {streams : List Stream} {t : Tally} (held : Held base streams t w.fs h.names)
    (tidy : w.fs.Tidy) :
    Course base w.fs h.names (h.retire w).world.fs (h.retire w).handle.names := by
  have ages := h.retireAges tidy
  have ended := h.retiring w
  generalize h.retire w = r at ended ages
  cases ended with
  | kept first second failure => exact .stays (Or.inl rfl) ages
  | @retired w₁ w₂ first second =>
    obtain ⟨locks, events, released⟩ := h.releaseGuardWorld w₂
    rw [released] at ages ⊢
    generalize names : h.names = now at held first second
    have gone : ∀ {s}, Fs.Lacks base s w₁.fs → Fs.Lacks base s w₂.fs := by
      intro s lacks
      have after := removeTargetLacks lacks now.base
      rwa [second] at after
    cases held with
    | idle built idle => exact .stays (Or.inr ⟨idle, rfl⟩) ages
    | lost s spoilt lacks =>
      have still := removeTargetLacks lacks (Names.writing base s).staging
      rw [first] at still
      exact .aged rfl rfl (gone still) ages
    | writing s sound intact mine =>
      cases (removeTargetIntact intact).symm.trans first
      exact .aged rfl rfl (gone intact.erased) ages

end Handle

namespace Bench
variable {base : String} {b : Bench}

theorem Sound.startCourse (sound : Sound base b) (tidy : b.world.fs.Tidy) :
    Course base b.world.fs b.handle.names (b.call .startWrite).world.fs
      (b.call .startWrite).handle.names := by
  have course := Handle.openCycleCourse sound.held.built tidy
  rw [← Handle.startWriteFs sound.quiet] at course
  exact course

theorem Sound.streamCourse (sound : Sound base b) (tidy : b.world.fs.Tidy) :
    Course base b.world.fs b.handle.names (b.call .startWriteStream).world.fs
      (b.call .startWriteStream).handle.names := by
  have started := sound.startCourse tidy
  rw [callStream]
  change Course base b.world.fs b.handle.names (b.handle.startWriteStream b.world).world.fs _
  cases opened : (b.handle.startWrite b.world).result with
  | error e =>
    rw [Handle.startWriteStreamRefused opened]
    exact started
  | ok temp =>
    rw [Handle.startWriteStreamOpens opened]
    change Course base b.world.fs b.handle.names
      (Handle.openTemp temp (b.handle.startWrite b.world).world).2.fs _
    rcases Handle.openTempExact temp (b.handle.startWrite b.world).world with
      ⟨_, _, same⟩ | ⟨wr, _, _, emptied⟩
    · rw [same]
      exact started
    · rw [emptied]
      exact started.poured (Fs.truncatePoured _ wr.file.ino)

theorem Sound.course (sound : Sound base b) (tidy : b.world.fs.Tidy) (plain : Plain (leafOf base))
    (twinless : b.world.fs.Twinless base b.handle.names) {t : Turn} (may : b.Undisturbed t) :
    Course base b.world.fs b.handle.names (b.turn t).world.fs (b.turn t).handle.names := by
  have quiet := sound.quiet
  have read : ∀ {w : World}, w.fs = b.world.fs →
      Course base b.world.fs b.handle.names w.fs b.handle.names := by
    intro w same
    rw [same]
    exact .still tidy
  cases t with
  | call c =>
    cases c with
    | startWrite => exact sound.startCourse tidy
    | startWriteStream => exact sound.streamCourse tidy
    | finishWrite =>
      have course := Handle.commitCourse sound.held tidy plain twinless
      rw [← Handle.finishWriteFs quiet] at course
      exact course
    | failWrite =>
      have course := Handle.rollBackCourse sound.held tidy
      rw [← Handle.failWriteFs quiet] at course
      exact course
    | delete =>
      have course := Handle.retireCourse sound.held tidy
      rw [← Handle.deleteFs quiet] at course
      exact course
    | getBaseFile => exact read (Handle.readFs quiet b.world).1
    | readFully => exact read (Handle.readFs quiet b.world).2.1
    | openRead => exact read (Handle.readFs quiet b.world).2.2
  | edit e =>
    change Course base b.world.fs b.handle.names (b.edit e).world.fs (b.edit e).handle.names
    unfold Bench.edit
    split
    · exact .still tidy
    · rename_i temp pending
      change Course base b.world.fs b.handle.names (e.perform (Path.ofString temp) b.world.fs) b.handle.names
      rcases e.pours (Path.ofString temp) b.world.fs with same | ⟨j, _, poured⟩
      · rw [same]
        exact .still tidy
      · exact (Course.still tidy).poured poured
  | stream k call =>
    change Course base b.world.fs b.handle.names (b.stream k call).world.fs (b.stream k call).handle.names
    unfold Bench.stream
    split
    · exact .still tidy
    · rename_i x is
      exact (Course.still tidy).poured (x.writer.callPours b.world call).1
  | others w => exact read may

end Bench
end AtomicUpdate
