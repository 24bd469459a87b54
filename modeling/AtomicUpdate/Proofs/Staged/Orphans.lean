import AtomicUpdate.Proofs.Staged.Course

/-! The temp files that a handle makes in all its life. One that is still under the name it was made under is
the temp file of the cycle that is open; every other has been committed or removed. -/
namespace AtomicUpdate
open Path (Plain)

structure TempFile where
  path : String
  ino : Ino
  deriving DecidableEq, Repr

namespace Bench

def makes (b : Bench) (t : Turn) : List TempFile :=
  match b.handle.names.temp?, (b.turn t).handle.names.temp? with
  | none, some path =>
      ((b.turn t).world.fs.lookupEntry (Path.ofString path)).toOption.toList.map (⟨path, ·⟩)
  | _, _ => []

inductive Making (first : Bench) : List TempFile → Bench → Prop where
  | none : Making first [] first
  | turn {made b} (before : Making first made b) (t : Turn) (may : b.Undisturbed t) :
      Making first (made ++ b.makes t) (b.turn t)

def Cleared (base : String) (fs : Fs) (x : TempFile) : Prop :=
  ∀ {s d}, x.path = Template.fill (Template.stemOf base) s → fs.Home (folderOf base) d →
    fs.named? d (s.after (leafOf base)) ≠ some x.ino

variable {base : String} {made : List TempFile} {b : Bench}

structure Swept (base : String) (made : List TempFile) (b : Bench) : Prop where
  sound : Sound base b
  tidy : b.world.fs.Tidy
  twinless : b.world.fs.Twinless base b.handle.names
  spelled : ∀ x ∈ made, ∃ s, x.path = Template.fill (Template.stemOf base) s
  bound : ∀ x ∈ made, x.ino < b.world.fs.nodes.size
  cleared : ∀ x ∈ made, b.handle.names.temp? = some x.path ∨ Cleared base b.world.fs x
  recorded : ∀ temp, b.handle.names.temp? = some temp → ∃ i, ⟨temp, i⟩ ∈ made

theorem makesOf {t : Turn} {path : String} {i : Ino} (idle : b.handle.names.temp? = none)
    (opened : (b.turn t).handle.names.temp? = some path)
    (there : (b.turn t).world.fs.lookupEntry (Path.ofString path) = .ok i) : b.makes t = [⟨path, i⟩] := by
  rw [makes, idle, opened]
  dsimp only
  rw [there]
  rfl

theorem makesNone {t : Turn}
    (still : b.handle.names.temp? = none → (b.turn t).handle.names.temp? = none) : b.makes t = [] := by
  unfold makes
  split
  · rename_i idle opened
    rw [still idle] at opened
    cases opened
  · rfl

theorem Cleared.later {fs fs' : Fs} {names names' : Names} {x : TempFile} (cleared : Cleared base fs x)
    (course : Course base fs names fs' names') (old : x.ino < fs.nodes.size) : Cleared base fs' x := by
  intro s d spelled home entry
  obtain ⟨home', entry'⟩ := course.since home entry old
  exact cleared spelled home' entry'

theorem spoiltStays {t : Turn} (pending : b.handle.isPending = true) (spoilt : b.tally.spoilt = true) :
    (b.turn t).tally.spoilt = true := by
  cases t with
  | call c =>
    change (b.tally.after c b.handle _).spoilt = true
    rw [Tally.after, if_neg fun both => by rw [pending] at both; cases both.1]
    split
    · rfl
    · exact spoilt
  | edit e =>
    change (b.edit e).tally.spoilt = true
    unfold Bench.edit
    split <;> exact spoilt
  | stream k call =>
    change (b.stream k call).tally.spoilt = true
    unfold Bench.stream
    split
    · exact spoilt
    · dsimp only
      split <;> exact spoilt
  | others w => exact spoilt

theorem Sound.either (sound : Sound base b) {s : Suffix} (writing : b.handle.names = .writing base s) :
    (b.tally.spoilt = false ∧ ∃ d i m, Fs.Intact base s d i b.tally.staged m b.world.fs) ∨
      (b.tally.spoilt = true ∧ Fs.Lacks base s b.world.fs) := by
  have held := sound.held
  rw [writing] at held
  generalize names : Names.writing base s = now at held
  cases held with
  | idle built idle =>
    rw [← names] at idle
    cases idle
  | @writing d i m s' sound intact mine =>
    cases Names.writingInjective names
    exact Or.inl ⟨sound, d, i, m, intact⟩
  | lost s' spoilt lacks =>
    cases Names.writingInjective names
    exact Or.inr ⟨spoilt, lacks⟩

theorem Swept.twinlessStill (swept : Swept base made b) {t : Turn} (may : b.Undisturbed t)
    (same : (b.turn t).handle.names = b.handle.names)
    (ages : Fs.Ages b.world.fs (b.turn t).world.fs) :
    (b.turn t).world.fs.Twinless base (b.turn t).handle.names := by
  intro s d j writing home entry leaf
  have writing' := same.symm.trans writing
  rcases (swept.sound.turn may).either writing with ⟨unspoilt, _⟩ | ⟨_, lacks⟩
  · rcases swept.sound.either writing' with ⟨_, d', i, m, intact⟩ | ⟨spoilt, _⟩
    · have was := ages.recedes.home home
      cases was.unique intact.home
      cases ages.still intact.holds.entry entry
      exact swept.twinless writing' was intact.holds.entry
        (ages.since leaf (Fs.nodeBound intact.holds.file))
    · have pending : b.handle.isPending = true := by rw [Handle.isPending, writing']; rfl
      cases unspoilt.symm.trans (spoiltStays pending spoilt)
  · cases (lacks d home).symm.trans entry

theorem Swept.turn (swept : Swept base made b) (plain : Plain (leafOf base)) {t : Turn}
    (may : b.Undisturbed t) : Swept base (made ++ b.makes t) (b.turn t) := by
  have sound := swept.sound.turn may
  have course := swept.sound.course swept.tidy plain swept.twinless may
  have bound : ∀ x ∈ made, x.ino < (b.turn t).world.fs.nodes.size :=
    fun x mem => Nat.lt_of_lt_of_le (swept.bound x mem) course.more
  have later : ∀ x ∈ made, Cleared base b.world.fs x → Cleared base (b.turn t).world.fs x :=
    fun x mem cleared => cleared.later course (swept.bound x mem)
  cases course with
  | stays same ages =>
    have same' : (b.turn t).handle.names.temp? = b.handle.names.temp? := by
      rcases same with same | ⟨idle, idle'⟩
      · rw [same]
      · rw [idle, idle']
    rw [makesNone same'.trans, List.append_nil]
    refine ⟨sound, ages.tidy, ?_, swept.spelled, bound, ?_, ?_⟩
    · rcases same with same | ⟨_, idle'⟩
      · exact swept.twinlessStill may same ages
      · intro s d j writing
        rw [writing] at idle'
        cases idle'
    · intro x mem
      rw [same']
      exact (swept.cleared x mem).imp id (later x mem)
    · rw [same']
      exact swept.recorded
  | @opens s d i idle opened ages home proper entry apart =>
    have there := home.lookupEntry proper entry
    rw [← tempPath] at there
    have opened' : (b.turn t).handle.names.temp? = some (Template.fill (Template.stemOf base) s) := by
      rw [opened]
      rfl
    rw [makesOf idle opened' there]
    refine ⟨sound, ages.tidy, ?_,
      List.forall_mem_append.mpr ⟨swept.spelled, List.forall_mem_singleton.mpr ⟨s, rfl⟩⟩,
      List.forall_mem_append.mpr ⟨bound, List.forall_mem_singleton.mpr (ages.tidy.entryBound entry)⟩,
      List.forall_mem_append.mpr ⟨fun x mem => ?_, List.forall_mem_singleton.mpr (Or.inl opened')⟩, ?_⟩
    · intro s' e j writing home' entry' leaf
      cases Names.writingInjective (opened.symm.trans writing)
      cases home'.unique home
      cases entry'.symm.trans entry
      exact apart leaf
    · rcases swept.cleared x mem with recorded | cleared
      · cases idle.symm.trans recorded
      · exact Or.inr (later x mem cleared)
    · intro temp pending
      cases opened'.symm.trans pending
      exact ⟨i, List.mem_append_right _ (List.mem_singleton_self _)⟩
  | @closes s pending closed lacks tidy more since =>
    rw [makesNone fun _ => closed, List.append_nil]
    refine ⟨sound, tidy, ?_, swept.spelled, bound, ?_, ?_⟩
    · intro s' d j writing
      rw [writing] at closed
      cases closed
    · intro x mem
      right
      rcases swept.cleared x mem with recorded | cleared
      · intro s' d spelled home entry
        rw [pending, spelled] at recorded
        cases Template.fillInjective (Option.some.inj recorded)
        cases (lacks d home).symm.trans entry
      · exact later x mem cleared
    · intro temp pending'
      cases closed.symm.trans pending'

theorem Making.swept {first : Bench} (making : Making first made b) (swept : Swept base [] first)
    (plain : Plain (leafOf base)) : Swept base made b := by
  induction making with
  | none => exact swept
  | turn before t may ih => exact ih.turn plain may

/-- Every temp file that is still there, under the name it was made under, is the one that the handle goes by;
so a start that fails leaves none, and neither does whatever closes a cycle. -/
theorem noneOrphaned {first : Bench} (fresh : Fresh base first) (tidy : first.world.fs.Tidy)
    (plain : Plain (leafOf base)) (making : Making first made b) :
    (∀ x ∈ made, b.world.fs.lookupEntry (Path.ofString x.path) = .ok x.ino →
      b.handle.names.temp? = some x.path) ∧
    (∀ temp, b.handle.names.temp? = some temp → ∃ i, ⟨temp, i⟩ ∈ made) ∧
    (∀ e, (b.handle.startWrite b.world).result = .error e →
      Handle.Sided b.world.fs b.handle.lock (b.handle.startWrite b.world).world.fs) ∧
    ∀ t temp, b.Undisturbed t → b.handle.names.temp? = some temp →
      (b.turn t).handle.names.temp? = none →
        ∀ i, (b.turn t).world.fs.lookupEntry (Path.ofString temp) ≠ .ok i := by
  have idle : first.handle.names.temp? = none := by rw [fresh.built]; rfl
  have start : Swept base [] first := {
    sound := fresh.sound
    tidy := tidy
    twinless := by
      intro s d j writing
      rw [writing] at idle
      cases idle
    spelled := List.forall_mem_nil _
    bound := List.forall_mem_nil _
    cleared := List.forall_mem_nil _
    recorded := by
      intro temp pending
      cases idle.symm.trans pending }
  have swept := making.swept start plain
  refine ⟨?_, swept.recorded, ?_, ?_⟩
  · intro x mem there
    rcases swept.cleared x mem with recorded | cleared
    · exact recorded
    · obtain ⟨s, spelled⟩ := swept.spelled x mem
      rw [spelled, tempPath] at there
      obtain ⟨d, home, entry, _⟩ := Fs.entryHome (folderEnds base) (afterPlain base s) there
      exact absurd entry (cleared spelled home)
  · intro e failed
    rw [Handle.startWriteFs swept.sound.quiet]
    exact (Handle.unopenedCycle failed).2.2.2
  · intro t temp may pending closed
    have course := swept.sound.course swept.tidy plain swept.twinless may
    cases course with
    | stays same ages =>
      rcases same with same | ⟨idle, _⟩
      · rw [same, pending] at closed
        cases closed
      · cases idle.symm.trans pending
    | opens idle => cases idle.symm.trans pending
    | closes writing _ lacks =>
      rw [writing] at pending
      cases pending
      exact lacks.lookupEntry

theorem noneLeft :
    let opened := (blank "f").call .startWrite
    let failed := opened.call .failWrite
    let again := failed.call .startWriteStream
    let done := again.call .finishWrite
    ∃ x y, (blank "f").makes (.call .startWrite) = [x] ∧ failed.makes (.call .startWriteStream) = [y] ∧
      again.world.fs.lookupEntry (Path.ofString y.path) = .ok y.ino ∧
      ∀ z ∈ [x, y], done.world.fs.lookupEntry (Path.ofString z.path) ≠ .ok z.ino := by
  intro opened failed again done
  obtain ⟨x, first⟩ : ∃ x, (blank "f").makes (.call .startWrite) = [x] :=
    List.length_eq_one_iff.mp (by decide +kernel)
  obtain ⟨y, second⟩ : ∃ y, failed.makes (.call .startWriteStream) = [y] :=
    List.length_eq_one_iff.mp (by decide +kernel)
  have there : (failed.makes (.call .startWriteStream)).all (fun y =>
      again.world.fs.lookupEntry (Path.ofString y.path) = .ok y.ino) = true := by decide +kernel
  rw [second, List.all_cons, List.all_nil, Bool.and_true, decide_eq_true_eq] at there
  have none : opened.makes (.call .failWrite) = [] ∧ again.makes (.call .finishWrite) = [] := by
    decide +kernel
  have start : Making (blank "f") [] (blank "f") := .none
  have making := ((start.turn (.call .startWrite) trivial).turn (.call .failWrite) trivial).turn
    (.call .startWriteStream) trivial |>.turn (.call .finishWrite) trivial
  change Making _ ([] ++ (blank "f").makes (.call .startWrite) ++ opened.makes (.call .failWrite) ++
    failed.makes (.call .startWriteStream) ++ again.makes (.call .finishWrite)) done at making
  rw [first, none.1, second, none.2] at making
  have kept := (noneOrphaned (blankFresh "f") (blankTidy "f") (by decide) making).1
  have idle : done.handle.names.temp? = Option.none := by decide +kernel
  refine ⟨x, y, first, second, there, fun z mem led => ?_⟩
  cases idle.symm.trans (kept z mem led)

end Bench
end AtomicUpdate
