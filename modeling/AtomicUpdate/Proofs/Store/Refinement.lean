import AtomicUpdate.Proofs.Handle.Phases
import AtomicUpdate.Proofs.Store.Sound

/-! Handles on one base are a store: each operation answers as the store does and leaves what the store
has then, in whatever order the operations of all handles come. -/
namespace AtomicUpdate
open Handle (Quiet Unsided Steady Staging Beside Readable)

variable {ι : Type} {base : String} {q : Path} {d : Ino} {start s : System ι} {h : ι}

theorem baseContents {first fs : Fs} (ground : Ground first base q d) (evolves : first.Evolves fs) :
    (fs.named? d (leafOf base) = none → fs.contents? (Path.ofString base) = none) ∧
      ∀ {i c m}, fs.Holds d (leafOf base) i c m → fs.contents? (Path.ofString base) = some c := by
  rw [basePath]
  exact ⟨(ground.home evolves).contentsNone ground.leaf, (ground.home evolves).contents ground.leaf⟩

theorem committedKept {first fs fs' : Fs} (ground : Ground first base q d) (evolves : first.Evolves fs)
    (evolves' : first.Evolves fs')
    (based : fs.named? d (leafOf base) = none ∨ ∃ i c m, fs.Holds d (leafOf base) i c m)
    (name : fs'.named? d (leafOf base) = fs.named? d (leafOf base))
    (file : ∀ {i c m}, fs.Holds d (leafOf base) i c m → fs'.node? i = some (.file c m)) :
    fs'.contents? (Path.ofString base) = fs.contents? (Path.ofString base) := by
  rcases based with free | ⟨i, c, m, holds⟩
  · rw [(baseContents ground evolves).1 free, (baseContents ground evolves').1 (name.trans free)]
  · rw [(baseContents ground evolves).2 holds,
      (baseContents ground evolves').2 ⟨name.trans holds.entry, file holds⟩]

namespace Sound

theorem loose (sound : Sound base d start s) : s.world.fs.named? d (leafOf base) = none ∨
    ∃ i c m, s.world.fs.Holds d (leafOf base) i c m := by
  rcases sound.based with free | ⟨i, c, m, holds, _⟩
  · exact Or.inl free
  · exact Or.inr ⟨i, c, m, holds⟩

theorem stagedNone (names : (s.handles h).names = .ofBase base ∨ (s.handles h).names = .retired) :
    (Store.of base s).staged h = none := by
  rcases names with live | gone
  · exact stagedLive live
  · exact stagedGone gone

theorem stagedSome (sound : Sound base d start s) (fresh : Fresh base q d start) {t : Suffix} {i : Ino}
    {c : Bytes} {m : Nat} (staging : Staging base d (s.handles h) s.world.fs t i c m) :
    (Store.of base s).staged h = some c :=
  stagedWriting fresh.ground sound.evolves staging.names staging.holds

theorem retiredNot (base : String) (names : (s.handles h).names ≠ .retired) :
    (Store.of base s).retired h = false :=
  decide_eq_false names

theorem writingNames (base temp : String) : (Names.ofBase base).openWith temp ≠ .retired := by
  intro same
  have phase := congrArg Names.phase same
  cases phase

theorem notSealed (sound : Sound base d start s)
    (now : Commit.Sealed s.world.fs d (leafOf base)) :
    Commit.Sealed start.world.fs d (leafOf base) := by
  obtain ⟨j, entry, barred⟩ := now
  rcases sound.based with free | ⟨i, c, m, holds, _, write | was⟩
  · rw [free] at entry
    cases entry
  · rw [holds.entry] at entry
    cases entry
    rw [Fs.permits, holds.file, Option.any_some, write] at barred
    cases barred
  · exact was

theorem rights (sound : Sound base d start s) (fresh : Fresh base q d start) (a : Access) :
    s.world.fs.permits d a = start.world.fs.permits d a :=
  sound.evolves.keeps.permits fresh.ground.stands.dir a

theorem opens {t : Suffix} {h' : Handle} {w' : World} (sound : Sound base d start s)
    (dir : s.world.fs.isDir d = true) (drawn : t.chars ≠ Limits.placeholder.toList)
    (free : s.world.fs.named? d (t.after (leafOf base)) = none) (write : s.world.fs.permits d .write = true)
    (steady : Steady (s.handles h) s.world h' w')
    (names : h'.names = (Names.ofBase base).openWith (Template.fill (Template.stemOf base) t))
    (born : w'.fs = s.world.fs.born d (t.after (leafOf base)) 0o600) : Stepped base d start s h h' w' := by
  have evolves : s.world.fs.Evolves w'.fs := by
    rw [born]
    exact Fs.evolvesBorn sound.evolves.tidy free 0o600
  have named : ∀ n, w'.fs.named? d n =
      if n = t.after (leafOf base) then some s.world.fs.nodes.size else s.world.fs.named? d n := by
    intro n
    rw [born, Fs.bornEntry dir]
    simp only [true_and]
  have other : ∀ {n}, n ≠ t.after (leafOf base) → w'.fs.named? d n = s.world.fs.named? d n :=
    fun other => (named _).trans (if_neg other)
  have files : ∀ {j b m}, s.world.fs.node? j = some (.file b m) → w'.fs.node? j = some (.file b m) := by
    intro j b m file
    rw [born]
    exact Fs.bornOther file _ _
  exact {
    evolves := evolves
    steady := steady
    based := by
      have leaf := other (afterNotLeaf base t).symm
      rcases sound.based with none | ⟨i, c, m, has, rights⟩
      · exact Or.inl (leaf.trans none)
      · exact Or.inr ⟨i, c, m, ⟨leaf.trans has.entry, files has.file⟩, rights⟩
    untaken := (other (afterNotBlank base drawn).symm).trans sound.untaken
    spares := by
      intro l _ t' i c m staging alone
      have apart : t'.after (leafOf base) ≠ t.after (leafOf base) := by
        intro same
        have entry := staging.holds.entry
        rw [same, free] at entry
        cases entry
      refine ⟨⟨(other apart).trans staging.holds.entry, files staging.holds.file⟩, fun n entry => ?_⟩
      rw [named] at entry
      split at entry
      · have bound := Fs.nodeBound staging.holds.file
        cases entry
        exact absurd bound (Nat.lt_irrefl _)
      · exact alone n entry
    station := .writing t s.world.fs.nodes.size [] 0o600
      ⟨names, born ▸ Fs.bornHolds dir _ _, by decide, by decide,
        (evolves.keeps.permits dir .write).trans write⟩ drawn (by
        intro n entry
        rw [named] at entry
        split at entry
        · assumption
        · exact absurd (sound.evolves.tidy.entryBound entry) (Nat.lt_irrefl _))
    apart := by
      intro l temp _ first second
      rw [names] at first
      cases first
      cases sound.station l with
      | live names => rw [names] at second; cases second
      | gone names => rw [names] at second; cases second
      | writing t' i c m staging drawn' alone =>
        rw [staging.temp] at second
        have entry := staging.holds.entry
        rw [Template.fillInjective (Option.some.inj second), free] at entry
        cases entry }

theorem edits {t : Suffix} {i : Ino} {c c' : Bytes} {m m' : Nat} {fs' : Fs} (sound : Sound base d start s)
    (dir : s.world.fs.isDir d = true) (staging : Staging base d (s.handles h) s.world.fs t i c m)
    (drawn : t.chars ≠ Limits.placeholder.toList) (alone : Alone s.world.fs d i (t.after (leafOf base)))
    (only : Fs.OnlyAt i s.world.fs fs') (file : fs'.node? i = some (.file c' m'))
    (rights : ∀ b b' a, (Node.file b m').permits a = (Node.file b' m).permits a) :
    Stepped base d start s h (s.handles h) (s.world.withFs fs') := by
  have alike := only.alike staging.holds.file file
  have named : ∀ n, fs'.named? d n = s.world.fs.named? d n := alike.entry d
  have evolves : s.world.fs.Evolves fs' :=
    Fs.Evolves.ofAlike sound.evolves.tidy alike (Nat.le_of_eq only.size.symm)
  exact {
    evolves := evolves
    steady := ⟨rfl, rfl, rfl, sound.unsided h, rfl, rfl⟩
    based := by
      rcases sound.based with none | ⟨j, c, m, has, rest⟩
      · exact Or.inl ((named _).trans none)
      · exact Or.inr ⟨j, c, m, ⟨(named _).trans has.entry,
          (only.others j (alone.baseApart has)).trans has.file⟩, rest⟩
    untaken := (named _).trans sound.untaken
    spares := by
      intro l other t' i' c' m' staging' alone'
      have apart := (sound.distinct other staging staging' alone).2
      exact ⟨⟨(named _).trans staging'.holds.entry, (only.others i' apart).trans staging'.holds.file⟩,
        fun n entry => alone' n ((named n).symm.trans entry)⟩
    station := .writing t i c' m' ⟨staging.names, ⟨(named _).trans staging.holds.entry, file⟩,
      (rights _ c .read).trans staging.readable, (rights _ c .write).trans staging.writable,
      (evolves.keeps.permits dir .write).trans staging.write⟩ drawn
      (fun n entry => alone n ((named n).symm.trans entry))
    apart := fun l temp other first second => other (sound.apart l h temp second first) }

theorem commits {t : Suffix} {i : Ino} {c : Bytes} {m : Nat} {h' : Handle} {w' : World}
    (sound : Sound base d start s) (staging : Staging base d (s.handles h) s.world.fs t i c m)
    (drawn : t.chars ≠ Limits.placeholder.toList) (alone : Alone s.world.fs d i (t.after (leafOf base)))
    (names : h'.names = .ofBase base) (steady : Steady (s.handles h) s.world h' w')
    (commits : Commit.Commits s.world.fs w'.fs d (t.after (leafOf base)) (leafOf base) i c m) :
    Stepped base d start s h h' w' where
  evolves := commits.evolves
  steady := steady
  based := by
    obtain ⟨j, m', holds, _, rights⟩ := commits.base
    exact Or.inr ⟨j, c, m', holds, (rights c c .read).trans staging.readable,
      Or.inl ((rights c c .write).trans staging.writable)⟩
  untaken := (commits.names _ (blankNotLeaf base) (afterNotBlank base drawn).symm).trans sound.untaken
  spares := by
    intro l other t' i' c' m' staging' alone'
    obtain ⟨apart, apart'⟩ := sound.distinct other staging staging' alone
    have notBase : s.world.fs.named? d (leafOf base) ≠ some i' := by
      intro entry
      exact afterNotLeaf base t' (alone' _ entry).symm
    refine ⟨⟨(commits.names _ (afterNotLeaf base t') apart).trans staging'.holds.entry,
      commits.files staging'.holds.file notBase⟩, fun n entry => ?_⟩
    by_cases isLeaf : n = leafOf base
    · obtain ⟨j, m', holds, origin, _⟩ := commits.base
      rw [isLeaf, holds.entry] at entry
      cases entry
      rcases origin with same | was | fresh
      · exact absurd same apart'
      · exact absurd was notBase
      · exact absurd (Fs.nodeBound staging'.holds.file) (by rw [fresh]; exact Nat.lt_irrefl _)
    · by_cases isTemp : n = t.after (leafOf base)
      · rw [isTemp, commits.gone] at entry
        cases entry
      · exact alone' n ((commits.names n isLeaf isTemp).symm.trans entry)
  station := .live names
  apart := by
    intro l temp _ first
    rw [names] at first
    cases first

theorem clears {ns : List Name} {h' : Handle} {w' : World} (sound : Sound base d start s)
    (clears : s.world.fs.Clears w'.fs d ns)
    (steady : Steady (s.handles h) s.world h' w') (names : h'.names = .ofBase base ∨ h'.names = .retired)
    (others : ∀ l, l ≠ h → ∀ t i c m, Staging base d (s.handles l) s.world.fs t i c m →
      t.after (leafOf base) ∉ ns) : Stepped base d start s h h' w' where
  evolves := clears.evolves
  steady := steady
  based := by
    by_cases gone : leafOf base ∈ ns
    · exact Or.inl (clears.gone _ gone)
    · rcases sound.based with none | ⟨j, c, m, has, rest⟩
      · exact Or.inl ((clears.names _ gone).trans none)
      · exact Or.inr ⟨j, c, m, ⟨(clears.names _ gone).trans has.entry, clears.files has.file⟩, rest⟩
  untaken := by
    by_cases gone : blankOf base ∈ ns
    · exact clears.gone _ gone
    · exact (clears.names _ gone).trans sound.untaken
  spares := by
    intro l other t i c m staging alone
    refine ⟨⟨(clears.names _ (others l other t i c m staging)).trans staging.holds.entry,
      clears.files staging.holds.file⟩, fun n entry => ?_⟩
    by_cases gone : n ∈ ns
    · rw [clears.gone n gone] at entry
      cases entry
    · exact alone n ((clears.names n gone).symm.trans entry)
  station := by
    rcases names with live | gone
    · exact .live live
    · exact .gone gone
  apart := by
    intro l temp _ first
    rcases names with live | gone
    · rw [live] at first
      cases first
    · rw [gone] at first
      cases first

variable [DecidableEq ι]

theorem settled {α : Type} {r : Ran α} (sound : Sound base d start s) (fresh : Fresh base q d start)
    (names : r.handle.names = (s.handles h).names) (fs : r.world.fs = s.world.fs)
    (steady : Steady (s.handles h) s.world r.handle r.world) :
    Sound base d start (s.put h r) ∧ Store.of base (s.put h r) = Store.of base s :=
  ⟨(Stepped.nothing sound names fs steady).sound sound fresh,
    Stepped.sameStore sound fresh names fs steady⟩

theorem staged {h' : Handle} {w' : World} (sound : Sound base d start s)
    (fresh : Fresh base q d start) (stepped : Stepped base d start s h h' w')
    (was : (s.handles h).names ≠ .retired) (is : h'.names ≠ .retired) :
    Store.of base ⟨Function.update s.handles h h', w'⟩ =
      { (Store.of base s).stage h (stagedOf w'.fs h') with
        committed := w'.fs.contents? (Path.ofString base) } := by
  have retired : Function.update (Store.of base s).retired h (decide (h'.names = .retired)) =
      (Store.of base s).retired := by
    rw [decide_eq_false is, ← retiredNot base was, Function.update_eq_self]
  rw [stepped.store sound fresh, retired]
  rfl

end Sound

variable [DecidableEq ι]

theorem startWriteStep (fresh : Fresh base q d start) (sound : Sound base d start s) (h : ι) :
    Sound base d start (s.perform (.startWrite h)).2 ∧
      Store.Step (Terms.of base d start) (Store.of base s) (.startWrite h)
        (s.perform (.startWrite h)).1 (Store.of base (s.perform (.startWrite h)).2) := by
  have phase : (s.handles h).names = .ofBase base ∨ (s.handles h).names = .retired ∨
      ∃ temp, (s.handles h).names.temp? = some temp := by
    cases sound.station h with
    | live names => exact Or.inl names
    | gone names => exact Or.inr (Or.inl names)
    | writing t i c m staging drawn alone => exact Or.inr (Or.inr ⟨_, staging.temp⟩)
  obtain ⟨starts, steady⟩ := Handle.startWriteEnds fresh.ground sound.evolves (sound.quiet fresh h)
    (sound.unsided h) phase
  change Sound base d start (s.put h ((s.handles h).startWrite s.world)) ∧ Store.Step _ _ _
    (.told (((s.handles h).startWrite s.world).result.map fun _ => ()))
    (Store.of base (s.put h ((s.handles h).startWrite s.world)))
  generalize (s.handles h).startWrite s.world = r at starts steady
  cases starts with
  | @refused e error names fs busy =>
    obtain ⟨after, same⟩ := sound.settled fresh names fs steady
    refine ⟨after, ?_⟩
    rw [error, same]
    change Store.Step _ _ _ (.told (.error e)) _
    cases sound.station h with
    | live names => exact .notStarted (Sound.stagedNone (Or.inl names))
    | gone names => exact .notStarted (Sound.stagedNone (Or.inr names))
    | writing t i c m staging drawn alone =>
      have pending := staging.temp
      rw [busy (by rw [pending]; rfl)]
      exact .busy (sound.stagedSome fresh staging)
  | @opened k live free write ok names fs =>
    have dir := (fresh.ground.home sound.evolves).dir
    have drawn : (s.world.draws k).chars ≠ Limits.placeholder.toList := by
      rw [(sound.steady h).draws]
      exact fresh.drawn k
    generalize s.world.draws k = t at free ok names fs drawn
    rw [live] at names
    have stepped := sound.opens dir drawn free write steady names fs
    refine ⟨stepped.sound sound fresh, ?_⟩
    have leaf : r.world.fs.named? d (leafOf base) = s.world.fs.named? d (leafOf base) := by
      rw [fs, Fs.bornEntry dir, if_neg fun both => afterNotLeaf base t both.2.symm]
    have committed := committedKept fresh.ground sound.evolves (sound.evolves.trans stepped.evolves) sound.loose
      leaf (fun has => by rw [fs]; exact Fs.bornOther has.file _ _)
    have after := sound.staged fresh stepped (by rw [live]; exact Names.liveNames base)
      (by rw [names]; exact Sound.writingNames base _)
    rw [stagedWriting fresh.ground (sound.evolves.trans stepped.evolves) names (fs ▸ Fs.bornHolds dir _ _),
      committed] at after
    change Store.Step _ _ _ (.told (r.result.map fun _ => ()))
      (Store.of base ⟨Function.update s.handles h r.handle, r.world⟩)
    rw [ok, after]
    exact .started (Sound.stagedNone (Or.inl live))
      (Sound.retiredNot base (by rw [live]; exact Names.liveNames base))

theorem editStep (fresh : Fresh base q d start) (sound : Sound base d start s) (h : ι) (e : Edit) :
    Sound base d start (s.perform (.edit h e)).2 ∧
      Store.Step (Terms.of base d start) (Store.of base s) (.edit h e)
        (s.perform (.edit h e)).1 (Store.of base (s.perform (.edit h e)).2) := by
  change Sound base d start (s.edit h e) ∧ Store.Step _ _ _ .silent (Store.of base (s.edit h e))
  have idle : (s.handles h).names.temp? = none → s.edit h e = s := by
    intro none
    rw [System.edit, none]
  cases sound.station h with
  | live names =>
    rw [idle (by rw [names]; rfl)]
    exact ⟨sound, .notEdited (Sound.stagedNone (Or.inl names))⟩
  | gone names =>
    rw [idle (by rw [names]; rfl)]
    exact ⟨sound, .notEdited (Sound.stagedNone (Or.inr names))⟩
  | writing t i c m staging drawn alone =>
    obtain ⟨fs', m', done, only, file, rights⟩ := Handle.editEnds fresh.ground sound.evolves staging e
    have edited : s.edit h e = ⟨Function.update s.handles h (s.handles h), s.world.withFs fs'⟩ := by
      rw [Function.update_eq_self, System.edit, staging.temp]
      dsimp only
      rw [tempPath, done]
    have stepped := sound.edits (fresh.ground.home sound.evolves).dir staging drawn alone only file rights
    rw [edited]
    refine ⟨stepped.sound sound fresh, ?_⟩
    have notGone : (s.handles h).names ≠ .retired := by
      rw [staging.names]
      exact Sound.writingNames base _
    have evolves : start.world.fs.Evolves fs' := sound.evolves.trans stepped.evolves
    have named := (only.alike staging.holds.file file).entry d
    have committed : fs'.contents? (Path.ofString base) = s.world.fs.contents? (Path.ofString base) :=
      committedKept fresh.ground sound.evolves evolves sound.loose (named _)
        (fun has => (only.others _ (alone.baseApart has)).trans has.file)
    have after := sound.staged fresh stepped notGone notGone
    change _ = { (Store.of base s).stage h (stagedOf fs' (s.handles h)) with
      committed := fs'.contents? (Path.ofString base) } at after
    rw [stagedWriting fresh.ground evolves staging.names ⟨(named _).trans staging.holds.entry, file⟩,
      committed] at after
    rw [after]
    exact .edited (sound.stagedSome fresh staging)

theorem finishWriteStep (fresh : Fresh base q d start) (sound : Sound base d start s) (h : ι) :
    Sound base d start (s.perform (.finishWrite h)).2 ∧
      Store.Step (Terms.of base d start) (Store.of base s) (.finishWrite h)
        (s.perform (.finishWrite h)).1 (Store.of base (s.perform (.finishWrite h)).2) := by
  change Sound base d start (s.put h ((s.handles h).finishWrite s.world)) ∧ Store.Step _ _ _
    (.told ((s.handles h).finishWrite s.world).result)
    (Store.of base (s.put h ((s.handles h).finishWrite s.world)))
  have idle : (s.handles h).names.temp? = none → (Store.of base s).staged h = none →
      Sound base d start (s.put h ((s.handles h).finishWrite s.world)) ∧
        Store.Step (Terms.of base d start) (Store.of base s) (.finishWrite h)
          (.told ((s.handles h).finishWrite s.world).result)
          (Store.of base (s.put h ((s.handles h).finishWrite s.world))) := by
    intro idle unstaged
    obtain ⟨⟨result, handle, fs, steady⟩, _⟩ :=
      Handle.idleEnds (sound.quiet fresh h) (sound.unsided h) idle s.world
    obtain ⟨after, same⟩ := sound.settled fresh (by rw [handle]) fs (by rw [handle]; exact steady)
    refine ⟨after, ?_⟩
    rw [result, same]
    exact .nothingToCommit unstaged
  cases sound.station h with
  | live names => exact idle (by rw [names]; rfl) (Sound.stagedNone (Or.inl names))
  | gone names => exact idle (by rw [names]; rfl) (Sound.stagedNone (Or.inr names))
  | writing t i c m staging drawn alone =>
    obtain ⟨finishes, steady⟩ := Handle.finishWriteEnds fresh.ground sound.evolves
      (sound.quiet fresh h) (sound.unsided h) staging (sound.beside alone)
    have staged := sound.stagedSome fresh staging
    have crosses : (Terms.of base d start).crossed h ↔
        (s.handles h).forced s.world = true ∧ (s.handles h).allowsCopy = false := by
      have kept := sound.steady h
      change ((start.handles h).forceExdev.getD (Commit.forcedByEnv start.world.env) = true ∧
        decide ((start.handles h).policy.commit.exdev = .copyFallback) = false) ↔
        ((s.handles h).forceExdev.getD (Commit.forcedByEnv s.world.env) = true ∧
          decide ((s.handles h).policy.commit.exdev = .copyFallback) = false)
      rw [kept.force, kept.env, kept.policy]
    generalize (s.handles h).finishWrite s.world = r at finishes steady
    cases finishes with
    | barred reason error names fs =>
      obtain ⟨after, same⟩ := sound.settled fresh names fs steady
      refine ⟨after, ?_⟩
      rw [error, same]
      refine .notCommitted staged ?_
      rcases reason with read | now
      · exact Or.inl ((sound.rights fresh .read).symm.trans read)
      · exact Or.inr (Or.inr (sound.notSealed now))
    | crossed forced refused error names fs =>
      obtain ⟨after, same⟩ := sound.settled fresh names fs steady
      refine ⟨after, ?_⟩
      rw [error, same]
      exact .crossed staged (crosses.mpr ⟨forced, refused⟩)
    | done free ok names commits =>
      have stepped := sound.commits staging drawn alone names steady commits
      refine ⟨stepped.sound sound fresh, ?_⟩
      obtain ⟨j, m', holds, _, _⟩ := commits.base
      have after := sound.staged fresh stepped
        (by rw [staging.names]; exact Sound.writingNames base _)
        (by rw [names]; exact Names.liveNames base)
      rw [stagedLive names,
        (baseContents fresh.ground (sound.evolves.trans commits.evolves)).2 holds] at after
      change Store.Step _ _ _ _ (Store.of base ⟨Function.update s.handles h r.handle, r.world⟩)
      rw [ok, after]
      refine .committed staged fun crossed => ?_
      obtain ⟨forced, refused⟩ := crosses.mp crossed
      rw [free forced] at refused
      cases refused

theorem failWriteStep (fresh : Fresh base q d start) (sound : Sound base d start s) (h : ι) :
    Sound base d start (s.perform (.failWrite h)).2 ∧
      Store.Step (Terms.of base d start) (Store.of base s) (.failWrite h)
        (s.perform (.failWrite h)).1 (Store.of base (s.perform (.failWrite h)).2) := by
  change Sound base d start (s.put h ((s.handles h).failWrite s.world)) ∧ Store.Step _ _ _
    (.told ((s.handles h).failWrite s.world).result)
    (Store.of base (s.put h ((s.handles h).failWrite s.world)))
  have idle : (s.handles h).names.temp? = none → (Store.of base s).staged h = none →
      Sound base d start (s.put h ((s.handles h).failWrite s.world)) ∧
        Store.Step (Terms.of base d start) (Store.of base s) (.failWrite h)
          (.told ((s.handles h).failWrite s.world).result)
          (Store.of base (s.put h ((s.handles h).failWrite s.world))) := by
    intro idle unstaged
    obtain ⟨_, result, handle, fs, steady⟩ :=
      Handle.idleEnds (sound.quiet fresh h) (sound.unsided h) idle s.world
    obtain ⟨after, same⟩ := sound.settled fresh (by rw [handle]) fs (by rw [handle]; exact steady)
    refine ⟨after, ?_⟩
    rw [result, same]
    exact .nothingToRollBack unstaged
  cases sound.station h with
  | live names => exact idle (by rw [names]; rfl) (Sound.stagedNone (Or.inl names))
  | gone names => exact idle (by rw [names]; rfl) (Sound.stagedNone (Or.inr names))
  | writing t i c m staging drawn alone =>
    obtain ⟨ok, names, clears, steady⟩ := Handle.failWriteEnds fresh.ground sound.evolves
      (sound.quiet fresh h) (sound.unsided h) staging
    have staged := sound.stagedSome fresh staging
    generalize (s.handles h).failWrite s.world = r at ok names clears steady
    have stepped : Stepped base d start s h r.handle r.world :=
      sound.clears clears steady (Or.inl names) fun l other t' i' c' m' staging' mem =>
        (sound.distinct other staging staging' alone).1 (List.mem_singleton.mp mem)
    refine ⟨stepped.sound sound fresh, ?_⟩
    have after := sound.staged fresh stepped (by rw [staging.names]; exact Sound.writingNames base _)
      (by rw [names]; exact Names.liveNames base)
    have leaf : leafOf base ∉ [t.after (leafOf base)] := by
      intro mem
      exact afterNotLeaf base t (List.mem_singleton.mp mem).symm
    have committed := committedKept fresh.ground sound.evolves (sound.evolves.trans clears.evolves)
      sound.loose (clears.names _ leaf) (fun has => clears.files has.file)
    rw [stagedLive names, committed] at after
    change Store.Step _ _ _ _ (Store.of base ⟨Function.update s.handles h r.handle, r.world⟩)
    rw [ok, after]
    exact .rolledBack staged

theorem retiresStep (fresh : Fresh base q d start) (sound : Sound base d start s) {h : ι} {n : Name}
    {r : Ran Unit} (inUse : (s.handles h).names ≠ .retired)
    (retires : Handle.Retires base d n (s.handles h) s.world r)
    (steady : Steady (s.handles h) s.world r.handle r.world)
    (others : ∀ l, l ≠ h → ∀ t i c m, Staging base d (s.handles l) s.world.fs t i c m →
      t.after (leafOf base) ∉ [n, leafOf base]) :
    Sound base d start (s.put h r) ∧ Store.Step (Terms.of base d start) (Store.of base s) (.delete h)
      (.told r.result) (Store.of base (s.put h r)) := by
  cases retires with
  | done ok names clears =>
    have stepped : Stepped base d start s h r.handle r.world :=
      sound.clears clears steady (Or.inr names) others
    refine ⟨stepped.sound sound fresh, ?_⟩
    have none := (baseContents fresh.ground (sound.evolves.trans clears.evolves)).1
      (clears.gone _ (List.mem_cons_of_mem n (List.mem_singleton_self _)))
    have after := stepped.store sound fresh
    rw [none, stagedGone names, names] at after
    change Store.Step _ _ _ _ (Store.of base ⟨Function.update s.handles h r.handle, r.world⟩)
    rw [ok, after]
    exact .deleted (Sound.retiredNot base inUse)
  | barred reason error names fs =>
    obtain ⟨after, same⟩ := sound.settled fresh names fs steady
    refine ⟨after, ?_⟩
    rw [error, same]
    exact .notDeleted (Sound.retiredNot base inUse)
      (Or.inr (Or.inl ((sound.rights fresh .write).symm.trans reason)))

theorem deleteStep (fresh : Fresh base q d start) (sound : Sound base d start s) (h : ι) :
    Sound base d start (s.perform (.delete h)).2 ∧
      Store.Step (Terms.of base d start) (Store.of base s) (.delete h)
        (s.perform (.delete h)).1 (Store.of base (s.perform (.delete h)).2) := by
  change Sound base d start (s.put h ((s.handles h).delete s.world)) ∧ Store.Step _ _ _
    (.told ((s.handles h).delete s.world).result)
    (Store.of base (s.put h ((s.handles h).delete s.world)))
  cases sound.station h with
  | live names =>
    have path : Path.ofString (s.handles h).names.staging = folderOf base ++ blankOf base := by
      rw [names]
      exact blankPath base
    obtain ⟨retires, steady⟩ := Handle.deleteEnds fresh.ground sound.evolves (sound.quiet fresh h)
      (sound.unsided h) (by rw [names]; rfl) path fresh.ground.blank (blankNotLeaf base)
      (Or.inl sound.untaken) (fun taken => absurd sound.untaken taken) sound.loose
    refine retiresStep fresh sound (by rw [names]; exact Names.liveNames base) retires steady ?_
    intro l _ t i c m staging mem
    rcases List.mem_cons.mp mem with blank | leaf
    · have entry := staging.holds.entry
      rw [blank, sound.untaken] at entry
      cases entry
    · exact afterNotLeaf base t (List.mem_singleton.mp leaf)
  | gone names =>
    obtain ⟨ok, names', fs, steady⟩ :=
      Handle.deleteGone (sound.quiet fresh h) (sound.unsided h) names s.world
    obtain ⟨after, same⟩ := sound.settled fresh (names'.trans names.symm) fs steady
    refine ⟨after, ?_⟩
    rw [ok, same]
    exact .deletedAgain (decide_eq_true names)
  | writing t i c m staging drawn alone =>
    have path : Path.ofString (s.handles h).names.staging =
        folderOf base ++ t.after (leafOf base) := by
      rw [staging.names]
      exact tempPath base t
    obtain ⟨retires, steady⟩ := Handle.deleteEnds fresh.ground sound.evolves (sound.quiet fresh h)
      (sound.unsided h) (by rw [staging.names]; rfl) path (fresh.ground.temp t) (afterNotLeaf base t)
      (Or.inr ⟨i, c, m, staging.holds⟩) (fun _ => staging.write) sound.loose
    refine retiresStep fresh sound (by rw [staging.names]; exact Sound.writingNames base _) retires steady ?_
    intro l other t' i' c' m' staging' mem
    rcases List.mem_cons.mp mem with temp | leaf
    · exact (sound.distinct other staging staging' alone).1 temp
    · exact afterNotLeaf base t' (List.mem_singleton.mp leaf)

theorem readSteps (fresh : Fresh base q d start) (sound : Sound base d start s) (h : ι) :
    (Sound base d start (s.perform (.readFully h)).2 ∧
      Store.Step (Terms.of base d start) (Store.of base s) (.readFully h)
        (s.perform (.readFully h)).1 (Store.of base (s.perform (.readFully h)).2)) ∧
    Sound base d start (s.perform (.openRead h)).2 ∧
      Store.Step (Terms.of base d start) (Store.of base s) (.openRead h)
        (s.perform (.openRead h)).1 (Store.of base (s.perform (.openRead h)).2) := by
  have quiet := sound.quiet fresh h
  have unsided := sound.unsided h
  change (Sound base d start (s.put h ((s.handles h).readFully s.world)) ∧ Store.Step _ _ _
      (.gave ((s.handles h).readFully s.world).result)
      (Store.of base (s.put h ((s.handles h).readFully s.world)))) ∧
    Sound base d start (s.put h ((s.handles h).openRead s.world)) ∧ Store.Step _ _ _
      (.gave (Handle.openAnswer ((s.handles h).openRead s.world)))
      (Store.of base (s.put h ((s.handles h).openRead s.world)))
  have phase : ((s.handles h).names.base = base ∧ (s.handles h).names ≠ .retired) ∨
      (s.handles h).names = .retired := by
    cases sound.station h with
    | live names => exact Or.inl (names ▸ ⟨rfl, Names.liveNames base⟩)
    | gone names => exact Or.inr names
    | writing t i c m staging drawn alone =>
      exact Or.inl (staging.names ▸ ⟨rfl, Sound.writingNames base _⟩)
  rcases phase with ⟨based, inUse⟩ | names
  · obtain ⟨result, handle, fs, steady⟩ :=
      Handle.readFullyEnds fresh.ground sound.evolves quiet unsided based sound.readable
    obtain ⟨result', handle', fs', steady'⟩ :=
      Handle.openReadEnds fresh.ground sound.evolves quiet unsided based sound.readable
    obtain ⟨after, same⟩ := sound.settled fresh (by rw [handle]) fs (by rw [handle]; exact steady)
    obtain ⟨after', same'⟩ := sound.settled fresh (by rw [handle']) fs' (by rw [handle']; exact steady')
    refine ⟨⟨after, ?_⟩, after', ?_⟩
    · rw [result, same]
      exact .read (Sound.retiredNot base inUse)
    · rw [result', same']
      exact .opened (Sound.retiredNot base inUse)
  · obtain ⟨⟨result, handle, fs, steady⟩, result', handle', fs', steady'⟩ :=
      Handle.readGone quiet unsided names s.world
    obtain ⟨after, same⟩ := sound.settled fresh (by rw [handle]) fs (by rw [handle]; exact steady)
    obtain ⟨after', same'⟩ := sound.settled fresh (by rw [handle']) fs' (by rw [handle']; exact steady')
    refine ⟨⟨after, ?_⟩, after', ?_⟩
    · rw [result, same]
      exact .readNothing (decide_eq_true names)
    · rw [result', same']
      exact .openedNothing (decide_eq_true names)

theorem releaseAllKeeps (guards : List Guard) (w : World) :
    (w.releaseAll guards).fs = w.fs ∧ (w.releaseAll guards).env = w.env ∧
      (w.releaseAll guards).draws = w.draws := by
  induction guards generalizing w with
  | nil => exact ⟨rfl, rfl, rfl⟩
  | cons g rest ih =>
    have first : (w.release g).fs = w.fs ∧ (w.release g).env = w.env ∧
        (w.release g).draws = w.draws := by cases g <;> exact ⟨rfl, rfl, rfl⟩
    obtain ⟨fs, env, draws⟩ := ih (w.release g)
    exact ⟨fs.trans first.1, env.trans first.2.1, draws.trans first.2.2⟩

theorem waitStep (sound : Sound base d start s) (ms : Nat) :
    Sound base d start (s.perform (.wait ms)).2 ∧
      Store.Step (Terms.of base d start) (Store.of base s) (.wait ms)
        (s.perform (.wait ms)).1 (Store.of base (s.perform (.wait ms)).2) := by
  obtain ⟨fs, env, draws⟩ : (s.world.wait ms).fs = s.world.fs ∧ (s.world.wait ms).env = s.world.env ∧
      (s.world.wait ms).draws = s.world.draws := releaseAllKeeps _ _
  have store : Store.of base { s with world := s.world.wait ms } = Store.of base s := by
    simp only [Store.of, fs]
  refine ⟨?_, ?_⟩
  · exact {
      evolves := fs ▸ sound.evolves
      steady := fun h => ⟨(sound.steady h).policy, (sound.steady h).force, (sound.steady h).sink,
        sound.unsided h, env.trans (sound.steady h).env, draws.trans (sound.steady h).draws⟩
      based := fs ▸ sound.based
      untaken := fs ▸ sound.untaken
      station := fun h => fs ▸ sound.station h
      apart := sound.apart }
  · change Store.Step _ _ _ .silent (Store.of base { s with world := s.world.wait ms })
    rw [store]
    exact .waited

theorem performStep (fresh : Fresh base q d start) (sound : Sound base d start s) (op : Op ι) :
    Sound base d start (s.perform op).2 ∧
      Store.Step (Terms.of base d start) (Store.of base s) op (s.perform op).1
        (Store.of base (s.perform op).2) := by
  cases op with
  | startWrite h => exact startWriteStep fresh sound h
  | edit h e => exact editStep fresh sound h e
  | finishWrite h => exact finishWriteStep fresh sound h
  | failWrite h => exact failWriteStep fresh sound h
  | delete h => exact deleteStep fresh sound h
  | readFully h => exact (readSteps fresh sound h).1
  | openRead h => exact (readSteps fresh sound h).2
  | wait ms => exact waitStep sound ms

theorem performAllRun (fresh : Fresh base q d start) (sound : Sound base d start s) (ops : List (Op ι)) :
    Store.Run (Terms.of base d start) (Store.of base s) (s.performAll ops).1
      (Store.of base (s.performAll ops).2) := by
  induction ops generalizing s with
  | nil => exact .nil
  | cons op ops ih =>
    obtain ⟨after, step⟩ := performStep fresh sound op
    exact .cons step (ih after)

theorem handlesAreStore (fresh : Fresh base q d start) (ops : List (Op ι)) :
    Store.Run (Terms.of base d start)
      ⟨start.world.fs.contents? (Path.ofString base), fun _ => none, fun _ => false⟩
      (start.performAll ops).1 (Store.of base (start.performAll ops).2) := by
  have begin' : Store.of base start =
      ⟨start.world.fs.contents? (Path.ofString base), fun _ => none, fun _ => false⟩ := by
    have staged : (Store.of base start).staged = fun _ => none :=
      funext fun h => stagedLive (fresh.built h)
    have retired : (Store.of base start).retired = fun _ => false :=
      funext fun h => Sound.retiredNot base (by rw [fresh.built h]; exact Names.liveNames base)
    calc Store.of base start = Store.mk (Store.of base start).committed
          (Store.of base start).staged (Store.of base start).retired := rfl
      _ = _ := by rw [staged, retired]; rfl
  rw [← begin']
  exact performAllRun fresh fresh.sound ops

def pair : System Bool where
  handles _ := .ofBase "f"
  world := { fs := .bare, draws := fun k => .ofNats k 0 0 0 0 0 }

theorem pairFresh : Fresh "f" [Path.slash] 0 pair where
  ground := by
    have kept : ∀ node ∈ Fs.bare.nodes.toList, node.WellKept Fs.bare.nodes.size := by decide +kernel
    obtain ⟨tidy, spelled⟩ := Fs.tidyOf kept
    exact {
      plain := by decide +kernel
      short := by decide +kernel
      within := by decide +kernel
      noNul := by decide +kernel
      stands := {
        ends := Path.throughEnds _
        led := by decide +kernel
        dir := by decide +kernel
        here := by decide +kernel
        search := by decide +kernel
        canonical := by decide +kernel
        back := by decide +kernel
        noNul := by decide +kernel }
      room := by decide +kernel
      tidy := tidy
      spelled := spelled }
  based := Or.inl (by decide +kernel)
  untaken := by decide +kernel
  drawn := by
    intro k same
    have second := congrArg (fun cs => cs[1]?) same
    revert second
    change some (Suffix.pick 0) = _ → _
    decide +kernel
  built _ := rfl
  quiet _ _ _ := rfl
  unsided _ _ same := by cases same

theorem pairIsStore :
    let ops : List (Op Bool) := [.startWrite true, .startWrite false, .edit true (.put 0 [1, 2]),
      .finishWrite true, .readFully false, .failWrite false, .delete true, .openRead false]
    (pair.performAll ops).1.map (·.2) = [.told (.ok ()), .told (.ok ()), .silent, .told (.ok ()),
        .gave (.ok [1, 2]), .told (.ok ()), .told (.ok ()), .gave (.error .enoent)] ∧
      Store.Run (Terms.of "f" 0 pair) ⟨none, fun _ => none, fun _ => false⟩
        (pair.performAll ops).1 (Store.of "f" (pair.performAll ops).2) := by
  intro ops
  refine ⟨by decide +kernel, ?_⟩
  have run := handlesAreStore pairFresh ops
  have absent : pair.world.fs.contents? (Path.ofString "f") = none := by decide +kernel
  rwa [absent] at run

end AtomicUpdate
