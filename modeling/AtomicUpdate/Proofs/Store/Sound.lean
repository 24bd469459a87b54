import AtomicUpdate.Proofs.Store.Abstract

/-! What holds of handles on one base at any time: the base is a file or not there, each open cycle has
a temp file to itself, and no two files of these are the same. -/
namespace AtomicUpdate
open Handle (Quiet Unsided Steady Staging Beside Readable)

variable {ι : Type}

/-- Handles just made on one base, and a world in which their paths are such as calls take. The base
is not there or is a file that may be read, and its template is no name in its directory, nor is it
ever drawn. -/
structure Fresh (base : String) (q : Path) (d : Ino) (s : System ι) : Prop where
  ground : Ground s.world.fs base q d
  based : s.world.fs.named? d (leafOf base) = none ∨
    ∃ i c m, s.world.fs.Holds d (leafOf base) i c m ∧ (Node.file c m).permits .read = true
  untaken : s.world.fs.named? d (blankOf base) = none
  drawn : ∀ k, (s.world.draws k).chars ≠ Limits.placeholder.toList
  built : ∀ h, (s.handles h).names = .ofBase base
  quiet : ∀ h, (s.handles h).Quiet
  unsided : ∀ h, (s.handles h).Unsided

def Terms.of (base : String) (d : Ino) (s : System ι) : Terms ι where
  barred := s.world.fs.permits d .read = false ∨ s.world.fs.permits d .write = false ∨
    Commit.Sealed s.world.fs d (leafOf base)
  crossed h := (s.handles h).forced s.world = true ∧ (s.handles h).allowsCopy = false

def Alone (fs : Fs) (d : Ino) (i : Ino) (n : Name) : Prop := ∀ k, fs.named? d k = some i → k = n

theorem Alone.baseApart {fs : Fs} {base : String} {d i j : Ino} {t : Suffix} {c : Bytes} {m : Nat}
    (alone : Alone fs d i (t.after (leafOf base))) (holds : fs.Holds d (leafOf base) j c m) : j ≠ i := by
  intro same
  exact afterNotLeaf base t (alone _ (same ▸ holds.entry)).symm

inductive Station (base : String) (d : Ino) (h : Handle) (fs : Fs) : Prop where
  | live (names : h.names = .ofBase base)
  | gone (names : h.names = .retired)
  | writing (s i c m) (staging : Staging base d h fs s i c m)
      (drawn : s.chars ≠ Limits.placeholder.toList) (alone : Alone fs d i (s.after (leafOf base)))

structure Sound (base : String) (d : Ino) (start s : System ι) : Prop where
  evolves : start.world.fs.Evolves s.world.fs
  steady : ∀ h, Steady (start.handles h) start.world (s.handles h) s.world
  based : s.world.fs.named? d (leafOf base) = none ∨
    ∃ i c m, s.world.fs.Holds d (leafOf base) i c m ∧ (Node.file c m).permits .read = true ∧
      ((Node.file c m).permits .write = true ∨ Commit.Sealed start.world.fs d (leafOf base))
  untaken : s.world.fs.named? d (blankOf base) = none
  station : ∀ h, Station base d (s.handles h) s.world.fs
  apart : ∀ h k temp, (s.handles h).names.temp? = some temp → (s.handles k).names.temp? = some temp →
    h = k

section
variable {base : String} {q : Path} {d : Ino} {start s : System ι}

theorem Fresh.sound (fresh : Fresh base q d s) : Sound base d s s where
  evolves := Fs.Evolves.refl fresh.ground.tidy
  steady := fun h => ⟨rfl, rfl, rfl, fresh.unsided h, rfl, rfl⟩
  based := by
    rcases fresh.based with free | ⟨i, c, m, holds, may⟩
    · exact Or.inl free
    · refine Or.inr ⟨i, c, m, holds, may, ?_⟩
      cases write : (Node.file c m).permits .write with
      | true => exact Or.inl rfl
      | false =>
        right
        refine ⟨i, holds.entry, ?_⟩
        rw [Fs.permits, holds.file, Option.any_some, write]
  untaken := fresh.untaken
  station := fun h => .live (fresh.built h)
  apart := by
    intro h k temp pending
    rw [fresh.built h] at pending
    cases pending

theorem Steady.trans {h₁ h₂ h₃ : Handle} {w₁ w₂ w₃ : World} (first : Steady h₁ w₁ h₂ w₂)
    (second : Steady h₂ w₂ h₃ w₃) : Steady h₁ w₁ h₃ w₃ :=
  ⟨second.policy.trans first.policy, second.force.trans first.force, second.sink.trans first.sink,
    second.unsided, second.env.trans first.env, second.draws.trans first.draws⟩

namespace Sound

theorem quiet (sound : Sound base d start s) (fresh : Fresh base q d start) (h : ι) :
    (s.handles h).Quiet := (sound.steady h).quiet (fresh.quiet h)

theorem unsided (sound : Sound base d start s) (h : ι) : (s.handles h).Unsided :=
  (sound.steady h).unsided

theorem readable (sound : Sound base d start s) : Readable base d s.world.fs := by
  rcases sound.based with free | ⟨i, c, m, holds, may, _⟩
  · exact Or.inl free
  · exact Or.inr ⟨i, c, m, holds, may⟩

theorem beside (sound : Sound base d start s) {i : Ino} {t : Suffix}
    (alone : Alone s.world.fs d i (t.after (leafOf base))) : Beside base d s.world.fs i := by
  rcases sound.based with free | ⟨j, c, m, holds, _⟩
  · exact Or.inl free
  · exact Or.inr ⟨j, c, m, holds, alone.baseApart holds⟩

theorem distinct (sound : Sound base d start s) {h k : ι} (other : k ≠ h) {t t' : Suffix} {i i' : Ino}
    {c c' : Bytes} {m m' : Nat} (first : Staging base d (s.handles h) s.world.fs t i c m)
    (second : Staging base d (s.handles k) s.world.fs t' i' c' m')
    (alone : Alone s.world.fs d i (t.after (leafOf base))) :
    t'.after (leafOf base) ≠ t.after (leafOf base) ∧ i' ≠ i := by
  have names : t'.after (leafOf base) ≠ t.after (leafOf base) := by
    intro same
    have pending := second.temp
    rw [afterInjective same] at pending
    exact other (sound.apart k h _ pending first.temp)
  exact ⟨names, fun same => names (alone _ (same ▸ second.holds.entry))⟩

end Sound

def Spares (base : String) (d : Ino) (fs fs' : Fs) (h : Handle) : Prop :=
  ∀ t i c m, Staging base d h fs t i c m → Alone fs d i (t.after (leafOf base)) →
    fs'.Holds d (t.after (leafOf base)) i c m ∧ Alone fs' d i (t.after (leafOf base))

theorem Spares.station {fs fs' : Fs} {h : Handle} (spares : Spares base d fs fs' h)
    (dir : fs.isDir d = true) (evolves : fs.Evolves fs') (station : Station base d h fs) :
    Station base d h fs' := by
  cases station with
  | live names => exact .live names
  | gone names => exact .gone names
  | writing t i c m staging drawn alone =>
    obtain ⟨holds, alone'⟩ := spares t i c m staging alone
    exact .writing t i c m ⟨staging.names, holds, staging.readable, staging.writable,
      (evolves.keeps.permits dir .write).trans staging.write⟩ drawn alone'

def stagedOf (fs : Fs) (h : Handle) : Option Bytes :=
  h.names.temp?.bind fun temp => fs.contents? (Path.ofString temp)

theorem stagedLive {fs : Fs} {h : Handle} (names : h.names = .ofBase base) : stagedOf fs h = none := by
  rw [stagedOf, names]
  rfl

theorem stagedGone {fs : Fs} {h : Handle} (names : h.names = .retired) : stagedOf fs h = none := by
  rw [stagedOf, names]
  rfl

theorem stagedWriting {first fs : Fs} (ground : Ground first base q d) (evolves : first.Evolves fs)
    {h : Handle} {t : Suffix} {i : Ino} {c : Bytes} {m : Nat}
    (names : h.names = (Names.ofBase base).openWith (Template.fill (Template.stemOf base) t))
    (holds : fs.Holds d (t.after (leafOf base)) i c m) : stagedOf fs h = some c := by
  rw [stagedOf, names]
  change fs.contents? (Path.ofString (Template.fill (Template.stemOf base) t)) = some c
  rw [tempPath]
  exact (ground.home evolves).contents (ground.temp t) holds

theorem Spares.staged {first fs fs' : Fs} {h : Handle} (spares : Spares base d fs fs' h)
    (ground : Ground first base q d) (before : first.Evolves fs) (after : first.Evolves fs')
    (station : Station base d h fs) : stagedOf fs' h = stagedOf fs h := by
  cases station with
  | live names => rw [stagedLive names, stagedLive names]
  | gone names => rw [stagedGone names, stagedGone names]
  | writing t i c m staging drawn alone =>
    obtain ⟨holds, _⟩ := spares t i c m staging alone
    rw [stagedWriting ground after staging.names holds,
      stagedWriting ground before staging.names staging.holds]

structure Stepped (base : String) (d : Ino) (start s : System ι) (h : ι) (h' : Handle) (w' : World) :
    Prop where
  evolves : s.world.fs.Evolves w'.fs
  steady : Steady (s.handles h) s.world h' w'
  based : w'.fs.named? d (leafOf base) = none ∨
    ∃ i c m, w'.fs.Holds d (leafOf base) i c m ∧ (Node.file c m).permits .read = true ∧
      ((Node.file c m).permits .write = true ∨ Commit.Sealed start.world.fs d (leafOf base))
  untaken : w'.fs.named? d (blankOf base) = none
  spares : ∀ k, k ≠ h → Spares base d s.world.fs w'.fs (s.handles k)
  station : Station base d h' w'.fs
  apart : ∀ k temp, k ≠ h → h'.names.temp? = some temp → (s.handles k).names.temp? ≠ some temp

theorem Stepped.nothing {h : ι} {h' : Handle} {w' : World} (sound : Sound base d start s)
    (names : h'.names = (s.handles h).names) (fs : w'.fs = s.world.fs)
    (steady : Steady (s.handles h) s.world h' w') : Stepped base d start s h h' w' where
  evolves := by
    rw [fs]
    exact Fs.Evolves.refl sound.evolves.tidy
  steady := steady
  based := by
    rw [fs]
    exact sound.based
  untaken := by
    rw [fs]
    exact sound.untaken
  spares := by
    intro k _ t i c m staging alone
    rw [fs]
    exact ⟨staging.holds, alone⟩
  station := by
    rw [fs]
    cases sound.station h with
    | live was => exact .live (names.trans was)
    | gone was => exact .gone (names.trans was)
    | writing t i c m staging drawn alone =>
      exact .writing t i c m ⟨names.trans staging.names, staging.holds, staging.readable,
        staging.writable, staging.write⟩ drawn alone
  apart := by
    intro k temp other first second
    rw [names] at first
    exact other (sound.apart k h temp second first)

variable [DecidableEq ι]

theorem Stepped.sound {h : ι} {h' : Handle} {w' : World} (sound : Sound base d start s)
    (fresh : Fresh base q d start) (stepped : Stepped base d start s h h' w') :
    Sound base d start ⟨Function.update s.handles h h', w'⟩ where
  evolves := sound.evolves.trans stepped.evolves
  steady := by
    intro k
    change Steady _ _ (Function.update s.handles h h' k) w'
    by_cases same : k = h
    · subst same
      rw [Function.update_self]
      exact Steady.trans (sound.steady k) stepped.steady
    · rw [Function.update_of_ne same]
      have kept := sound.steady k
      exact ⟨kept.policy, kept.force, kept.sink, kept.unsided, stepped.steady.env.trans kept.env,
        stepped.steady.draws.trans kept.draws⟩
  based := stepped.based
  untaken := stepped.untaken
  station := by
    intro k
    change Station base d (Function.update s.handles h h' k) w'.fs
    by_cases same : k = h
    · subst same
      rw [Function.update_self]
      exact stepped.station
    · rw [Function.update_of_ne same]
      exact Spares.station (stepped.spares k same) (fresh.ground.home sound.evolves).dir stepped.evolves
        (sound.station k)
  apart := by
    intro k l temp first second
    change (Function.update s.handles h h' k).names.temp? = some temp at first
    change (Function.update s.handles h h' l).names.temp? = some temp at second
    by_cases one : k = h
    · by_cases two : l = h
      · rw [one, two]
      · rw [one, Function.update_self] at first
        rw [Function.update_of_ne two] at second
        exact absurd second (stepped.apart l temp two first)
    · by_cases two : l = h
      · rw [two, Function.update_self] at second
        rw [Function.update_of_ne one] at first
        exact absurd first (stepped.apart k temp one second)
      · rw [Function.update_of_ne one] at first
        rw [Function.update_of_ne two] at second
        exact sound.apart k l temp first second

theorem Stepped.store {h : ι} {h' : Handle} {w' : World} (sound : Sound base d start s)
    (fresh : Fresh base q d start) (stepped : Stepped base d start s h h' w') :
    Store.of base ⟨Function.update s.handles h h', w'⟩ =
      { committed := w'.fs.contents? (Path.ofString base)
        staged := Function.update (Store.of base s).staged h (stagedOf w'.fs h')
        retired := Function.update (Store.of base s).retired h (h'.names = .retired) } := by
  have staged : (Store.of base ⟨Function.update s.handles h h', w'⟩).staged =
      Function.update (Store.of base s).staged h (stagedOf w'.fs h') := by
    funext k
    change stagedOf w'.fs (Function.update s.handles h h' k) = _
    by_cases same : k = h
    · subst same
      rw [Function.update_self, Function.update_self]
    · rw [Function.update_of_ne same, Function.update_of_ne same]
      exact Spares.staged (stepped.spares k same) fresh.ground sound.evolves
        (sound.evolves.trans stepped.evolves) (sound.station k)
  have retired : (Store.of base ⟨Function.update s.handles h h', w'⟩).retired =
      Function.update (Store.of base s).retired h (decide (h'.names = .retired)) := by
    funext k
    change decide ((Function.update s.handles h h' k).names = .retired) = _
    by_cases same : k = h
    · subst same
      rw [Function.update_self, Function.update_self]
    · rw [Function.update_of_ne same, Function.update_of_ne same]
      rfl
  rw [← staged, ← retired]
  rfl

theorem Stepped.sameStore {h : ι} {h' : Handle} {w' : World} (sound : Sound base d start s)
    (fresh : Fresh base q d start) (names : h'.names = (s.handles h).names)
    (fs : w'.fs = s.world.fs) (steady : Steady (s.handles h) s.world h' w') :
    Store.of base ⟨Function.update s.handles h h', w'⟩ = Store.of base s := by
  rw [(Stepped.nothing sound names fs steady).store sound fresh, stagedOf, names, fs]
  have staged := Function.update_eq_self h (Store.of base s).staged
  have retired := Function.update_eq_self h (Store.of base s).retired
  calc _ = Store.mk (Store.of base s).committed
        (Function.update (Store.of base s).staged h ((Store.of base s).staged h))
        (Function.update (Store.of base s).retired h ((Store.of base s).retired h)) := rfl
    _ = Store.of base s := by rw [staged, retired]

end
end AtomicUpdate
