import AtomicUpdate.Proofs.Lock.Contest

/-! Handles and others that lock one file, in any order of their steps. At most one of them is in a
cycle or has the lock for itself; who gives up waiting has found somebody else's lock and is as before;
and none of them takes the lock file away or writes into it. -/
namespace AtomicUpdate
open Fs (Minds)

namespace Contest
variable {ι : Type} {p : Path} {s : Contest ι}

theorem Proper.idle (orderly : s.Orderly p) {i : ι} {party : Party} (is : s.parties i = party) :
    Proper p s i ⟨none, party, s.world⟩ where
  minds := Minds.refl p orderly.tidy
  exclusive := orderly.exclusive
  owners := Nat.le_refl _
  theirs := fun _ _ _ _ mem => mem
  party := is ▸ orderly.each i
  owner := fun owner => Or.inl (is ▸ owner)

theorem Proper.conducts (orderly : s.Orderly p) {i : ι} {h h' : Handle} {w' : World}
    (is : s.parties i = .handle h) (conducts : Handle.Conducts p h s.world h' w')
    (answer : Option (Except Errno String)) : Proper p s i ⟨answer, .handle h', w'⟩ := by
  have orderly' : (Party.handle h).Orderly p s.world := is ▸ orderly.each i
  obtain ⟨lock, heedful, state⟩ := orderly'
  have lock' : h'.lock = some (.sidecar p) := conducts.lock.trans lock
  have heedful' : h'.Heedful p := heedful.same conducts.sink
  have owners := Nat.le_of_eq conducts.owners.symm
  rcases conducts.held with ⟨names, guard, locks⟩ | ⟨idle, guard, locks⟩
  · have same : (Party.handle h').owner? = (s.parties i).owner? := by
      rw [is, Party.owner?, Party.owner?, guard]
    exact {
      minds := conducts.minds
      exclusive := locks.symm ▸ orderly.exclusive
      owners := owners
      theirs := fun _ _ _ _ mem => locks.symm ▸ mem
      party := by
        refine ⟨lock', heedful', ?_⟩
        rw [Handle.isPending, names, guard]
        refine state.imp id ?_
        rintro ⟨o, pending, held, locked⟩
        exact ⟨o, pending, held, locked.kept conducts.minds.leads fun _ _ mem => locks.symm ▸ mem⟩
      owner := fun owner => Or.inl (same ▸ owner) }
  · have released : ∀ {l}, l ∈ s.world.locks → (s.parties i).owner? ≠ some l.owner → l ∈ w'.locks := by
      intro l mem other
      rw [locks, Handle.releaseGuard]
      rw [is, Party.owner?] at other
      rcases state with ⟨_, none⟩ | ⟨o, _, held, _⟩
      · rw [none]
        exact mem
      · rw [held] at other ⊢
        exact LockTable.memRelease.mpr ⟨mem, fun same => other (congrArg some same.symm)⟩
    have table : w'.locks.Exclusive := by
      rw [locks, Handle.releaseGuard]
      rcases state with ⟨_, none⟩ | ⟨o, _, held, _⟩
      · rw [none]
        exact orderly.exclusive
      · rw [held]
        exact LockTable.exclusiveRelease orderly.exclusive o
    exact {
      minds := conducts.minds
      exclusive := table
      owners := owners
      theirs := fun _ other l same mem => released mem (same ▸ other)
      party := ⟨lock', heedful', Or.inl ⟨by rw [Handle.isPending, idle]; rfl, guard⟩⟩
      owner := fun owner => by
        rw [Party.owner?, guard] at owner
        cases owner }

theorem Proper.enters (orderly : s.Orderly p) {i : ι} {x : Wait} {fs : Fs} {party : Party}
    (free : ∀ {w'}, w'.fs.file? p = some x.file.ino → party.Orderly p w')
    (owner : party.owner? = some x.file.owner) (fresh : x.file.owner = s.world.owners)
    (minds : Minds p s.world.fs fs) (led : fs.file? p = some x.file.ino) :
    Proper p s i ⟨none, party, { s.world with fs, owners := s.world.owners + 1 }⟩ where
  minds := minds
  exclusive := orderly.exclusive
  owners := Nat.le_succ _
  theirs := fun _ _ _ _ mem => mem
  party := free led
  owner := by
    intro o same
    rw [owner] at same
    cases same
    exact Or.inr ⟨fresh, Nat.lt_succ_self _⟩

theorem startProper (orderly : s.Orderly p) {i : ι} {h : Handle} (is : s.parties i = .handle h) :
    Proper p s i ((h.beginWrite s.world).turn h) := by
  have orderly' : (Party.handle h).Orderly p s.world := is ▸ orderly.each i
  obtain ⟨lock, heedful, state⟩ := orderly'
  cases begun : h.beginWrite s.world with
  | ended r =>
    obtain ⟨conducts, _, _⟩ := Handle.beginEnds lock orderly.tidy heedful begun
    exact .conducts orderly is conducts _
  | waiting x w' =>
    obtain ⟨idle, fresh, minds, led, fs, rfl⟩ := Handle.beginWaits lock orderly.tidy begun
    have quiet : h.isPending = false := by rw [Handle.isPending, idle]; rfl
    have none : h.guard = none := by
      rcases state with ⟨_, none⟩ | ⟨o, pending, _⟩
      · exact none
      · rw [quiet] at pending
        cases pending
    exact .enters orderly (fun led => ⟨lock, heedful, quiet, none, led⟩) rfl fresh minds led

theorem Proper.attempts (orderly : s.Orderly p) {i : ι} {x : Wait} {t : Turn}
    (is : (s.parties i).owner? = some x.file.owner) (minds : Minds p s.world.fs t.world.fs)
    (owners : t.world.owners = s.world.owners)
    (locks : t.world.locks = (s.world.locks.request x.file.ino x.file.owner .exclusive).2 ∨
      t.world.locks = (s.world.locks.request x.file.ino x.file.owner .exclusive).2.release x.file.owner)
    (party : t.party.Orderly p t.world)
    (owner : ∀ {o}, t.party.owner? = some o → o = x.file.owner) : Proper p s i t where
  minds := minds
  exclusive := by
    rcases locks with same | same
    · rw [same]
      exact LockTable.exclusiveRequest orderly.exclusive
    · rw [same]
      exact LockTable.exclusiveRelease (LockTable.exclusiveRequest orderly.exclusive) _
  owners := Nat.le_of_eq owners.symm
  theirs := by
    intro o _ other l same mem
    have apart : l.owner ≠ x.file.owner := fun mine => other (is.trans (congrArg some (mine ▸ same)))
    have asked : l ∈ (s.world.locks.request x.file.ino x.file.owner .exclusive).2 :=
      (LockTable.memRequest apart).mpr mem
    rcases locks with same | same
    · exact same ▸ asked
    · exact same ▸ LockTable.memRelease.mpr ⟨asked, apart⟩
  party := party
  owner := fun same => Or.inl (owner same ▸ is)

theorem pollProper (orderly : s.Orderly p) {i : ι} {h : Handle} {x : Wait}
    (is : s.parties i = .opening h x) : Proper p s i ((h.pollWrite x s.world).turn h) := by
  have orderly' : (Party.opening h x).Orderly p s.world := is ▸ orderly.each i
  obtain ⟨lock, heedful, idle, none, led⟩ := orderly'
  have owner : (s.parties i).owner? = some x.file.owner := by rw [is]; rfl
  cases polled : h.pollWrite x s.world with
  | waiting x' w' =>
    have ended := x.attempted h.timeout s.world
    unfold Handle.pollWrite at polled
    generalize x.poll h.timeout s.world = answer at ended polled
    cases ended with
    | kept granted => cases polled
    | late refused late => cases polled
    | paused refused early =>
      cases polled
      exact .attempts orderly owner (Minds.refl p orderly.tidy) rfl (Or.inl rfl)
        ⟨lock, heedful, idle, none, led⟩ fun same => (Option.some.inj same).symm
  | ended r =>
    obtain ⟨settled, lock', sink, owners, minds⟩ := Handle.pollEnds orderly.tidy heedful polled
    have heedful' : r.handle.Heedful p := heedful.same sink
    cases settled with
    | @opened temp ok names guard had held =>
      refine .attempts orderly owner minds owners (Or.inl held) ⟨lock'.trans lock, heedful', Or.inr
        ⟨x.file.owner, ?_, guard, x.file.ino, minds.leads led, ?_⟩⟩ ?_
      · rw [Handle.isPending, names]
        rfl
      · change _ ∈ r.world.locks
        rw [held]
        exact LockTable.granted had
      · intro o same
        change (Party.handle r.handle).owner? = some o at same
        rw [Party.owner?, guard] at same
        exact (Option.some.inj same).symm
    | failed error again names guard held =>
      refine .attempts orderly owner minds owners (Or.inr held) ⟨lock'.trans lock, heedful', Or.inl
        ⟨?_, guard.trans none⟩⟩ ?_
      · rw [Handle.isPending, names]
        exact idle
      · intro o same
        change (Party.handle r.handle).owner? = some o at same
        rw [Party.owner?, guard, none] at same
        cases same

theorem askProper (orderly : s.Orderly p) {i : ι} {timeout : Nat} {x : Wait}
    (is : s.parties i = .asking timeout x) : Proper p s i ((s.parties i).act p s.world .poll) := by
  have led : (Party.asking timeout x).Orderly p s.world := is ▸ orderly.each i
  have owner : (s.parties i).owner? = some x.file.owner := by rw [is]; rfl
  have minds := Minds.refl p orderly.tidy
  have ended := x.attempted timeout s.world
  rw [is, Party.act]
  generalize x.poll timeout s.world = answer at ended
  cases ended with
  | kept granted =>
    refine .attempts orderly owner minds rfl (Or.inl rfl)
      ⟨x.file.owner, rfl, x.file.ino, led, LockTable.granted granted⟩ fun same => ?_
    exact (Option.some.inj same).symm
  | paused refused early =>
    exact .attempts orderly owner minds rfl (Or.inl rfl) led fun same => (Option.some.inj same).symm
  | late refused late =>
    exact .attempts orderly owner minds rfl (Or.inr rfl) trivial fun same => by cases same

theorem Proper.leaves (orderly : s.Orderly p) {i : ι} {w' : World} (fs : w'.fs = s.world.fs)
    (owners : w'.owners = s.world.owners)
    (locks : w'.locks = s.world.locks ∨ ∃ o, (s.parties i).owner? = some o ∧
      w'.locks = s.world.locks.release o) : Proper p s i ⟨none, .absent, w'⟩ where
  minds := fs.symm ▸ Minds.refl p orderly.tidy
  exclusive := by
    rcases locks with same | ⟨o, _, same⟩
    · exact same.symm ▸ orderly.exclusive
    · exact same.symm ▸ LockTable.exclusiveRelease orderly.exclusive o
  owners := Nat.le_of_eq owners.symm
  theirs := by
    intro o _ other l same mem
    rcases locks with locks | ⟨o', mine, locks⟩
    · exact locks.symm ▸ mem
    · refine locks.symm ▸ LockTable.memRelease.mpr ⟨mem, fun gone => other ?_⟩
      rw [mine, ← same, gone]
  party := trivial
  owner := fun same => by cases same

theorem dropProper (orderly : s.Orderly p) (i : ι) :
    Proper p s i ((s.parties i).act p s.world .drop) := by
  have orderly' := orderly.each i
  unfold Party.act
  cases is : s.parties i with
  | absent => exact .idle orderly is
  | opening h x => exact .idle orderly is
  | asking timeout x => exact .idle orderly is
  | handle h =>
    obtain ⟨same, owners⟩ := h.releaseGuardRest s.world
    refine .leaves orderly same owners ?_
    rw [is] at orderly' ⊢
    obtain ⟨_, _, ⟨_, none⟩ | ⟨o, _, held, _⟩⟩ := orderly'
    · rw [Handle.releaseGuard, none]
      exact Or.inl rfl
    · rw [Handle.releaseGuard, Party.owner?, held]
      exact Or.inr ⟨o, rfl, rfl⟩
  | holding g =>
    rw [is] at orderly'
    obtain ⟨o, rfl, _⟩ := orderly'
    exact .leaves orderly rfl rfl (Or.inr ⟨o, by rw [is]; rfl, rfl⟩)

theorem Proper.runs (orderly : s.Orderly p) {i : ι} {h h' : Handle} {w' : World}
    (is : s.parties i = .handle h) (clear : (s.parties i).Clear p s.world.fs)
    (conducts : h.Apart p s.world.fs → h.Heedful p → Handle.Conducts p h s.world h' w') :
    Proper p s i ⟨none, .handle h', w'⟩ := by
  have orderly' : (Party.handle h).Orderly p s.world := is ▸ orderly.each i
  have apart : (Party.handle h).Clear p s.world.fs := is ▸ clear
  exact .conducts orderly is (conducts apart orderly'.2.1) none

theorem actProper (orderly : s.Orderly p) (i : ι) (a : Act)
    (allowed : a.Allowed p (s.parties i) s.world.fs) :
    Proper p s i ((s.parties i).act p s.world a) := by
  cases a with
  | drop => exact dropProper orderly i
  | make h =>
    cases is : s.parties i with
    | absent =>
      obtain ⟨lock, quiet, none, heedful⟩ := allowed
      exact {
        minds := Minds.refl p orderly.tidy
        exclusive := orderly.exclusive
        owners := Nat.le_refl _
        theirs := fun _ _ _ _ mem => mem
        party := ⟨lock, heedful, Or.inl ⟨quiet, none⟩⟩
        owner := fun same => by
          change (Party.handle h).owner? = _ at same
          rw [Party.owner?, none] at same
          cases same }
    | _ => exact .idle orderly is
  | ask timeout =>
    cases is : s.parties i with
    | absent =>
      rw [Party.act]
      cases begun : LockManager.enter p s.world with
      | mk result w' =>
        cases result with
        | error e =>
          obtain ⟨rfl, _⟩ := LockManager.notEntered begun
          exact .idle orderly is
        | ok x =>
          obtain ⟨fs, made, fresh, _, rfl⟩ := LockManager.entered begun
          obtain ⟨minds, led⟩ := Fs.openCreateMinds orderly.tidy made
          exact .enters orderly (fun led => led) rfl fresh minds led
    | _ => exact .idle orderly is
  | start =>
    cases is : s.parties i with
    | handle h => exact startProper orderly is
    | _ => exact .idle orderly is
  | poll =>
    cases is : s.parties i with
    | opening h x => exact pollProper orderly is
    | asking timeout x => exact is ▸ askProper orderly is
    | _ => exact .idle orderly is
  | finish =>
    cases is : s.parties i with
    | handle h => exact .runs orderly is allowed (Handle.finishWriteConducts orderly.tidy)
    | _ => exact .idle orderly is
  | fail =>
    cases is : s.parties i with
    | handle h => exact .runs orderly is allowed (Handle.failWriteConducts orderly.tidy)
    | _ => exact .idle orderly is
  | delete =>
    cases is : s.parties i with
    | handle h => exact .runs orderly is allowed (Handle.deleteConducts orderly.tidy)
    | _ => exact .idle orderly is

theorem Orderly.others (orderly : s.Orderly p) {w : World} (may : Others p s w) :
    Orderly p { s with world := w } where
  tidy := may.tidy
  exclusive := may.exclusive
  bound := fun owner => Nat.lt_of_lt_of_le (orderly.bound owner) may.owners
  distinct := orderly.distinct
  each := fun i => (orderly.each i).kept may.sidecar may.theirs

theorem orderlyStep [DecidableEq ι] {deed : Deed ι} {s' : Contest ι} (orderly : s.Orderly p)
    (step : Step p s deed s') : s'.Orderly p := by
  cases step with
  | act i a allowed => exact orderly.put (actProper orderly i a allowed)
  | others may => exact orderly.others may

theorem orderlyRun [DecidableEq ι] {s₀ : Contest ι} (vacant : s₀.Vacant) (run : Run p s₀ s) :
    s.Orderly p := by
  have start : s₀.Orderly p := by
    refine ⟨vacant.tidy, vacant.exclusive, ?_, ?_, ?_⟩
    · intro i o owner
      rw [vacant.absent i] at owner
      cases owner
    · intro i j o owner
      rw [vacant.absent i] at owner
      cases owner
    · intro i
      rw [vacant.absent i]
      trivial
  induction run with
  | refl => exact start
  | step _ step ih => exact orderlyStep ih step

theorem insideLocked {party : Party} {w : World} (orderly : party.Orderly p w) (inside : party.Inside) :
    ∃ o, party.owner? = some o ∧ w.Locked p o := by
  cases party with
  | absent => cases inside
  | asking timeout x => cases inside
  | opening h x =>
    have quiet := orderly.2.2.1
    rw [inside] at quiet
    cases quiet
  | handle h =>
    obtain ⟨_, _, ⟨quiet, _⟩ | ⟨o, _, held, locked⟩⟩ := orderly
    · rw [inside] at quiet
      cases quiet
    · exact ⟨o, by rw [Party.owner?, held]; rfl, locked⟩
  | holding g =>
    obtain ⟨o, rfl, locked⟩ := orderly
    exact ⟨o, rfl, locked⟩

theorem Orderly.alone (orderly : s.Orderly p) {i j : ι} (first : (s.parties i).Inside)
    (second : (s.parties j).Inside) : i = j := by
  obtain ⟨o, mine, k, led, held⟩ := insideLocked (orderly.each i) first
  obtain ⟨o', yours, k', led', held'⟩ := insideLocked (orderly.each j) second
  rw [led] at led'
  cases led'
  have same : o = o' := orderly.exclusive _ held _ held' rfl rfl
  exact orderly.distinct mine (same ▸ yours)

structure GaveUp (p : Path) (s : Contest ι) (i : ι) (s' : Contest ι) : Prop where
  committed : ∃ h x h', s.parties i = .opening h x ∧ s'.parties i = .handle h' ∧
    h'.names = h.names ∧ h'.names.phase = .committed
  contended : ∃ k, s.world.fs.file? p = some k ∧
    ∃ l ∈ s.world.locks, l.ino = k ∧ (s.parties i).owner? ≠ some l.owner

theorem answered {party : Party} {w : World} {a : Act} {result : Except Errno String}
    (told : (party.act p w a).answer = some result) :
    (∃ h r, party = .handle h ∧ h.beginWrite w = .ended r ∧ r.result = result) ∨
      ∃ h x r, party = .opening h x ∧ h.pollWrite x w = .ended r ∧ r.result = result ∧
        (party.act p w a).party = .handle r.handle := by
  cases a with
  | make h => cases party <;> cases told
  | ask timeout =>
    cases party with
    | absent =>
      rw [Party.act] at told
      split at told <;> cases told
    | _ => cases told
  | start =>
    cases party with
    | handle h =>
      rw [Party.act] at told
      cases begun : h.beginWrite w with
      | waiting x w' => rw [begun] at told; cases told
      | ended r =>
        rw [begun] at told
        exact Or.inl ⟨h, r, rfl, begun, Option.some.inj told⟩
    | _ => cases told
  | poll =>
    cases party with
    | opening h x =>
      rw [Party.act] at told ⊢
      cases polled : h.pollWrite x w with
      | waiting x w' => rw [polled] at told; cases told
      | ended r =>
        rw [polled] at told
        exact Or.inr ⟨h, x, r, rfl, polled, Option.some.inj told, rfl⟩
    | asking timeout x =>
      rw [Party.act] at told
      split at told <;> cases told
    | _ => cases told
  | finish => cases party <;> cases told
  | fail => cases party <;> cases told
  | delete => cases party <;> cases told
  | drop => cases party <;> cases told

theorem committedOf {n : Names} (idle : n.temp? = none) : n.phase = .committed := by
  cases phase : n.phase with
  | committed => rfl
  | pending temp =>
    rw [Names.temp?, phase] at idle
    cases idle

theorem gaveUp [DecidableEq ι] (orderly : s.Orderly p) {i : ι} {a : Act}
    (told : ((s.parties i).act p s.world a).answer = some (.error .eagain)) :
    GaveUp p s i (s.put i ((s.parties i).act p s.world a)) := by
  have orderly' := orderly.each i
  rcases answered told with ⟨h, r, is, begun, result⟩ | ⟨h, x, r, is, polled, result, after⟩
  · rw [is] at orderly'
    obtain ⟨_, _, e, failed, other⟩ := Handle.beginEnds orderly'.1 orderly.tidy orderly'.2.1 begun
    rw [result] at failed
    cases failed
    exact absurd rfl other
  · rw [is] at orderly'
    obtain ⟨_, heedful, quiet, _, led⟩ := orderly'
    obtain ⟨settled, _⟩ := Handle.pollEnds orderly.tidy heedful polled
    cases settled with
    | opened ok =>
      rw [result] at ok
      cases ok
    | failed error again names =>
      rw [result] at error
      cases error
      obtain ⟨l, mem, same, other⟩ := LockTable.refused (again rfl)
      refine ⟨⟨h, x, r.handle, is, ?_, names, ?_⟩, x.file.ino, led, l, mem, same, ?_⟩
      · simp [put, after]
      · rw [names]
        exact committedOf (by simpa [Handle.isPending] using quiet)
      · rw [is]
        exact fun mine => other (Option.some.inj mine).symm

/-- However the steps of handles and of others interleave: at most one is inside at any time, a handle has
the lock just while its cycle is open, a start that gives up has changed nothing and met somebody else's
lock, and no step of theirs takes the lock file away or changes it. -/
theorem sidecarExcludes [DecidableEq ι] {s₀ : Contest ι} (vacant : s₀.Vacant) (run : Run p s₀ s) :
    (∀ i j, (s.parties i).Inside → (s.parties j).Inside → i = j) ∧
      (∀ i h, s.parties i = .handle h → h.guard.isSome = h.isPending) ∧
      ∀ i answer s', Step p s (some (i, answer)) s' →
        Minds p s.world.fs s'.world.fs ∧ (answer = some (.error .eagain) → GaveUp p s i s') := by
  have orderly := orderlyRun vacant run
  refine ⟨fun i j => orderly.alone, ?_, ?_⟩
  · intro i h is
    have orderly' : (Party.handle h).Orderly p s.world := is ▸ orderly.each i
    obtain ⟨_, _, ⟨quiet, none⟩ | ⟨o, pending, held, _⟩⟩ := orderly'
    · rw [none, quiet]
      rfl
    · rw [held, pending]
      rfl
  · intro i answer s' step
    cases step with
    | act _ a allowed => exact ⟨(actProper orderly i a allowed).minds, gaveUp orderly⟩

def lockPath : Path := LockManager.besideBase (Path.ofString "f")

def writer : Handle :=
  { Handle.ofBase "f" with
    lock := some (.sidecar lockPath)
    policy := { locking := { timeoutMs := 0 } } }

def duel : Contest Bool := ⟨fun _ => .absent, { fs := .bare }⟩

theorem secondGivesUp :
    let act (s : Contest Bool) (i : Bool) (a : Act) : Contest Bool :=
      s.put i ((s.parties i).act lockPath s.world a)
    let opened := act (act (act (act duel true (.make writer)) false (.make writer)) true .start) true .poll
    let waits := act opened false .start
    let gone := act waits false .poll
    duel.Vacant ∧ (waits.parties true).Inside ∧
      ((waits.parties false).act lockPath waits.world .poll).answer = some (.error .eagain) ∧
      GaveUp lockPath waits false gone ∧
      ∀ i j, ((act gone true .finish).parties i).Inside → ((act gone true .finish).parties j).Inside →
        i = j := by
  intro act opened waits gone
  have kept : ∀ node ∈ Fs.bare.nodes.toList, node.WellKept Fs.bare.nodes.size := by decide +kernel
  have vacant : duel.Vacant :=
    ⟨fun _ => rfl, (Fs.tidyOf kept).1, fun _ mem => absurd mem List.not_mem_nil⟩
  have heedful : writer.Heedful lockPath := fun _ _ tidy => Minds.refl lockPath tidy
  have one := Run.step (.refl duel) (.act true (.make writer) ⟨rfl, rfl, rfl, heedful⟩)
  have two := one.step (.act false (.make writer) ⟨rfl, rfl, rfl, heedful⟩)
  have three := two.step (.act true .start trivial)
  have four := three.step (.act true .poll trivial)
  have five : Run lockPath duel waits := four.step (.act false .start trivial)
  have last : Step lockPath waits _ gone := .act false .poll trivial
  have told : ((waits.parties false).act lockPath waits.world .poll).answer = some (.error .eagain) := by
    decide +kernel
  rw [told] at last
  have clear : (gone.parties true).Clear lockPath gone.world.fs := by decide +kernel
  have finished : Run lockPath duel (act gone true .finish) :=
    (five.step last).step (.act true .finish clear)
  exact ⟨vacant, by decide +kernel, told,
    ((sidecarExcludes vacant five).2.2 false _ gone last).2 rfl, (sidecarExcludes vacant finished).1⟩

end Contest
end AtomicUpdate
