import AtomicUpdate.Locking
import AtomicUpdate.Proofs.Fs.Effects
import AtomicUpdate.Proofs.Lock.Polling
import AtomicUpdate.Proofs.Lock.Table
import Mathlib.Logic.Function.Basic

/-! Asking for another kind of lock than one has. Whatever the openings of one file have asked for and let go
before, by hand or through a manager, each has one lock at most. One that is refused is left without any, and
all others have what they had: so a refused upgrade costs the shared lock, and every other refusal nothing. -/
namespace AtomicUpdate

namespace LockTable

inductive Traffic (k : Ino) : LockTable → LockTable → Prop where
  | refl (t) : Traffic k t t
  | released {t t'} (before : Traffic k t t') (o : Owner) : Traffic k t (t'.release o)
  | requested {t t'} (before : Traffic k t t') (o : Owner) (kind : LockKind) :
      Traffic k t (t'.request k o kind).2

variable {t t' t'' : LockTable} {k i : Ino} {o o' : Owner} {kind : LockKind}

def held (t : LockTable) (o : Owner) : Option LockKind := (t.find? fun l => l.owner = o).map (·.kind)

def Single (t : LockTable) : Prop := ∀ a ∈ t, ∀ b ∈ t, a.owner = b.owner → a = b

theorem heldNone : t.held o = none ↔ ∀ l ∈ t, l.owner ≠ o := by
  simp [held]

theorem heldSome (single : t.Single) : t.held o = some kind ↔ ∃ i, ⟨i, o, kind⟩ ∈ t := by
  constructor
  · intro has
    obtain ⟨⟨i, o', kind'⟩, found, rfl⟩ := Option.map_eq_some_iff.mp has
    have same : o' = o := by simpa using List.find?_some found
    exact ⟨i, same ▸ List.mem_of_find?_eq_some found⟩
  · rintro ⟨i, mem⟩
    have some' : (t.find? fun l => l.owner = o).isSome := List.find?_isSome.mpr ⟨_, mem, by simp⟩
    obtain ⟨l, found⟩ := Option.isSome_iff_exists.mp some'
    have same : l = ⟨i, o, kind⟩ :=
      single l (List.mem_of_find?_eq_some found) _ mem (by simpa using List.find?_some found)
    rw [held, found, same]
    rfl

theorem heldRelease (t : LockTable) (o o' : Owner) :
    (t.release o).held o' = if o' = o then none else t.held o' := by
  split
  · rename_i same
    exact heldNone.mpr fun l mem => same ▸ (memRelease.mp mem).2
  · rename_i other
    have both : ∀ l : HeldLock, (l.owner ≠ o ∧ l.owner = o') ↔ l.owner = o' :=
      fun l => ⟨And.right, fun same => ⟨same ▸ other, same⟩⟩
    simp [held, release, both]

theorem releaseNone (none : t.held o = none) : t.release o = t :=
  List.filter_eq_self.mpr fun l mem => decide_eq_true (heldNone.mp none l mem)

theorem refusedExact (no : (t.request i o kind).1 = false) : ⟨i, o, kind⟩ ∉ t ∧
    (∃ l ∈ t.release o, conflicts i o kind l = true) ∧ (t.request i o kind).2 = t.release o := by
  rw [requested] at no ⊢
  split at no
  · cases no
  rename_i lacks
  split at no
  · rename_i taken
    rw [if_neg lacks, if_pos taken]
    exact ⟨lacks, taken, rfl⟩
  · cases no

theorem Traffic.trans (first : Traffic k t t') (second : Traffic k t' t'') : Traffic k t t'' := by
  induction second with
  | refl => exact first
  | released before o ih => exact .released ih o
  | requested before o kind ih => exact .requested ih o kind

structure Fair (k : Ino) (t : LockTable) : Prop where
  there : ∀ l ∈ t, l.ino = k
  single : t.Single
  exclusive : t.Exclusive

namespace Fair

theorem release (fair : t.Fair k) (o : Owner) : (t.release o).Fair k where
  there l mem := fair.there l (memRelease.mp mem).1
  single a memA b memB := fair.single a (memRelease.mp memA).1 b (memRelease.mp memB).1
  exclusive := exclusiveRelease fair.exclusive o

theorem request (fair : t.Fair k) (o : Owner) (kind : LockKind) : (t.request k o kind).2.Fair k := by
  have rest := fair.release o
  refine ⟨?_, ?_, exclusiveRequest fair.exclusive⟩ <;> rw [requested] <;> split
  · exact fair.there
  · split
    · exact rest.there
    · exact List.forall_mem_cons.mpr ⟨rfl, rest.there⟩
  · exact fair.single
  · split
    · exact rest.single
    · intro a memA b memB same
      rcases List.mem_cons.mp memA with rfl | oldA
      · rcases List.mem_cons.mp memB with rfl | oldB
        · rfl
        · exact absurd same.symm (memRelease.mp oldB).2
      · rcases List.mem_cons.mp memB with rfl | oldB
        · exact absurd same (memRelease.mp oldA).2
        · exact rest.single a oldA b oldB same

theorem traffic (fair : t.Fair k) (traffic : Traffic k t t') : t'.Fair k := by
  induction traffic with
  | refl => exact fair
  | released before o ih => exact ih.release o
  | requested before o kind ih => exact ih.request o kind

theorem refusedHeld (fair : t.Fair k) (no : (t.request k o kind).1 = false) :
    t.held o = none ∨ kind = .exclusive ∧ t.held o = some .shared := by
  obtain ⟨lacks, ⟨l, mem, conflict⟩, _⟩ := refusedExact no
  cases has : t.held o with
  | none => exact Or.inl rfl
  | some own =>
    right
    obtain ⟨i, mine⟩ := (heldSome fair.single).mp has
    obtain rfl : i = k := fair.there _ mine
    obtain ⟨theirs, other⟩ := memRelease.mp mem
    simp only [conflicts, Bool.and_eq_true, Bool.or_eq_true, decide_eq_true_eq] at conflict
    cases kind with
    | exclusive =>
      cases own with
      | shared => exact ⟨rfl, rfl⟩
      | exclusive => exact absurd mine lacks
    | shared =>
      have strong : l.kind = .exclusive := conflict.2.resolve_left (by decide)
      exact absurd (fair.exclusive l theirs _ mine (fair.there l theirs) strong) other

end Fair
end LockTable

open LockTable (Traffic)

structure World.Trades (k : Ino) (w w' : World) : Prop where
  locks : Traffic k w.locks w'.locks
  owners : w'.owners = w.owners

namespace World
variable {k : Ino} {w w' w'' : World}

theorem Trades.refl (w : World) : w.Trades k w := ⟨.refl _, rfl⟩

theorem Trades.trans (first : w.Trades k w') (second : w'.Trades k w'') : w.Trades k w'' :=
  ⟨first.locks.trans second.locks, second.owners.trans first.owners⟩

theorem releaseTrades (w : World) (g : Guard) : w.Trades k (w.release g) := by
  cases g with
  | sidecar o => exact ⟨.released (.refl _) o, rfl⟩
  | scripted => exact ⟨.refl _, rfl⟩

theorem releaseAllTrades (guards : List Guard) (w : World) : w.Trades k (w.releaseAll guards) := by
  induction guards generalizing w with
  | nil => exact .refl w
  | cons g rest ih => exact (releaseTrades w g).trans (ih (w.release g))

theorem waitTrades (w : World) (ms : Nat) : w.Trades k (w.wait ms) := by
  obtain ⟨locks, owners⟩ := releaseAllTrades (k := k) ((w.due.partition fun g => g.1 ≤ w.clock + ms).1.map (·.2))
    { w with clock := w.clock + ms, due := (w.due.partition fun g => g.1 ≤ w.clock + ms).2 }
  exact ⟨locks, owners⟩

end World

namespace OpenFile
open World (Trades)

theorem requestTrades (f : OpenFile) (kind : LockKind) (w : World) :
    w.Trades f.ino { w with locks := (w.locks.request f.ino f.owner kind).2 } :=
  ⟨.requested (.refl _) f.owner kind, rfl⟩

theorem lockTrades (f : OpenFile) (kind : LockKind) (w : World) : w.Trades f.ino (f.lock kind w).2 := by
  unfold lock
  generalize w.due.length = dues
  induction dues generalizing w with
  | zero =>
    unfold lock.attempt
    dsimp only
    split <;> exact f.requestTrades kind w
  | succ dues ih =>
    unfold lock.attempt
    dsimp only
    split
    · exact f.requestTrades kind w
    split
    · exact f.requestTrades kind w
    · exact (f.requestTrades kind w).trans ((World.waitTrades _ _).trans (ih _))

end OpenFile

namespace Wait

theorem pollTrades (x : Wait) (timeout : Nat) (w : World) : w.Trades x.file.ino (x.poll timeout w).2 := by
  have ended := x.attempted timeout w
  generalize x.poll timeout w = answer at ended
  have asked := Traffic.requested (.refl w.locks) x.file.owner .exclusive (k := x.file.ino)
  cases ended with
  | kept granted => exact ⟨asked, rfl⟩
  | paused refused early => exact ⟨asked, rfl⟩
  | late refused late => exact ⟨asked.released x.file.owner, rfl⟩

theorem Polled.trades {x : Wait} {timeout : Nat} {w : World} {r : Except Errno Guard × World}
    (polled : x.Polled timeout w r) :
    w.Trades x.file.ino r.2 ∧ ∀ g, r.1 = .ok g → g = .sidecar x.file.owner := by
  induction polled with
  | @last w w' g ends =>
    have trades := x.pollTrades timeout w
    have ended := x.attempted timeout w
    rw [ends] at trades ended
    refine ⟨trades, ?_⟩
    rintro g' rfl
    cases ended
    rfl
  | @again w w' r waits more ih =>
    have trades := x.pollTrades timeout w
    rw [waits] at trades
    exact ⟨trades.trans ((World.waitTrades _ _).trans ih.1), ih.2⟩

end Wait

inductive Locker
  | absent
  | file (f : OpenFile)
  | asking (timeout : Nat) (x : Wait)
  | guard (o : Owner)
  | lent (o : Owner)
  deriving DecidableEq

inductive LockMove
  | openFile
  | lock (kind : LockKind)
  | tryLock (kind : LockKind)
  | unlock
  | acquire (path : Path) (timeout : Nat)
  | ask (path : Path) (timeout : Nat)
  | poll
  | lend (ms : Nat)
  | drop

def LockMove.Allowed (k : Ino) (w : World) : LockMove → Prop
  | .acquire path _ | .ask path _ => ∀ x w', LockManager.enter path w = (.ok x, w') → x.file.ino = k
  | _ => True

namespace Locker

def move (k : Ino) (who : Locker) (w : World) (m : LockMove) : Locker × World :=
  match who, m with
  | .absent, .openFile => (.file (w.openNode k).1, (w.openNode k).2)
  | .absent, .acquire path timeout =>
      match LockManager.acquireSidecar path timeout w with
      | (.ok (.sidecar o), w) => (.guard o, w)
      | (_, w) => (.absent, w)
  | .absent, .ask path timeout =>
      match LockManager.enter path w with
      | (.ok x, w) => (.asking timeout x, w)
      | (.error _, w) => (.absent, w)
  | .file f, .lock kind => (.file f, (f.lock kind w).2)
  | .file f, .tryLock kind => (.file f, (f.tryLock kind w).2)
  | .file f, .unlock => (.file f, f.unlock w)
  | .file f, .drop => (.absent, w.close f)
  | .asking timeout x, .poll =>
      match x.poll timeout w with
      | (none, w) => (.asking timeout x, w)
      | (some (.ok _), w) => (.guard x.file.owner, w)
      | (some (.error _), w) => (.absent, w)
  | .guard o, .lend ms => (.lent o, w.releaseAfter ms (.sidecar o))
  | .guard o, .drop => (.absent, w.release (.sidecar o))
  | who, _ => (who, w)

def owner? : Locker → Option Owner
  | .absent => none
  | .file f => some f.owner
  | .asking _ x => some x.file.owner
  | .guard o => some o
  | .lent o => some o

def held (who : Locker) (w : World) : Option LockKind := who.owner?.bind w.locks.held

def On (k : Ino) : Locker → Prop
  | .file f => f.ino = k
  | .asking _ x => x.file.ino = k
  | _ => True

structure Moved (k : Ino) (who : Locker) (w : World) (r : Locker × World) : Prop where
  locks : Traffic k w.locks r.2.locks
  owners : w.owners ≤ r.2.owners
  owner : ∀ {o}, r.1.owner? = some o → who.owner? = some o ∨ (o = w.owners ∧ w.owners < r.2.owners)
  on : r.1.On k

namespace Moved
variable {k : Ino} {who who' : Locker} {w w' : World}

theorem trades (trades : w.Trades k w') (same : ∀ {o}, who'.owner? = some o → who.owner? = some o)
    (on : who'.On k) : Moved k who w (who', w') :=
  ⟨trades.locks, Nat.le_of_eq trades.owners.symm, fun has => Or.inl (same has), on⟩

theorem stays (on : who.On k) : Moved k who w (who, w) := .trades (.refl w) id on

theorem opens {x : Wait} {path : Path} {w₁ : World} (ok : LockManager.enter path w = (.ok x, w₁))
    (trades : w₁.Trades k w') (same : ∀ {o}, who'.owner? = some o → o = x.file.owner) (on : who'.On k) :
    Moved k who w (who', w') := by
  obtain ⟨fs, _, owner, _, rfl⟩ := LockManager.entered ok
  have more : w.owners < w'.owners := Nat.lt_of_lt_of_eq (Nat.lt_succ_self _) trades.owners.symm
  exact ⟨trades.locks, Nat.le_of_lt more, fun has => Or.inr ⟨(same has).trans owner, more⟩, on⟩

end Moved

theorem moved {k : Ino} {who : Locker} {w : World} {m : LockMove} (on : who.On k) (allowed : m.Allowed k w) :
    Moved k who w (who.move k w m) := by
  unfold move
  split
  · exact ⟨.refl _, Nat.le_succ _, fun has => Or.inr ⟨(Option.some.inj has).symm, Nat.lt_succ_self _⟩, rfl⟩
  · rename_i path timeout
    rcases LockManager.acquirePolls path timeout w with ⟨e, w', failed, ends⟩ | ⟨x, w', ok, polled⟩
    · rw [ends, (LockManager.notEntered failed).1]
      exact .stays trivial
    · obtain ⟨trades, granted⟩ := polled.trades
      have there := allowed x w' ok
      rw [there] at trades
      generalize LockManager.acquireSidecar path timeout w = r at trades granted
      split
      · rename_i o w''
        have mine : o = x.file.owner := by
          cases granted _ rfl
          rfl
        exact .opens ok trades (fun has => (Option.some.inj has).symm.trans mine) trivial
      · exact .opens ok trades nofun trivial
  · rename_i path timeout
    split
    · rename_i x w' ok
      have there := allowed x w' ok
      exact .opens ok (.refl w') (fun has => (Option.some.inj has).symm) there
    · rename_i e w' failed
      rw [(LockManager.notEntered failed).1]
      exact .stays trivial
  · rename_i f kind
    obtain rfl : f.ino = k := on
    exact .trades (f.lockTrades kind w) id rfl
  · rename_i f kind
    obtain rfl : f.ino = k := on
    exact .trades (f.requestTrades kind w) id rfl
  · rename_i f
    exact .trades ⟨.released (.refl _) f.owner, rfl⟩ id on
  · rename_i f
    exact .trades ⟨.released (.refl _) f.owner, rfl⟩ nofun trivial
  · rename_i timeout x
    obtain rfl : x.file.ino = k := on
    have trades := x.pollTrades timeout w
    split
    · rename_i w' polled
      rw [polled] at trades
      exact .trades trades id rfl
    · rename_i g w' polled
      rw [polled] at trades
      exact .trades trades id trivial
    · rename_i e w' polled
      rw [polled] at trades
      exact .trades trades nofun trivial
  · exact .trades ⟨.refl _, rfl⟩ id trivial
  · rename_i o
    exact .trades (World.releaseTrades w (.sidecar o)) nofun trivial
  · exact .stays on

end Locker

structure Crowd (ι : Type) where
  who : ι → Locker
  world : World

inductive Happening (ι : Type)
  | moves (i : ι) (m : LockMove)
  | passes (ms : Nat)

namespace Crowd
variable {ι : Type} [DecidableEq ι]

def next (k : Ino) (s : Crowd ι) : Happening ι → Crowd ι
  | .moves i m =>
      ⟨Function.update s.who i ((s.who i).move k s.world m).1, ((s.who i).move k s.world m).2⟩
  | .passes ms => { s with world := s.world.wait ms }

def Allowed (k : Ino) (s : Crowd ι) : Happening ι → Prop
  | .moves _ m => m.Allowed k s.world
  | .passes _ => True

inductive Run (k : Ino) : Crowd ι → Crowd ι → Prop where
  | refl (s) : Run k s s
  | step {s s'} (run : Run k s s') (h : Happening ι) (allowed : s'.Allowed k h) : Run k s (s'.next k h)

structure Vacant (s : Crowd ι) : Prop where
  absent : ∀ i, s.who i = .absent
  unlocked : s.world.locks = []

structure Orderly (k : Ino) (s : Crowd ι) : Prop where
  fair : s.world.locks.Fair k
  on : ∀ i, (s.who i).On k
  bound : ∀ {i o}, (s.who i).owner? = some o → o < s.world.owners
  distinct : ∀ {i j o}, (s.who i).owner? = some o → (s.who j).owner? = some o → i = j

variable {k : Ino} {s s₀ : Crowd ι}

theorem Orderly.moves (orderly : s.Orderly k) {i : ι} {m : LockMove} (allowed : m.Allowed k s.world) :
    (s.next k (.moves i m)).Orderly k := by
  have moved := Locker.moved (orderly.on i) allowed
  rw [next]
  generalize (s.who i).move k s.world m = r at moved
  have whose : ∀ j o, (Function.update s.who i r.1 j).owner? = some o →
      (s.who j).owner? = some o ∨ (j = i ∧ o = s.world.owners ∧ s.world.owners < r.2.owners) := by
    intro j o has
    by_cases same : j = i
    · subst same
      rw [Function.update_self] at has
      exact (moved.owner has).imp id fun fresh => ⟨rfl, fresh⟩
    · rw [Function.update_of_ne same] at has
      exact Or.inl has
  refine ⟨orderly.fair.traffic moved.locks, fun j => ?_, fun {j o} has => ?_, fun {j j' o} one two => ?_⟩
  · by_cases same : j = i
    · subst same
      simpa using moved.on
    · simpa [Function.update_of_ne same] using orderly.on j
  · rcases whose j o has with old | ⟨_, rfl, more⟩
    · exact Nat.lt_of_lt_of_le (orderly.bound old) moved.owners
    · exact more
  · rcases whose j o one with old | ⟨rfl, fresh, _⟩ <;> rcases whose j' o two with old' | ⟨rfl, fresh', _⟩
    · exact orderly.distinct old old'
    · exact absurd (orderly.bound old) (Nat.not_lt.mpr (Nat.le_of_eq fresh'.symm))
    · exact absurd (orderly.bound old') (Nat.not_lt.mpr (Nat.le_of_eq fresh.symm))
    · rfl

theorem Orderly.passes (orderly : s.Orderly k) (ms : Nat) : (s.next k (.passes ms)).Orderly k where
  fair := orderly.fair.traffic (s.world.waitTrades ms).locks
  on := orderly.on
  bound has := Nat.lt_of_lt_of_eq (orderly.bound has) (World.waitTrades (k := k) s.world ms).owners.symm
  distinct := orderly.distinct

theorem Run.orderly (run : Run k s₀ s) (vacant : s₀.Vacant) : s.Orderly k := by
  have nobody : ∀ {i o}, (s₀.who i).owner? ≠ some o := fun {i o} has => by
    rw [vacant.absent] at has
    cases has
  induction run with
  | refl =>
    refine ⟨?_, fun i => ?_, fun has => absurd has nobody, fun has => absurd has nobody⟩
    · rw [vacant.unlocked]
      exact ⟨nofun, nofun, nofun⟩
    · rw [vacant.absent]
      trivial
  | step run h allowed ih =>
    cases h with
    | moves i m => exact ih.moves allowed
    | passes ms => exact ih.passes ms

end Crowd

namespace Crowd
variable {ι : Type} [DecidableEq ι]

structure Denied (s : Crowd ι) (i : ι) (kind : LockKind) (w : World) : Prop where
  others : ∀ j, j ≠ i → (s.who j).held w = (s.who j).held s.world
  without : (s.who i).held w = none
  before : (s.who i).held s.world = none ∨ kind = .exclusive ∧ (s.who i).held s.world = some .shared
  nothing : (s.who i).held s.world = none → w = s.world

theorem refusedWithout {k : Ino} {s₀ s : Crowd ι} (vacant : s₀.Vacant) (run : Run k s₀ s) {i : ι}
    {f : OpenFile} (is : s.who i = .file f) {kind : LockKind}
    (refused : (f.tryLock kind s.world).1 = .error .eagain) : s.Denied i kind (f.tryLock kind s.world).2 := by
  have orderly := run.orderly vacant
  have mine : ∀ w, (s.who i).held w = w.locks.held f.owner := fun w => by rw [is]; rfl
  have there : f.ino = k := by
    have on := orderly.on i
    rwa [is] at on
  unfold OpenFile.tryLock at refused ⊢
  rw [there] at refused ⊢
  dsimp only at refused ⊢
  cases asked : (s.world.locks.request k f.owner kind).1 with
  | true =>
    rw [asked] at refused
    cases refused
  | false =>
    obtain ⟨_, _, after⟩ := LockTable.refusedExact asked
    rw [after]
    refine ⟨fun j other => ?_, ?_, ?_, fun none => ?_⟩
    · unfold Locker.held
      cases has : (s.who j).owner? with
      | none => rfl
      | some o =>
        have apart : o ≠ f.owner := fun same => other (orderly.distinct has (by rw [is, same]; rfl))
        exact (LockTable.heldRelease _ _ _).trans (if_neg apart)
    · rw [mine, LockTable.heldRelease, if_pos rfl]
    · rw [mine]
      exact orderly.fair.refusedHeld asked
    · rw [LockTable.releaseNone ((mine _).symm.trans none)]

def nobody : Crowd (Fin 3) :=
  ⟨fun _ => .absent, { fs := Fs.bare.born 0 (Path.ofString "f") 0o644 }⟩

def sharing : Crowd (Fin 3) :=
  [.moves 2 (.acquire (Path.ofString "/f") 0), .moves 0 .openFile, .moves 1 .openFile, .moves 2 .drop,
    .moves 0 (.lock .shared), .moves 1 (.tryLock .shared)].foldl (next 4) nobody

theorem sharingRun : nobody.Vacant ∧ Run 4 nobody sharing := by
  have there : nobody.Allowed 4 (.moves 2 (.acquire (Path.ofString "/f") 0)) := by
    intro x w' ok
    obtain ⟨fs, made, _⟩ := LockManager.entered ok
    have found : nobody.world.fs.openCreate [.read, .write] 0o644 (Path.ofString "/f") =
        .ok (4, nobody.world.fs) := by decide +kernel
    exact congrArg Prod.fst (Except.ok.inj (made.symm.trans found))
  have opened := ((Run.refl nobody).step _ there).step (.moves 0 .openFile) trivial
  have dropped := (opened.step (.moves 1 .openFile) trivial).step (.moves 2 .drop) trivial
  have shared := (dropped.step (.moves 0 (.lock .shared)) trivial).step (.moves 1 (.tryLock .shared)) trivial
  exact ⟨⟨fun _ => rfl, rfl⟩, shared⟩

theorem upgradeDenied :
    let a : OpenFile := { ino := 4, owner := 1 }
    nobody.Vacant ∧ Run 4 nobody sharing ∧ sharing.who 0 = .file a ∧
      (a.tryLock .exclusive sharing.world).1 = .error .eagain ∧
      sharing.Denied 0 .exclusive (a.tryLock .exclusive sharing.world).2 := by
  intro a
  obtain ⟨vacant, run⟩ := sharingRun
  have is : sharing.who 0 = .file a := by decide +kernel
  have refused : (a.tryLock .exclusive sharing.world).1 = .error .eagain := by decide +kernel
  exact ⟨vacant, run, is, refused, refusedWithout vacant run is refused⟩

theorem upgradeLosesLock :
    let a : OpenFile := { ino := 4, owner := 1 }
    let b : OpenFile := { ino := 4, owner := 2 }
    let after := (a.tryLock .exclusive sharing.world).2
    (nobody.Vacant ∧ Run 4 nobody sharing) ∧ sharing.who 0 = .file a ∧ sharing.who 1 = .file b ∧
      (a.tryLock .exclusive sharing.world).1 = .error .eagain ∧
      (sharing.who 0).held sharing.world = some .shared ∧ (sharing.who 0).held after = none ∧
      (b.tryLock .exclusive after).1 = .ok () := by
  intro a b after
  refine ⟨sharingRun, ?_⟩
  decide +kernel

end Crowd
end AtomicUpdate
