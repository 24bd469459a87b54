import AtomicUpdate.Proofs.Fs.Recede
import AtomicUpdate.Proofs.Store.Ground

/-! Nodes that readers have open, and what keeps writers away from them. Every temp file has one name, so
no other name leads to what is written into it, and a file that has the base's name is written by nobody.
All this is said of the directory that the base is looked up in, as long as there is one. -/
namespace AtomicUpdate
open Fs (Recedes)
open Path (Proper)

structure Stakes where
  staged : Name → Prop
  written : Ino → Prop

structure Sheltered (base : String) (kept : Ino → Prop) (k : Stakes) (fs : Fs) : Prop where
  tidy : fs.Tidy
  upright : fs.Upright
  names : ∀ {n}, k.staged n → Proper (folderOf base) n ∧ n ≠ leafOf base
  bound : ∀ {j}, k.written j → j < fs.nodes.size
  file : ∀ {j}, kept j → ∃ b m, fs.node? j = some (.file b m)
  unwritten : ∀ {j}, k.written j → ¬ kept j
  outer : ∀ {d n j}, fs.Home (folderOf base) d → k.staged n → fs.named? d n = some j →
    fs.isInner j = false
  alone : ∀ {d n m j}, fs.Home (folderOf base) d → k.staged n → fs.named? d n = some j →
    fs.named? d m = some j → m = n
  closed : ∀ {d j}, fs.Home (folderOf base) d → fs.named? d (leafOf base) = some j → ¬ k.written j
  spared : ∀ {d n j}, fs.Home (folderOf base) d → k.staged n → fs.named? d n = some j → ¬ kept j

structure Shelters (base : String) (kept : Ino → Prop) (k : Stakes) (fs fs' : Fs) : Prop where
  state : Sheltered base kept k fs'
  spares : ∀ {j}, kept j → fs'.node? j = fs.node? j

variable {base : String} {kept : Ino → Prop} {k k' : Stakes} {fs fs' fs'' : Fs}

namespace Shelters

theorem refl (sheltered : Sheltered base kept k fs) : Shelters base kept k fs fs :=
  ⟨sheltered, fun _ => rfl⟩

theorem trans (first : Shelters base kept k fs fs') (second : Shelters base kept k' fs' fs'') :
    Shelters base kept k' fs fs'' :=
  ⟨second.state, fun keep => (second.spares keep).trans (first.spares keep)⟩

end Shelters

namespace Sheltered

theorem less (sheltered : Sheltered base kept k fs) (staged : ∀ {n}, k'.staged n → k.staged n)
    (written : ∀ {j}, k'.written j → k.written j) : Sheltered base kept k' fs where
  tidy := sheltered.tidy
  upright := sheltered.upright
  names := fun is => sheltered.names (staged is)
  bound := fun is => sheltered.bound (written is)
  file := sheltered.file
  unwritten := fun is => sheltered.unwritten (written is)
  outer := fun home is => sheltered.outer home (staged is)
  alone := fun home is => sheltered.alone home (staged is)
  closed := fun home entry is => sheltered.closed home entry (written is)
  spared := fun home is => sheltered.spared home (staged is)

theorem fewer (sheltered : Sheltered base kept k fs) (recedes : Recedes fs fs')
    (names : ∀ {d n j}, fs'.named? d n = some j → fs.named? d n = some j)
    (inner : ∀ j, fs'.isInner j = fs.isInner j) (tidy : fs'.Tidy)
    (size : fs'.nodes.size = fs.nodes.size) (spares : ∀ {j}, kept j → fs'.node? j = fs.node? j) :
    Shelters base kept k fs fs' where
  spares := spares
  state := {
    tidy
    upright := recedes.upright sheltered.upright
    names := sheltered.names
    bound := fun is => size ▸ sheltered.bound is
    file := fun keep => by
      rw [spares keep]
      exact sheltered.file keep
    unwritten := sheltered.unwritten
    outer := fun home is entry => (inner _).trans (sheltered.outer (recedes.home home) is (names entry))
    alone := fun home is entry other =>
      sheltered.alone (recedes.home home) is (names entry) (names other)
    closed := fun home entry => sheltered.closed (recedes.home home) (names entry)
    spared := fun home is entry => sheltered.spared (recedes.home home) is (names entry) }

theorem keptUpdateDir (sheltered : Sheltered base kept k fs) {d : Ino}
    (change : Table Name Ino → Table Name Ino) {j : Ino} (keep : kept j) :
    (fs.updateDir d change).node? j = fs.node? j := by
  obtain ⟨b, m, file⟩ := sheltered.file keep
  rw [Fs.fileUpdateDir change file, file]

theorem erase (sheltered : Sheltered base kept k fs) {d : Ino} (dir : fs.isDir d = true) (n : Name) :
    Shelters base kept k fs (fs.updateDir d (·.erase n)) := by
  refine sheltered.fewer (.erase fs d n) ?_ (fun j => Fs.innerUpdateDir fs d j _)
    (sheltered.tidy.erase d n) (Fs.sizeUpdateDir fs d _) (sheltered.keptUpdateDir _)
  intro e m j entry
  rw [Fs.entryErase dir] at entry
  split at entry
  · cases entry
  · exact entry

theorem poured (sheltered : Sheltered base kept k fs) {j : Ino} (poured : Fs.Poured j fs fs')
    (loose : ¬ kept j) : Shelters base kept k fs fs' := by
  refine sheltered.fewer (.ofAlike poured.alike) ?_ poured.alike.inner (poured.tidy sheltered.tidy)
    poured.only.size ?_
  · intro d n i entry
    rwa [poured.alike.entry] at entry
  · intro i keep
    exact poured.only.others i fun same => loose (same ▸ keep)

theorem born (sheltered : Sheltered base kept k fs) {d : Ino} {n : Name} (dir : fs.isDir d = true)
    (free : fs.named? d n = none) (mode : Nat) (written : ∀ {j}, k'.written j → k.written j)
    (staged : ∀ {m}, k'.staged m → k.staged m ∨
      (m = n ∧ fs.Home (folderOf base) d ∧ Proper (folderOf base) n ∧ n ≠ leafOf base)) :
    Shelters base kept k' fs (fs.born d n mode) := by
  have recedes := Recedes.born free mode
  have evolves := Fs.evolvesBorn sheltered.tidy free mode
  have file := Fs.bornFile fs dir n mode
  have met : ∀ {e m j}, (fs.born d n mode).named? e m = some j →
      (e = d ∧ m = n ∧ j = fs.nodes.size) ∨ (fs.named? e m = some j ∧ j < fs.nodes.size) := by
    intro e m j entry
    rw [Fs.bornEntry dir n mode] at entry
    split at entry
    · rename_i here
      cases entry
      exact Or.inl ⟨here.1, here.2, rfl⟩
    · exact Or.inr ⟨entry, sheltered.tidy.entryBound entry⟩
  have old : ∀ {e m j}, (fs.born d n mode).Home (folderOf base) e → k'.staged m →
      fs.named? e m = some j → k.staged m := by
    intro e m j home is entry
    rcases staged is with was | ⟨rfl, home', _⟩
    · exact was
    · rw [(recedes.home home).unique home', free] at entry
      cases entry
  have spares : ∀ {j}, kept j → (fs.born d n mode).node? j = fs.node? j := by
    intro j keep
    obtain ⟨b, m, is⟩ := sheltered.file keep
    rw [Fs.bornOther is, is]
  have fresh : ¬ kept fs.nodes.size := by
    intro keep
    obtain ⟨b, m, is⟩ := sheltered.file keep
    exact Nat.lt_irrefl _ (Fs.nodeBound is)
  refine ⟨?_, spares⟩
  exact {
    tidy := evolves.tidy
    upright := recedes.upright sheltered.upright
    names := fun is => by
      rcases staged is with was | ⟨rfl, _, proper⟩
      · exact sheltered.names was
      · exact proper
    bound := fun is => Nat.lt_of_lt_of_le (sheltered.bound (written is)) evolves.more
    file := fun keep => by
      rw [spares keep]
      exact sheltered.file keep
    unwritten := fun is => sheltered.unwritten (written is)
    outer := fun home is entry => by
      rcases met entry with ⟨_, _, rfl⟩ | ⟨was, _⟩
      · exact Fs.fileNotInner file
      · rw [Fs.innerBorn]
        exact sheltered.outer (recedes.home home) (old home is was) was
    alone := fun home is entry other => by
      rcases met entry with ⟨_, rfl, rfl⟩ | ⟨was, bound⟩
      · rcases met other with ⟨_, same, _⟩ | ⟨_, bound⟩
        · exact same
        · exact absurd bound (Nat.lt_irrefl _)
      · rcases met other with ⟨_, _, rfl⟩ | ⟨was', _⟩
        · exact absurd bound (Nat.lt_irrefl _)
        · exact sheltered.alone (recedes.home home) (old home is was) was was'
    closed := fun home entry is => by
      rcases met entry with ⟨_, _, rfl⟩ | ⟨was, _⟩
      · exact Nat.lt_irrefl _ (sheltered.bound (written is))
      · exact sheltered.closed (recedes.home home) was (written is)
    spared := fun home is entry => by
      rcases met entry with ⟨_, _, rfl⟩ | ⟨was, _⟩
      · exact fresh
      · exact sheltered.spared (recedes.home home) (old home is was) was }

theorem moved (sheltered : Sheltered base kept k fs) {d i : Ino} {n : Name}
    (home : fs.Home (folderOf base) d) (staged : k.staged n) (entry : fs.named? d n = some i)
    (unwritten : ¬ k.written i) : Shelters base kept k fs
      (fs.updateDir d (fun es => Fs.supplant (leafOf base) i (es.erase n))) := by
  have recedes : Recedes fs (fs.updateDir d (fun es => Fs.supplant (leafOf base) i (es.erase n))) :=
    .move (sheltered.outer home staged entry)
  have met : ∀ {e m j}, fs.Home (folderOf base) e →
      (fs.updateDir d (fun es => Fs.supplant (leafOf base) i (es.erase n))).named? e m = some j →
      (m = leafOf base ∧ j = i) ∨ (m ≠ leafOf base ∧ m ≠ n ∧ fs.named? e m = some j) := by
    intro e m j home' entry'
    rw [Fs.entryMove home.dir, if_pos (home'.unique home)] at entry'
    split at entry'
    · rename_i leaf
      cases entry'
      exact Or.inl ⟨leaf, rfl⟩
    · rename_i notLeaf
      split at entry'
      · cases entry'
      · rename_i notTemp
        exact Or.inr ⟨notLeaf, notTemp, home'.unique home ▸ entry'⟩
  refine ⟨?_, sheltered.keptUpdateDir _⟩
  exact {
    tidy := sheltered.tidy.move d n (leafOf base) (sheltered.tidy.entryBound entry)
    upright := recedes.upright sheltered.upright
    names := sheltered.names
    bound := fun is => by
      rw [Fs.sizeUpdateDir]
      exact sheltered.bound is
    file := fun keep => by
      rw [sheltered.keptUpdateDir _ keep]
      exact sheltered.file keep
    unwritten := sheltered.unwritten
    outer := fun home' is entry' => by
      rw [Fs.innerUpdateDir]
      rcases met (recedes.home home') entry' with ⟨leaf, _⟩ | ⟨_, _, was⟩
      · exact absurd leaf (sheltered.names is).2
      · exact sheltered.outer (recedes.home home') is was
    alone := fun home' is entry' other => by
      have here := (recedes.home home').unique home
      rcases met (recedes.home home') entry' with ⟨leaf, _⟩ | ⟨_, notTemp, was⟩
      · exact absurd leaf (sheltered.names is).2
      · rcases met (recedes.home home') other with ⟨_, rfl⟩ | ⟨_, _, was'⟩
        · exact absurd (sheltered.alone home staged entry (here ▸ was)) notTemp
        · exact sheltered.alone (recedes.home home') is was was'
    closed := fun home' entry' => by
      rcases met (recedes.home home') entry' with ⟨_, rfl⟩ | ⟨notLeaf, _, _⟩
      · exact unwritten
      · exact absurd rfl notLeaf
    spared := fun home' is entry' => by
      rcases met (recedes.home home') entry' with ⟨leaf, _⟩ | ⟨_, _, was⟩
      · exact absurd leaf (sheltered.names is).2
      · exact sheltered.spared (recedes.home home') is was }

theorem led (sheltered : Sheltered base kept k fs) {n : Name} {j : Ino} (staged : k.staged n)
    (ok : fs.lookup (folderOf base ++ n) = .ok j) :
    ∃ d, fs.Home (folderOf base) d ∧ fs.named? d n = some j := by
  obtain ⟨d, i, home, entry, leads⟩ :=
    Fs.lookupHome (folderEnds base) (sheltered.names staged).1.plain ok
  have same := leads (Fs.notInner (sheltered.outer home staged entry)).2
  exact ⟨d, home, same ▸ entry⟩

theorem opened (sheltered : Sheltered base kept k fs) {d i : Ino} {n : Name}
    (home : fs.Home (folderOf base) d) (staged : k.staged n) (entry : fs.named? d n = some i) :
    Sheltered base kept { k with written := fun j => k.written j ∨ j = i } fs where
  tidy := sheltered.tidy
  upright := sheltered.upright
  names := sheltered.names
  bound := fun is => is.elim sheltered.bound fun same => same ▸ sheltered.tidy.entryBound entry
  file := sheltered.file
  unwritten := fun is => is.elim sheltered.unwritten fun same => same ▸ sheltered.spared home staged entry
  outer := sheltered.outer
  alone := sheltered.alone
  closed := by
    rintro d' j home' entry' (is | rfl)
    · exact sheltered.closed home' entry' is
    · rw [home'.unique home] at entry'
      exact (sheltered.names staged).2 (sheltered.alone home staged entry entry').symm
  spared := sheltered.spared

theorem read (sheltered : Sheltered base kept k fs) {d i : Ino} {b : Bytes} {m : Nat}
    (home : fs.Home (folderOf base) d) (holds : fs.Holds d (leafOf base) i b m) :
    Sheltered base (fun j => kept j ∨ j = i) k fs where
  tidy := sheltered.tidy
  upright := sheltered.upright
  names := sheltered.names
  bound := sheltered.bound
  file := by
    rintro j (keep | rfl)
    · exact sheltered.file keep
    · exact ⟨b, m, holds.file⟩
  unwritten := by
    rintro j is (keep | rfl)
    · exact sheltered.unwritten is keep
    · exact sheltered.closed home holds.entry is
  outer := sheltered.outer
  alone := sheltered.alone
  closed := sheltered.closed
  spared := by
    rintro d' n j home' is entry (keep | rfl)
    · exact sheltered.spared home' is entry keep
    · have leaf := holds.entry
      rw [home.unique home'] at leaf
      exact (sheltered.names is).2 (sheltered.alone home' is entry leaf).symm

end Sheltered
end AtomicUpdate
