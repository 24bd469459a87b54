import AtomicUpdate.Proofs.Lock.Conduct
import AtomicUpdate.Proofs.Lock.Table
import Mathlib.Logic.Function.Basic

/-! Handles and others that lock one file, and the steps that they take. In good order every one that
waits has the same file open, and every one that has a lock has it on that file. -/
namespace AtomicUpdate
open Fs (Minds)

inductive Party
  | absent
  | handle (h : Handle)
  | opening (h : Handle) (x : Wait)
  | asking (timeout : Nat) (x : Wait)
  | holding (g : Guard)

inductive Act
  | make (h : Handle)
  | ask (timeout : Nat)
  | start
  | poll
  | finish
  | fail
  | delete
  | drop

structure Turn where
  answer : Option (Except Errno String)
  party : Party
  world : World

def Progress.turn (h : Handle) : Progress → Turn
  | .waiting x w => ⟨none, .opening h x, w⟩
  | .ended r => ⟨some r.result, .handle r.handle, r.world⟩

def Ran.turn {α : Type} (r : Ran α) : Turn := ⟨none, .handle r.handle, r.world⟩

namespace Party

def act (p : Path) (party : Party) (w : World) : Act → Turn
  | .make h =>
      match party with
      | .absent => ⟨none, .handle h, w⟩
      | _ => ⟨none, party, w⟩
  | .ask timeout =>
      match party with
      | .absent =>
          match LockManager.enter p w with
          | (.ok x, w) => ⟨none, .asking timeout x, w⟩
          | (.error _, w) => ⟨none, .absent, w⟩
      | _ => ⟨none, party, w⟩
  | .start =>
      match party with
      | .handle h => (h.beginWrite w).turn h
      | _ => ⟨none, party, w⟩
  | .poll =>
      match party with
      | .opening h x => (h.pollWrite x w).turn h
      | .asking timeout x =>
          match x.poll timeout w with
          | (none, w) => ⟨none, party, w⟩
          | (some (.ok g), w) => ⟨none, .holding g, w⟩
          | (some (.error _), w) => ⟨none, .absent, w⟩
      | _ => ⟨none, party, w⟩
  | .finish =>
      match party with
      | .handle h => (h.finishWrite w).turn
      | _ => ⟨none, party, w⟩
  | .fail =>
      match party with
      | .handle h => (h.failWrite w).turn
      | _ => ⟨none, party, w⟩
  | .delete =>
      match party with
      | .handle h => (h.delete w).turn
      | _ => ⟨none, party, w⟩
  | .drop =>
      match party with
      | .handle h => ⟨none, .absent, h.releaseGuard w⟩
      | .holding g => ⟨none, .absent, w.release g⟩
      | _ => ⟨none, party, w⟩

def ownerOf : Guard → Option Owner
  | .sidecar o => some o
  | .scripted => none

def owner? : Party → Option Owner
  | .absent => none
  | .handle h => h.guard.bind ownerOf
  | .opening _ x => some x.file.owner
  | .asking _ x => some x.file.owner
  | .holding g => ownerOf g

def Inside : Party → Prop
  | .absent => False
  | .handle h => h.isPending = true
  | .opening h _ => h.isPending = true
  | .asking .. => False
  | .holding _ => True

instance : (party : Party) → Decidable party.Inside
  | .absent => .isFalse id
  | .handle h => inferInstanceAs (Decidable (h.isPending = true))
  | .opening h _ => inferInstanceAs (Decidable (h.isPending = true))
  | .asking .. => .isFalse id
  | .holding _ => .isTrue trivial

def Clear (p : Path) (fs : Fs) : Party → Prop
  | .handle h => h.Apart p fs
  | _ => True

instance (p : Path) (fs : Fs) : (party : Party) → Decidable (party.Clear p fs)
  | .handle h => inferInstanceAs (Decidable (h.Apart p fs))
  | .absent => .isTrue trivial
  | .opening .. => .isTrue trivial
  | .asking .. => .isTrue trivial
  | .holding _ => .isTrue trivial

end Party

def Act.Allowed (p : Path) (party : Party) (fs : Fs) : Act → Prop
  | .make h => h.lock = some (.sidecar p) ∧ h.isPending = false ∧ h.guard = none ∧ h.Heedful p
  | .finish | .fail | .delete => party.Clear p fs
  | _ => True

structure Contest (ι : Type) where
  parties : ι → Party
  world : World

namespace Contest
variable {ι : Type} [DecidableEq ι]

def put (s : Contest ι) (i : ι) (t : Turn) : Contest ι :=
  ⟨Function.update s.parties i t.party, t.world⟩

/-- What everybody else may do: anything but take the lock file away, touch a party's lock, or get a
lock that conflicts with another. -/
structure Others (p : Path) (s : Contest ι) (w : World) : Prop where
  tidy : w.fs.Tidy
  sidecar : ∀ {k}, s.world.fs.file? p = some k → w.fs.file? p = some k
  exclusive : w.locks.Exclusive
  theirs : ∀ {i o}, (s.parties i).owner? = some o → ∀ l, l.owner = o →
    l ∈ s.world.locks → l ∈ w.locks
  owners : s.world.owners ≤ w.owners

abbrev Deed (ι : Type) := Option (ι × Option (Except Errno String))

inductive Step (p : Path) (s : Contest ι) : Deed ι → Contest ι → Prop where
  | act (i : ι) (a : Act) (allowed : a.Allowed p (s.parties i) s.world.fs) :
      Step p s (some (i, ((s.parties i).act p s.world a).answer))
        (s.put i ((s.parties i).act p s.world a))
  | others {w} (may : Others p s w) : Step p s none { s with world := w }

inductive Run (p : Path) : Contest ι → Contest ι → Prop where
  | refl (s) : Run p s s
  | step {s s' s'' deed} (run : Run p s s') (step : Step p s' deed s'') : Run p s s''

structure Vacant (s : Contest ι) : Prop where
  absent : ∀ i, s.parties i = .absent
  tidy : s.world.fs.Tidy
  exclusive : s.world.locks.Exclusive

end Contest

def World.Locked (w : World) (p : Path) (o : Owner) : Prop :=
  ∃ k, w.fs.file? p = some k ∧ ⟨k, o, .exclusive⟩ ∈ w.locks

def Party.Orderly (p : Path) (w : World) : Party → Prop
  | .absent => True
  | .handle h => h.lock = some (.sidecar p) ∧ h.Heedful p ∧
      ((h.isPending = false ∧ h.guard = none) ∨
        ∃ o, h.isPending = true ∧ h.guard = some (.sidecar o) ∧ w.Locked p o)
  | .opening h x => h.lock = some (.sidecar p) ∧ h.Heedful p ∧ h.isPending = false ∧
      h.guard = none ∧ w.fs.file? p = some x.file.ino
  | .asking _ x => w.fs.file? p = some x.file.ino
  | .holding g => ∃ o, g = .sidecar o ∧ w.Locked p o

structure Contest.Orderly {ι : Type} (p : Path) (s : Contest ι) : Prop where
  tidy : s.world.fs.Tidy
  exclusive : s.world.locks.Exclusive
  bound : ∀ {i o}, (s.parties i).owner? = some o → o < s.world.owners
  distinct : ∀ {i j o}, (s.parties i).owner? = some o → (s.parties j).owner? = some o → i = j
  each : ∀ i, (s.parties i).Orderly p s.world

variable {p : Path} {w w' : World}

theorem World.Locked.kept {o : Owner} (locked : w.Locked p o)
    (sidecar : ∀ {k}, w.fs.file? p = some k → w'.fs.file? p = some k)
    (theirs : ∀ l, l.owner = o → l ∈ w.locks → l ∈ w'.locks) : w'.Locked p o := by
  obtain ⟨k, led, held⟩ := locked
  exact ⟨k, sidecar led, theirs _ rfl held⟩

theorem Party.Orderly.kept {party : Party} (orderly : party.Orderly p w)
    (sidecar : ∀ {k}, w.fs.file? p = some k → w'.fs.file? p = some k)
    (theirs : ∀ {o}, party.owner? = some o → ∀ l, l.owner = o → l ∈ w.locks → l ∈ w'.locks) :
    party.Orderly p w' := by
  cases party with
  | absent => trivial
  | handle h =>
    obtain ⟨lock, heedful, state⟩ := orderly
    refine ⟨lock, heedful, state.imp id ?_⟩
    rintro ⟨o, pending, guard, locked⟩
    have owner : (Party.handle h).owner? = some o := by
      rw [Party.owner?, guard]
      rfl
    exact ⟨o, pending, guard, locked.kept sidecar (theirs owner)⟩
  | opening h x =>
    obtain ⟨lock, heedful, idle, free, led⟩ := orderly
    exact ⟨lock, heedful, idle, free, sidecar led⟩
  | asking timeout x => exact sidecar orderly
  | holding g =>
    obtain ⟨o, rfl, locked⟩ := orderly
    exact ⟨o, rfl, locked.kept sidecar (theirs rfl)⟩

namespace Contest
variable {ι : Type} {s : Contest ι}

structure Proper (p : Path) (s : Contest ι) (i : ι) (t : Turn) : Prop where
  minds : Minds p s.world.fs t.world.fs
  exclusive : t.world.locks.Exclusive
  owners : s.world.owners ≤ t.world.owners
  theirs : ∀ {o}, o < s.world.owners → (s.parties i).owner? ≠ some o →
    ∀ l, l.owner = o → l ∈ s.world.locks → l ∈ t.world.locks
  party : t.party.Orderly p t.world
  owner : ∀ {o}, t.party.owner? = some o →
    (s.parties i).owner? = some o ∨ (o = s.world.owners ∧ s.world.owners < t.world.owners)

theorem Orderly.put [DecidableEq ι] (orderly : s.Orderly p) {i : ι} {t : Turn} (proper : Proper p s i t) :
    (s.put i t).Orderly p := by
  have own : (s.put i t).parties i = t.party := by simp [Contest.put]
  have other : ∀ {j}, j ≠ i → (s.put i t).parties j = s.parties j := by
    intro j apart
    simp [Contest.put, apart]
  have fresh : ∀ {j o}, j ≠ i → (s.parties j).owner? = some o → t.party.owner? ≠ some o := by
    intro j o apart theirs mine
    rcases proper.owner mine with same | ⟨rfl, _⟩
    · exact apart (orderly.distinct theirs same)
    · exact Nat.lt_irrefl _ (orderly.bound theirs)
  refine ⟨proper.minds.tidy, proper.exclusive, ?_, ?_, ?_⟩
  · intro j o owner
    change o < t.world.owners
    by_cases same : j = i
    · subst same
      rw [own] at owner
      rcases proper.owner owner with old | ⟨rfl, more⟩
      · exact Nat.lt_of_lt_of_le (orderly.bound old) proper.owners
      · exact more
    · rw [other same] at owner
      exact Nat.lt_of_lt_of_le (orderly.bound owner) proper.owners
  · intro j k o first second
    by_cases one : j = i
    · by_cases two : k = i
      · exact one.trans two.symm
      · rw [one, own] at first
        rw [other two] at second
        exact absurd first (fresh two second)
    · rw [other one] at first
      by_cases two : k = i
      · rw [two, own] at second
        exact absurd second (fresh one first)
      · rw [other two] at second
        exact orderly.distinct first second
  · intro j
    by_cases same : j = i
    · subst same
      rw [own]
      exact proper.party
    · rw [other same]
      refine (orderly.each j).kept proper.minds.leads fun owner => ?_
      refine proper.theirs (orderly.bound owner) fun mine => same (orderly.distinct owner mine)

end Contest
end AtomicUpdate
