import AtomicUpdate.Lock.Flock

/-! The locks that are held. Two locks on one file belong to one opening as soon as one of them is
exclusive, whatever is asked for and released. -/
namespace AtomicUpdate.LockTable

def Exclusive (t : LockTable) : Prop :=
  ∀ a ∈ t, ∀ b ∈ t, a.ino = b.ino → a.kind = .exclusive → a.owner = b.owner

variable {t : LockTable} {i : Ino} {o : Owner} {kind : LockKind} {l : HeldLock}

theorem memRelease : l ∈ t.release o ↔ l ∈ t ∧ l.owner ≠ o := by
  simp [release]

theorem exclusiveRelease (exclusive : t.Exclusive) (o : Owner) : (t.release o).Exclusive := by
  intro a memA b memB
  exact exclusive a (memRelease.mp memA).1 b (memRelease.mp memB).1

theorem requested : t.request i o kind =
    if ⟨i, o, kind⟩ ∈ t then (true, t)
    else if ∃ l ∈ t.release o, conflicts i o kind l = true then (false, t.release o)
    else (true, ⟨i, o, kind⟩ :: t.release o) := by
  simp [request]

theorem granted (ok : (t.request i o kind).1 = true) : ⟨i, o, kind⟩ ∈ (t.request i o kind).2 := by
  rw [requested] at ok ⊢
  by_cases held : ⟨i, o, kind⟩ ∈ t
  · rw [if_pos held]
    exact held
  rw [if_neg held] at ok ⊢
  by_cases taken : ∃ l ∈ t.release o, conflicts i o kind l = true
  · rw [if_pos taken] at ok
    cases ok
  · rw [if_neg taken]
    exact List.mem_cons_self

theorem refused (no : (t.request i o kind).1 = false) : ∃ l ∈ t, l.ino = i ∧ l.owner ≠ o := by
  rw [requested] at no
  split at no
  · cases no
  split at no
  · rename_i taken
    obtain ⟨l, mem, conflict⟩ := taken
    simp only [conflicts, Bool.and_eq_true, decide_eq_true_eq] at conflict
    exact ⟨l, (memRelease.mp mem).1, conflict.1⟩
  · cases no

theorem memRequest (other : l.owner ≠ o) : l ∈ (t.request i o kind).2 ↔ l ∈ t := by
  rw [requested]
  split
  · rfl
  split
  · simp [memRelease, other]
  · have fresh : l ≠ ⟨i, o, kind⟩ := fun same => other (by rw [same])
    simp [memRelease, other, fresh]

theorem exclusiveRequest (exclusive : t.Exclusive) : (t.request i o kind).2.Exclusive := by
  have rest := exclusiveRelease exclusive o
  rw [requested]
  split
  · exact exclusive
  split
  · exact rest
  rename_i free
  have apart : ∀ l ∈ t.release o, l.ino = i → kind ≠ .exclusive ∧ l.kind ≠ .exclusive := by
    intro l mem same
    have quiet : conflicts i o kind l ≠ true := fun conflict => free ⟨l, mem, conflict⟩
    simpa [conflicts, same, (memRelease.mp mem).2] using quiet
  intro a memA b memB same strong
  rcases List.mem_cons.mp memA with rfl | oldA
  · rcases List.mem_cons.mp memB with rfl | oldB
    · rfl
    · exact absurd strong (apart b oldB same.symm).1
  · rcases List.mem_cons.mp memB with rfl | oldB
    · exact absurd strong (apart a oldA same).2
    · exact rest a oldA b oldB same strong

end AtomicUpdate.LockTable
