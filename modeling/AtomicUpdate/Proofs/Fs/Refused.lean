import AtomicUpdate.Proofs.Fs.Entry

/-! What calls fail for. No call on files fails as a lock does that somebody else holds, nor a rename in
one directory as one between two devices. -/
namespace AtomicUpdate
namespace Fs

variable {fs : Fs} {e : Errno}

theorem lengthRefused {p : Path} (failed : checkLength p = .error e) :
    e ∈ [Errno.enoent, .enametoolong] := by
  unfold checkLength at failed
  split at failed
  · cases failed
    decide
  · split at failed <;> cases failed
    decide

theorem demandRefused {i : Ino} {a : Access} (failed : fs.demand i a = .error e) : e = .eacces := by
  unfold demand at failed
  split at failed <;> cases failed
  rfl

theorem parentRefused {d : Ino} (failed : fs.parent d = .error e) : e ≠ .eagain := by
  unfold parent at failed
  split at failed
  · split at failed <;> cases failed
    decide
  · cases failed
    decide

theorem childRefused {d : Ino} {n : Name} (failed : fs.child d n = .error e) :
    e ∈ [Errno.eacces, .enoent, .enametoolong, .enotdir] := by
  unfold child at failed
  split at failed
  · split at failed
    · cases failed
      decide
    split at failed
    · cases failed
      decide
    split at failed <;> cases failed
    decide
  · cases failed
    decide

theorem advanceRefused {refuse : Bool} {d : Ino} {ns : List Name}
    (failed : fs.advance refuse d ns = .error e) : e ≠ .eagain := by
  induction ns generalizing d with
  | nil => cases failed
  | cons n rest ih =>
    unfold advance at failed
    split at failed
    · rename_i up
      cases failed
      exact parentRefused up
    split at failed
    · exact ih failed
    split at failed
    · exact ih failed
    split at failed
    · cases failed
      decide
    split at failed
    · rename_i inner
      cases failed
      exact fun again => absurd (again ▸ childRefused inner) (by decide)
    · split at failed <;> cases failed
      decide
    · split at failed
      · cases failed
      · split at failed
        · cases failed
        · exact ih failed

theorem walkRefused {follow : Follow} {links : Nat} {d : Ino} {ns : List Name} {slash : Bool}
    (failed : fs.walk follow links d ns slash = .error e) : e ≠ .eagain := by
  induction links generalizing d ns slash with
  | zero =>
    unfold walk at failed
    split at failed
    · rename_i stuck
      cases failed
      exact advanceRefused stuck
    · cases failed
    · split at failed <;> cases failed
      decide
  | succ links ih =>
    unfold walk at failed
    split at failed
    · rename_i stuck
      cases failed
      exact advanceRefused stuck
    · cases failed
    · split at failed
      · cases failed
      · exact ih failed

theorem openCreateRefused {uses : List Access} {mode : Nat} {p : Path}
    (failed : fs.openCreate uses mode p = .error e) : e ≠ .eagain := by
  have located : ∀ {e}, fs.locate .creating p = .error e → e ≠ .eagain := by
    intro e failed
    rcases bindError failed with long | ⟨_, _, stuck⟩
    · exact fun again => absurd (again ▸ lengthRefused long) (by decide)
    · exact walkRefused stuck
  have demanded : ∀ {uses : List Access} {i e}, uses.forM (fs.demand i) = .error e → e = .eacces := by
    intro uses i e failed
    induction uses with
    | nil => cases failed
    | cons a rest ih =>
      rcases bindError failed with first | ⟨_, _, later⟩
      · exact demandRefused first
      · exact ih later
  rcases bindError failed with stuck | ⟨⟨spot, slash⟩, _, failed⟩
  · exact located stuck
  cases spot with
  | top d =>
    cases failed
    decide
  | vacant d n =>
    rcases bindError failed with barred | ⟨_, _, made⟩
    · rw [demandRefused barred]
      decide
    · cases made
  | entry d n i =>
    dsimp only at failed
    split at failed
    · cases failed
      decide
    · rcases bindError failed with barred | ⟨_, _, opened⟩
      · rw [demanded barred]
        decide
      · cases opened

theorem renameRefused {d : Ino} {old new : Name} (failed : fs.renameIn d old new = .error e) :
    e ≠ .exdev := by
  have met : ∀ {e n}, fs.child d n = .error e → e ≠ .exdev := by
    intro e n refused crossed
    exact absurd (crossed ▸ childRefused refused) (by decide)
  rcases bindError failed with first | ⟨found, _, failed⟩
  · exact met first
  cases found with
  | none =>
    cases failed
    decide
  | some i =>
    rcases bindError failed with second | ⟨there, _, failed⟩
    · exact met second
    split at failed
    · cases failed
    rcases bindError failed with barred | ⟨_, _, failed⟩
    · rw [demandRefused barred]
      decide
    rcases bindError failed with kind | ⟨_, _, made⟩
    · cases there with
      | none => cases kind
      | some j =>
        change fs.mayReplace i j = .error e at kind
        unfold mayReplace at kind
        repeat' split at kind
        all_goals cases kind
        all_goals decide
    · cases made

end Fs
end AtomicUpdate
