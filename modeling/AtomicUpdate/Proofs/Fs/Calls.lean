import AtomicUpdate.Files
import AtomicUpdate.Proofs.Fs.Effects

/-! What a call has done where it has succeeded: one entry was made, erased or moved, or the bytes of
one node were written. -/
namespace AtomicUpdate
namespace Fs

variable {fs fs' fs'' : Fs}

structure OnlyAt (j : Ino) (fs fs' : Fs) : Prop where
  root : fs'.root = fs.root
  cwd : fs'.cwd = fs.cwd
  size : fs'.nodes.size = fs.nodes.size
  others : ∀ k, k ≠ j → fs'.node? k = fs.node? k

namespace OnlyAt
variable {j : Ino}

theorem refl (j : Ino) (fs : Fs) : OnlyAt j fs fs := ⟨rfl, rfl, rfl, fun _ _ => rfl⟩

theorem trans (first : OnlyAt j fs fs') (second : OnlyAt j fs' fs'') : OnlyAt j fs fs'' :=
  ⟨second.root.trans first.root, second.cwd.trans first.cwd, second.size.trans first.size,
    fun k other => (second.others k other).trans (first.others k other)⟩

theorem replace (j : Ino) (fs : Fs) (node : Node) : OnlyAt j fs (fs.replace j node) where
  root := rfl
  cwd := rfl
  size := Array.size_setIfInBounds
  others := fun k other => by rw [nodeReplace, if_neg (fun both => other both.1.symm)]

theorem alike (only : OnlyAt j fs fs') {b b' : Bytes} {m m' : Nat}
    (before : fs.node? j = some (.file b m)) (after : fs'.node? j = some (.file b' m')) :
    Alike fs fs' where
  root := only.root
  cwd := only.cwd
  same := by
    intro k
    by_cases same : k = j
    · subst same
      exact Or.inr ⟨fileNotInner before, fileNotInner after⟩
    · exact Or.inl (only.others k same)

end OnlyAt

theorem replaceFile {j : Ino} {b : Bytes} {m : Nat} (file : fs.node? j = some (.file b m))
    (node : Node) : (fs.replace j node).node? j = some node := by
  rw [nodeReplace, if_pos ⟨rfl, nodeBound file⟩]

theorem overwriteEmpty (data : Bytes) : overwrite [] 0 data = data := by
  simp [overwrite]

theorem writeFile {j : Ino} {b : Bytes} {m : Nat} (file : fs.node? j = some (.file b m)) (pos : Nat)
    (data : Bytes) : ∃ fs' m', fs.writeAt j pos data = .ok fs' ∧ OnlyAt j fs fs' ∧
      fs'.node? j = some (.file (if data = [] then b else overwrite b pos data) m') ∧
      (∀ b b' a, (Node.file b m').permits a = (Node.file b' m).permits a) ∧
      (Node.withdrawn m = m → m' = m) := by
  unfold writeAt
  rw [file]
  dsimp only
  by_cases none : data = []
  · rw [if_pos none, if_pos none]
    exact ⟨fs, m, rfl, OnlyAt.refl j fs, file, fun _ _ _ => rfl, fun _ => rfl⟩
  · rw [if_neg none, if_neg none]
    exact ⟨_, Node.withdrawn m, rfl, OnlyAt.replace j fs _, replaceFile file _,
      fun _ b' a => Node.permitsWithdrawn _ b' m a, fun kept => kept⟩

theorem truncateFile {j : Ino} {b : Bytes} {m : Nat} (file : fs.node? j = some (.file b m)) :
    OnlyAt j fs (fs.truncate j) ∧ (fs.truncate j).node? j = some (.file [] (Node.withdrawn m)) := by
  unfold truncate
  rw [file]
  exact ⟨OnlyAt.replace j fs _, replaceFile file _⟩


theorem Alike.trans (first : Alike fs fs') (second : Alike fs' fs'') : Alike fs fs'' where
  root := second.root.trans first.root
  cwd := second.cwd.trans first.cwd
  same := by
    intro i
    rcases first.same i with same | ⟨before, after⟩
    · rcases second.same i with same' | ⟨before', after'⟩
      · exact Or.inl (same'.trans same)
      · refine Or.inr ⟨?_, after'⟩
        rw [isInner, isDir, isLink, same] at before'
        exact before'
    · refine Or.inr ⟨before, ?_⟩
      rw [second.inner]
      exact after

theorem Alike.refl (fs : Fs) : Alike fs fs := ⟨rfl, rfl, fun _ => Or.inl rfl⟩

structure Poured (j : Ino) (fs fs' : Fs) : Prop where
  only : OnlyAt j fs fs'
  alike : Alike fs fs'

namespace Poured

theorem refl (j : Ino) (fs : Fs) : Poured j fs fs := ⟨OnlyAt.refl j fs, Alike.refl fs⟩

theorem trans {j : Ino} (first : Poured j fs fs') (second : Poured j fs' fs'') : Poured j fs fs'' :=
  ⟨first.only.trans second.only, first.alike.trans second.alike⟩

theorem replace {j : Ino} {b : Bytes} {m : Nat} (file : fs.node? j = some (.file b m)) (b' : Bytes)
    (m' : Nat) : Poured j fs (fs.replace j (.file b' m')) :=
  ⟨OnlyAt.replace j fs _, alikeReplace file⟩

theorem tidy {j : Ino} (poured : Poured j fs fs') (tidy : fs.Tidy) : fs'.Tidy :=
  poured.alike.tidy (Nat.le_of_eq poured.only.size.symm) tidy

end Poured

theorem truncatePoured (fs : Fs) (j : Ino) : Poured j fs (fs.truncate j) := by
  unfold truncate
  split
  · rename_i node is
    cases node with
    | file b m => exact .replace is [] _
    | dir es up m => exact (replaceSame is).symm ▸ .refl j fs
    | link t => exact (replaceSame is).symm ▸ .refl j fs
    | device k => exact (replaceSame is).symm ▸ .refl j fs
  · exact .refl j fs

theorem writePoured {j : Ino} {pos : Nat} {data : Bytes} (ok : fs.writeAt j pos data = .ok fs') :
    Poured j fs fs' := by
  unfold writeAt at ok
  split at ok
  · rename_i b m file
    split at ok
    · cases ok
      exact .refl j fs
    · cases ok
      exact .replace file _ _
  · cases ok
    exact .refl j fs
  · split at ok
    · cases ok
      exact .refl j fs
    · cases ok
  · cases ok

theorem Walked.ends {follow : Follow} {links : Nat} {d : Ino} {ns : List Name} {slash : Bool}
    {place : Place} (walked : fs.Walked follow links d ns slash place) :
    ∃ refuse e last, fs.Advanced refuse e last (.arrived place.spot) ∨
      ∃ dir n i t, fs.Advanced refuse e last (.link dir n i t []) ∧ place.spot = .entry dir n i := by
  induction walked with
  | arrived way => exact ⟨_, _, _, Or.inl way⟩
  | stopped way stops => exact ⟨_, _, _, Or.inr ⟨_, _, _, _, way, rfl⟩⟩
  | onward way goes more ih => exact ih

theorem Advanced.free {refuse : Bool} {e d : Ino} {ns : List Name} {n : Name}
    (way : fs.Advanced refuse e ns (.arrived (.vacant d n))) :
    fs.isDir d = true ∧ fs.named? d n = none := by
  generalize same : Halt.arrived (.vacant d n) = halt at way
  induction way with
  | here => cases same
  | stay parent more ih => exact ih same
  | up parent more ih => exact ih same
  | vacant parent ordinary allowed child =>
    cases same
    obtain ⟨dir, _, _, _, found⟩ := childExact child
    exact ⟨dir, found⟩
  | link => cases same
  | last => cases same
  | down parent ordinary child plain some' more ih => exact ih same

theorem Advanced.taken {refuse : Bool} {e d i : Ino} {ns : List Name} {n : Name}
    (way : fs.Advanced refuse e ns (.arrived (.entry d n i))) :
    fs.isDir d = true ∧ fs.named? d n = some i := by
  generalize same : Halt.arrived (.entry d n i) = halt at way
  induction way with
  | here => cases same
  | stay parent more ih => exact ih same
  | up parent more ih => exact ih same
  | vacant => cases same
  | link => cases same
  | last parent ordinary allowed child plain =>
    cases same
    obtain ⟨dir, _, _, _, found⟩ := childExact child
    exact ⟨dir, found⟩
  | down parent ordinary child plain some' more ih => exact ih same

theorem Advanced.linked {refuse : Bool} {e d i : Ino} {ns rest : List Name} {n : Name} {t : Path}
    (way : fs.Advanced refuse e ns (.link d n i t rest)) :
    fs.isDir d = true ∧ fs.named? d n = some i := by
  generalize same : Halt.link d n i t rest = halt at way
  induction way with
  | here => cases same
  | stay parent more ih => exact ih same
  | up parent more ih => exact ih same
  | vacant => cases same
  | link parent ordinary allowed child node =>
    cases same
    obtain ⟨dir, _, _, _, found⟩ := childExact child
    exact ⟨dir, found⟩
  | last => cases same
  | down parent ordinary child plain some' more ih => exact ih same

theorem vacantFree {follow : Follow} {p : Path} {d : Ino} {n : Name} {slash : Bool}
    (ok : fs.locate follow p = .ok ⟨.vacant d n, slash⟩) :
    fs.isDir d = true ∧ fs.named? d n = none := by
  obtain ⟨_, _, _, arrives | ⟨_, _, _, _, _, wrong⟩⟩ := (walked (locateExact ok).2).ends
  · exact arrives.free
  · cases wrong

theorem entryTaken {follow : Follow} {p : Path} {d i : Ino} {n : Name} {slash : Bool}
    (ok : fs.locate follow p = .ok ⟨.entry d n i, slash⟩) :
    fs.isDir d = true ∧ fs.named? d n = some i := by
  obtain ⟨_, _, _, arrives | ⟨_, _, _, _, linked, same⟩⟩ := (walked (locateExact ok).2).ends
  · exact arrives.taken
  · cases same
    exact linked.linked

theorem enterExact {d i : Ino} {n : Name} {mode : Nat} (ok : fs.enter d n (.file [] mode) = .ok (i, fs')) :
    i = fs.nodes.size ∧ fs.permits d .write = true ∧ fs' = fs.born d n mode := by
  rw [enterFile] at ok
  split at ok
  · rename_i write
    cases ok
    exact ⟨rfl, write, rfl⟩
  · cases ok

theorem createNewExact {mode : Nat} {p : Path} {i : Ino} (ok : fs.createNew mode p = .ok (i, fs')) :
    i = fs.nodes.size ∧ ∃ d n s, fs.locate .creatingNew p = .ok ⟨.vacant d n, s⟩ ∧
      fs.permits d .write = true ∧ fs' = fs.born d n mode := by
  obtain ⟨⟨spot, slash⟩, led, ok⟩ := bindOk ok
  cases spot with
  | top d => cases ok
  | entry d n j => cases ok
  | vacant d n =>
    obtain ⟨fresh, write, born⟩ := enterExact ok
    exact ⟨fresh, d, n, slash, led, write, born⟩

theorem openCreateExact {uses : List Access} {mode : Nat} {p : Path} {i : Ino}
    (ok : fs.openCreate uses mode p = .ok (i, fs')) :
    (fs' = fs ∧ fs.isDir i = false ∧ ∃ d n s, fs.locate .creating p = .ok ⟨.entry d n i, s⟩) ∨
      (i = fs.nodes.size ∧ ∃ d n s, fs.locate .creating p = .ok ⟨.vacant d n, s⟩ ∧
        fs' = fs.born d n mode) := by
  obtain ⟨⟨spot, slash⟩, led, ok⟩ := bindOk ok
  cases spot with
  | top d => cases ok
  | vacant d n =>
    obtain ⟨fresh, _, born⟩ := enterExact ok
    exact Or.inr ⟨fresh, d, n, slash, led, born⟩
  | entry d n j =>
    dsimp only at ok
    split at ok
    · cases ok
    · rename_i outer
      obtain ⟨_, _, same⟩ := bindOk ok
      cases same
      exact Or.inl ⟨rfl, by simpa using outer, d, n, slash, led⟩

theorem unlinkExact {p : Path} (ok : fs.unlink p = .ok fs') :
    ∃ d n i, fs.locate .never p = .ok ⟨.entry d n i, false⟩ ∧ fs.isDir i = false ∧
      fs' = fs.updateDir d (·.erase n) := by
  obtain ⟨⟨spot, slash⟩, led, ok⟩ := bindOk ok
  cases spot with
  | top d => cases ok
  | vacant d n => cases ok
  | entry d n i =>
    cases slash with
    | true => cases ok
    | false =>
      obtain ⟨_, _, ok⟩ := bindOk ok
      split at ok
      · cases ok
      · rename_i outer
        cases ok
        exact ⟨d, n, i, led, by simpa using outer, rfl⟩

theorem renameExact {d : Ino} {old new : Name} (ok : fs.renameIn d old new = .ok fs') :
    (fs' = fs ∧ ∃ i, fs.named? d old = some i ∧ fs.named? d new = some i) ∨
      ∃ i, fs.named? d old = some i ∧ fs.named? d new ≠ some i ∧
      (∀ j, fs.named? d new = some j → fs.mayReplace i j = .ok ()) ∧
      fs' = fs.updateDir d (fun es => supplant new i (es.erase old)) := by
  obtain ⟨found, first, ok⟩ := bindOk ok
  cases found with
  | none => cases ok
  | some i =>
    obtain ⟨there, second, ok⟩ := bindOk ok
    have named := (childExact first).2.2.2.2
    have named' := (childExact second).2.2.2.2
    split at ok
    · rename_i same
      cases ok
      exact Or.inl ⟨rfl, i, named, named'.trans same⟩
    · rename_i other
      obtain ⟨_, _, ok⟩ := bindOk ok
      obtain ⟨_, may, ok⟩ := bindOk ok
      cases ok
      refine Or.inr ⟨i, named, named' ▸ other, ?_, rfl⟩
      intro j taken
      rw [named'] at taken
      rw [taken] at may
      exact may

end Fs

theorem Files.removeExact {fs fs' : Fs} {p : Path} (ok : remove fs p = .ok fs') :
    ∃ d n i, fs.locate .never p = .ok ⟨.entry d n i, false⟩ ∧ fs.isDir i = false ∧
      fs' = fs.updateDir d (·.erase n) := by
  obtain ⟨_, _, unlinked⟩ := bindOk ok
  exact Fs.unlinkExact unlinked

end AtomicUpdate
