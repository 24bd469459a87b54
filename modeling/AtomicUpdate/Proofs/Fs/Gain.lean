import AtomicUpdate.Proofs.Fs.Recede

/-! Changes by which there is one file more and nothing less. Every name leads where it did, and every file
holds what it held. -/
namespace AtomicUpdate.Fs

variable {fs fs' : Fs}

inductive Gains (fs : Fs) : Fs → Prop where
  | none : Gains fs fs
  | born {d n mode} (dir : fs.isDir d = true) (free : fs.named? d n = none) :
      Gains fs (fs.born d n mode)

namespace Gains

theorem keeps (gains : Gains fs fs') (spared : Ino → Prop) : Keeps spared fs fs' := by
  cases gains with
  | none => exact .refl spared fs
  | born dir free => exact keepsBorn spared free _

theorem recedes (gains : Gains fs fs') : Recedes fs fs' := by
  cases gains with
  | none => exact .refl fs
  | born dir free => exact .born free _

theorem tidy (gains : Gains fs fs') (tidy : fs.Tidy) : fs'.Tidy := by
  cases gains with
  | none => exact tidy
  | born dir free => exact (evolvesBorn tidy free _).tidy

theorem more (gains : Gains fs fs') : fs.nodes.size ≤ fs'.nodes.size := by
  cases gains with
  | none => exact Nat.le_refl _
  | born dir free =>
    rw [Fs.born, sizeUpdateDir, sizeAdd]
    exact Nat.le_succ _

theorem entry (gains : Gains fs fs') {d i : Ino} {n : Name} (entry : fs.named? d n = some i) :
    fs'.named? d n = some i :=
  (gains.keeps fun _ => True).entry entry (Or.inr trivial)

theorem file (gains : Gains fs fs') {i : Ino} {b : Bytes} {m : Nat}
    (file : fs.node? i = some (.file b m)) : fs'.node? i = some (.file b m) := by
  cases gains with
  | none => exact file
  | born dir free => exact bornOther file _ _

end Gains

theorem openCreateGains {uses : List Access} {mode : Nat} {p : Path} {i : Ino}
    (ok : fs.openCreate uses mode p = .ok (i, fs')) : Gains fs fs' := by
  rcases openCreateExact ok with ⟨rfl, _⟩ | ⟨_, d, n, s, located, rfl⟩
  · exact .none
  · obtain ⟨dir, free⟩ := vacantFree located
    exact .born dir free

end AtomicUpdate.Fs
