import AtomicUpdate.Proofs.Fs.Calls
import AtomicUpdate.Fs.Canonical

/-! Lookups in two trees of which only the bytes of files differ. Every path leads to the same node in both or
is refused for the same reason, and has the same canonical path. -/
namespace AtomicUpdate.Fs

variable {fs fs' : Fs}

structure Likens (fs fs' : Fs) : Prop where
  alike : Alike fs fs'
  rights : ∀ i a, fs'.permits i a = fs.permits i a

namespace Alike

theorem isDir (alike : Alike fs fs') (i : Ino) : fs'.isDir i = fs.isDir i := by
  rcases alike.same i with same | ⟨before, after⟩
  · rw [Fs.isDir, Fs.isDir, same]
  · rw [(notInner before).1, (notInner after).1]

theorem dirNode (alike : Alike fs fs') {d : Ino} (dir : fs.isDir d = true) : fs'.node? d = fs.node? d := by
  obtain ⟨es, up, m, node⟩ := isDirExact dir
  rw [node]
  exact alike.node node (by rw [isInner, dir, Bool.true_or])

theorem permits (alike : Alike fs fs') {d : Ino} (dir : fs.isDir d = true) (a : Access) :
    fs'.permits d a = fs.permits d a := by
  rw [Fs.permits, Fs.permits, alike.dirNode dir]

theorem parent (alike : Alike fs fs') (d : Ino) : fs'.parent d = fs.parent d := by
  cases dir : fs.isDir d with
  | true => rw [Fs.parent, Fs.parent, alike.permits dir, alike.dirNode dir]
  | false => rw [parentOuter dir, parentOuter ((alike.isDir d).trans dir)]

theorem isGone (alike : Alike fs fs') {d : Ino} (dir : fs.isDir d = true) :
    fs'.isGone d = fs.isGone d := by
  have keeps : Keeps (fun _ => False) fs fs' := alike.keeps
  have back : Keeps (fun _ => False) fs' fs := alike.symm.keeps
  cases gone : fs.isGone d with
  | false => exact keeps.here dir gone
  | true =>
    cases gone' : fs'.isGone d with
    | true => rfl
    | false => rw [back.here (keeps.dir dir) gone'] at gone; cases gone

theorem child (alike : Alike fs fs') (d : Ino) (n : Name) : fs'.child d n = fs.child d n := by
  cases dir : fs.isDir d with
  | true => rw [Fs.child, Fs.child, alike.permits dir, alike.dirNode dir, alike.isGone dir]
  | false => rw [childOuter dir, childOuter ((alike.isDir d).trans dir)]

theorem unlinked {i : Ino} (plain : fs.isLink i = false) {α : Type} (linked : Path → α) (other : α) :
    (match fs.node? i with | some (.link target) => linked target | _ => other) = other := by
  split
  · rename_i node
    rw [isLinkOf node] at plain
    cases plain
  · rfl

theorem undirected {i : Ino} (outer : fs.isDir i = false) {α : Type} (inside : Table Name Ino → Ino → Nat → α)
    (other : α) :
    (match fs.node? i with | some (.dir es up m) => inside es up m | _ => other) = other := by
  split
  · rename_i node
    rw [isDirOf node] at outer
    cases outer
  · rfl

theorem advance (alike : Alike fs fs') (refuse : Bool) (ns : List Name) (d : Ino) :
    fs'.advance refuse d ns = fs.advance refuse d ns := by
  induction ns generalizing d with
  | nil => rfl
  | cons n rest ih =>
    rw [Fs.advance, Fs.advance, alike.parent, alike.child]
    simp only [ih]
    cases fs.parent d with
    | error e => rfl
    | ok up =>
      refine if_congr Iff.rfl rfl (if_congr Iff.rfl rfl (if_congr Iff.rfl rfl ?_))
      cases fs.child d n with
      | error e => rfl
      | ok found =>
        cases found with
        | none => rfl
        | some i =>
          dsimp only
          rcases alike.same i with same | ⟨before, after⟩
          · rw [same]
          · exact (unlinked (notInner after).2 _ _).trans (unlinked (notInner before).2 _ _).symm

theorem walk (alike : Alike fs fs') (follow : Follow) (links : Nat) (d : Ino) (ns : List Name)
    (slash : Bool) : fs'.walk follow links d ns slash = fs.walk follow links d ns slash := by
  have start : ∀ d p, fs'.startOf d p = fs.startOf d p := by
    intro d p
    rw [startOf, startOf, alike.root]
  induction links generalizing d ns slash with
  | zero => rw [Fs.walk, Fs.walk, alike.advance]
  | succ links ih =>
    rw [Fs.walk, Fs.walk, alike.advance]
    simp only [ih, start]

theorem locate (alike : Alike fs fs') (follow : Follow) (p : Path) :
    fs'.locate follow p = fs.locate follow p := by
  rw [Fs.locate, Fs.locate, startOf, startOf, alike.root, alike.cwd]
  simp only [alike.walk]

theorem lookup (alike : Alike fs fs') (p : Path) : fs'.lookup p = fs.lookup p := by
  have node : ∀ place, fs'.nodeAt place = fs.nodeAt place := by
    intro place
    unfold nodeAt
    simp only [alike.isDir]
  rw [Fs.lookup, Fs.lookup, alike.locate]
  simp only [node]

end Alike

namespace Likens

theorem demand (likens : Likens fs fs') (i : Ino) (a : Access) : fs'.demand i a = fs.demand i a := by
  rw [Fs.demand, Fs.demand, likens.rights]

theorem childAlong (likens : Likens fs fs') (t : Trail) (n : Name) :
    fs'.childAlong t n = fs.childAlong t n := by
  have node : t.node fs' = t.node fs := by
    cases t with
    | nil => exact likens.alike.root
    | cons e t => rfl
  rw [Fs.childAlong, Fs.childAlong, node, likens.alike.root, likens.alike.child]
  simp only [likens.demand]

theorem climb (likens : Likens fs fs') (ns : List Name) (t : Trail) : fs'.climb t ns = fs.climb t ns := by
  induction ns generalizing t with
  | nil => rfl
  | cons n rest ih =>
    rw [Fs.climb, Fs.climb, likens.childAlong]
    simp only [ih]
    refine if_congr Iff.rfl rfl (if_congr Iff.rfl rfl (if_congr Iff.rfl rfl ?_))
    cases fs.childAlong t n with
    | error e => rfl
    | ok found =>
      cases found with
      | none => rfl
      | some i =>
        dsimp only
        rcases likens.alike.same i with same | ⟨before, after⟩
        · rw [same, likens.alike.isDir]
        · rw [likens.alike.isDir]
          exact (Alike.unlinked (notInner after).2 _ _).trans (Alike.unlinked (notInner before).2 _ _).symm

theorem ascend (likens : Likens fs fs') (links : Nat) (t : Trail) (ns : List Name) :
    fs'.ascend links t ns = fs.ascend links t ns := by
  induction links generalizing t ns with
  | zero => rw [Fs.ascend, Fs.ascend, likens.climb]
  | succ links ih =>
    rw [Fs.ascend, Fs.ascend, likens.climb]
    simp only [ih]

theorem trail (likens : Likens fs fs') (depth : Nat) (d : Ino) : fs'.trailOf? depth d = fs.trailOf? depth d := by
  induction depth generalizing d with
  | zero => rfl
  | succ depth ih =>
    have alike := likens.alike
    rw [Fs.trailOf?, Fs.trailOf?, alike.root]
    simp only [ih]
    refine if_congr Iff.rfl rfl ?_
    cases dir : fs.isDir d with
    | false =>
      exact (Alike.undirected ((alike.isDir d).trans dir) _ _).trans (Alike.undirected dir _ _).symm
    | true =>
      obtain ⟨es, up, m, node⟩ := isDirExact dir
      rw [alike.dirNode dir, node]
      dsimp only
      cases above : fs.isDir up with
      | false =>
        exact (Alike.undirected ((alike.isDir up).trans above) _ _).trans (Alike.undirected above _ _).symm
      | true => rw [alike.dirNode above]

theorem canonical (likens : Likens fs fs') (size : fs'.nodes.size = fs.nodes.size) (p : Path) :
    fs'.canonical p = fs.canonical p := by
  rw [Fs.canonical, Fs.canonical, size, likens.trail, likens.alike.cwd]
  simp only [likens.ascend]

end Likens

structure Worded (k : Option Ino) (fs fs' : Fs) : Prop where
  likens : Likens fs fs'
  size : fs'.nodes.size = fs.nodes.size
  others : ∀ j, k ≠ some j → fs'.node? j = fs.node? j

namespace Worded
variable {k : Option Ino} {fs'' : Fs}

theorem refl (k : Option Ino) (fs : Fs) : Worded k fs fs := ⟨⟨.refl fs, fun _ _ => rfl⟩, rfl, fun _ _ => rfl⟩

theorem trans (first : Worded k fs fs') (second : Worded k fs' fs'') : Worded k fs fs'' :=
  ⟨⟨first.likens.alike.trans second.likens.alike,
    fun i a => (second.likens.rights i a).trans (first.likens.rights i a)⟩,
    second.size.trans first.size, fun j other => (second.others j other).trans (first.others j other)⟩

end Worded
end AtomicUpdate.Fs
