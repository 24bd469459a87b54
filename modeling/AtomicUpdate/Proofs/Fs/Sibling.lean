import AtomicUpdate.Proofs.Fs.Absence
import AtomicUpdate.Proofs.Fs.Home

/-! Two paths into one folder. For who may do everything, the lookup of a short name there is refused only
on the way to the folder, and then whatever else is looked up through the folder is refused alike. -/
namespace AtomicUpdate.Fs
open Path (Plain Proper)

variable {fs : Fs}

theorem parentLacks (privileged : fs.Privileged) {d : Ino} {e : Errno} (failed : fs.parent d = .error e) :
    e = .enotdir := by
  cases dir : fs.isDir d with
  | false =>
    rw [parentOuter dir] at failed
    cases failed
    rfl
  | true =>
    obtain ⟨es, up, m, node⟩ := isDirExact dir
    rw [parentOf node (privileged d .search dir)] at failed
    cases failed

theorem childLacks (privileged : fs.Privileged) {d : Ino} {n : Name} {e : Errno}
    (failed : fs.child d n = .error e) :
    e = .enoent ∨ e = .enotdir ∨ e = .enametoolong ∧ Limits.nameMax < n.length := by
  cases dir : fs.isDir d with
  | false =>
    rw [childOuter dir] at failed
    cases failed
    exact Or.inr (Or.inl rfl)
  | true =>
    obtain ⟨es, up, m, node⟩ := isDirExact dir
    rw [child, node, privileged d .search dir] at failed
    dsimp only at failed
    rw [if_neg (by simp)] at failed
    split at failed
    · cases failed
      exact Or.inl rfl
    split at failed
    · rename_i long
      cases failed
      exact Or.inr (Or.inr ⟨rfl, long⟩)
    · cases failed

inductive Sided (m : Name) (more : List Name) : Except Errno Halt → Except Errno Halt → Prop where
  | lacks {e other} (lacking : Lacking e) : Sided m more (.error e) other
  | refused (e) : Sided m more (.error e) (.error e)
  | arrived {spot other} : Sided m more (.ok (.arrived spot)) other
  | stopped {dir n i target other} : Sided m more (.ok (.link dir n i target [])) other
  | linked (dir n i target rest) :
      Sided m more (.ok (.link dir n i target (rest ++ [m]))) (.ok (.link dir n i target (rest ++ more)))

variable {m : Name} {more : List Name}

theorem advanceLast (privileged : fs.Privileged) (ordinary : Ordinary m) (short : m.length ≤ Limits.nameMax)
    (d : Ino) (other : Except Errno Halt) : Sided m more (fs.advance false d [m]) other := by
  rw [advance]
  cases parent : fs.parent d with
  | error e => exact .lacks (Or.inr (parentLacks privileged parent))
  | ok up =>
    dsimp only
    rw [if_neg ordinary.1, if_neg ordinary.2, Bool.false_and, if_neg Bool.false_ne_true]
    cases child : fs.child d m with
    | error e =>
      rcases childLacks privileged child with none | file | ⟨_, long⟩
      · exact .lacks (Or.inl none)
      · exact .lacks (Or.inr file)
      · exact absurd short (Nat.not_le.mpr long)
    | ok found =>
      cases found with
      | none => exact .arrived
      | some i =>
        dsimp only
        split
        · exact .stopped
        · exact .arrived

theorem advanceSided (privileged : fs.Privileged) (ordinary : Ordinary m)
    (short : m.length ≤ Limits.nameMax) (more : List Name) (d : Ino) (ns : List Name) :
    Sided m more (fs.advance false d (ns ++ [m])) (fs.advance false d (ns ++ more)) := by
  induction ns generalizing d with
  | nil => exact advanceLast privileged ordinary short d _
  | cons n ns ih =>
    rw [List.cons_append, List.cons_append, advance, advance]
    cases parent : fs.parent d with
    | error e => exact .lacks (Or.inr (parentLacks privileged parent))
    | ok up =>
      dsimp only
      by_cases dot : n = Path.dot
      · rw [if_pos dot, if_pos dot]
        exact ih d
      by_cases dots : n = Path.dotDot
      · rw [if_neg dot, if_neg dot, if_pos dots, if_pos dots]
        exact ih up
      rw [if_neg dot, if_neg dot, if_neg dots, if_neg dots, Bool.false_and, Bool.false_and,
        if_neg Bool.false_ne_true, if_neg Bool.false_ne_true]
      cases fs.child d n with
      | error e => exact .refused e
      | ok found =>
        cases found with
        | none =>
          dsimp only
          rw [if_neg (by simp)]
          exact .lacks (Or.inl rfl)
        | some i =>
          dsimp only
          rw [if_neg (by simp)]
          split
          · exact .linked d n i _ ns
          by_cases last : ns ++ more = []
          · rw [List.append_eq_nil_iff] at last
            rw [last.1]
            exact advanceLast privileged ordinary short i _
          · rw [if_neg last]
            exact ih i

theorem walkSided (privileged : fs.Privileged) (ordinary : Ordinary m) (short : m.length ≤ Limits.nameMax)
    {links : Nat} {d : Ino} {ns : List Name} {slash : Bool} (asks : more ≠ [] ∨ slash = true) {e : Errno}
    (failed : fs.walk .atSlash links d (ns ++ [m]) false = .error e) :
    Lacking e ∨ fs.walk .atSlash links d (ns ++ more) slash = .error e := by
  have creates : ∀ slash, (Follow.atSlash.creates && slash) = false := fun _ => rfl
  induction links using Nat.strongRecOn generalizing d ns slash with
  | ind links ih =>
    have sided := advanceSided privileged ordinary short more d ns
    rw [walk, creates] at failed
    rw [walk, creates]
    generalize fs.advance false d (ns ++ [m]) = first at sided failed
    generalize fs.advance false d (ns ++ more) = second at sided
    cases sided with
    | lacks lacking =>
      cases failed
      exact Or.inl lacking
    | refused e =>
      cases failed
      exact Or.inr rfl
    | arrived => cases failed
    | stopped =>
      dsimp only at failed
      rw [if_pos ⟨rfl, rfl⟩] at failed
      cases failed
    | linked dir n i target rest =>
      -- Both go on through the link, the other one because it has more names or asks for a directory.
      have goes : ¬ (rest ++ more = [] ∧ Follow.atSlash.through slash = false) := by
        rintro ⟨none, open'⟩
        rcases asks with some' | closed
        · exact some' (List.append_eq_nil_iff.mp none).2
        · cases closed.symm.trans open'
      dsimp only at failed ⊢
      rw [if_neg (by simp)] at failed
      rw [if_neg goes]
      cases links with
      | zero =>
        cases failed
        exact Or.inr rfl
      | succ links =>
        have idle : (false || ((rest ++ [m]).isEmpty && target.endsInSlash)) = false := by
          cases rest <;> rfl
        dsimp only at failed ⊢
        rw [idle, ← List.append_assoc] at failed
        rw [← List.append_assoc]
        refine ih links (Nat.lt_succ_self links) ?_ failed
        exact asks.imp id fun closed => by rw [closed, Bool.true_or]

theorem siblingLacks (privileged : fs.Privileged) {pre leaf : Path}
    (ends : pre = [] ∨ ∃ a, pre = a ++ [Path.slash]) (single : Path.slash ∉ leaf)
    (removable : fs.Removable (pre ++ leaf)) (plain : Plain m) (short : m.length ≤ Limits.nameMax)
    (within : (pre ++ m).length < Limits.pathMax) {e : Errno}
    (failed : fs.lookupEntry (pre ++ m) = .error e) : Lacking e := by
  have refusal : ∀ {e}, fs.locate .atSlash (pre ++ leaf) = .error e → Lacking e := by
    intro e refused
    cases removable with
    | absent gone =>
      obtain ⟨e', failed, lacking⟩ := gone
      rw [Fs.lookupEntry, refused] at failed
      cases failed
      exact lacking
    | entry there outer =>
      rw [refused] at there
      cases there
  have fits : checkLength (pre ++ m) = .ok () :=
    checkFits (List.append_ne_nil_of_right_ne_nil pre plain.nonempty) within
  rcases bindError failed with refused | ⟨⟨spot, slash⟩, _, refused⟩
  · rw [locateOf .atSlash fits, startThrough plain, Path.namesThrough ends plain,
      Path.plainNoClosing plain] at refused
    -- The empty path names nothing, but its folder can be walked like that of any other path.
    by_cases nothing : pre ++ leaf = []
    · obtain ⟨rfl, rfl⟩ := List.append_eq_nil_iff.mp nothing
      have top : ∀ d, fs.walk .atSlash Limits.linkMax d ([] ++ []) true = .ok ⟨.top d, true⟩ :=
        fun d => (Walked.arrived (.here d)).ok
      rcases walkSided privileged (Home.ordinary plain) short (Or.inr rfl) refused with lacking | wrong
      · exact lacking
      · cases (top _).symm.trans wrong
    cases long : checkLength (pre ++ leaf) with
    | error e' =>
      have lacking := refusal (locateRefused .atSlash long)
      unfold checkLength at long
      rw [if_neg nothing] at long
      split at long
      · cases long
        rcases lacking with same | same <;> cases same
      · cases long
    | ok u =>
      have asks : Path.names leaf ≠ [] ∨ (pre ++ leaf).endsInSlash = true := by
        by_cases bare : leaf = []
        · right
          rcases ends with rfl | ⟨a, rfl⟩
          · exact absurd bare nothing
          · rw [bare, List.append_nil, Path.endsInSlash, List.getLast?_concat]
            rfl
        · left
          rw [Path.names, Path.segmentsPlain single]
          simp [bare]
      rcases walkSided privileged (Home.ordinary plain) short asks refused with lacking | refused
      · exact lacking
      · refine refusal ?_
        rw [locateOf .atSlash long, startAlong single, Path.namesAlong ends]
        exact refused
  · unfold nodeAt at refused
    split at refused
    · cases refused
      exact Or.inl rfl
    · split at refused <;> cases refused
      exact Or.inr rfl

end AtomicUpdate.Fs
