import AtomicUpdate.Proofs.Fs.Calls

/-! Lookups after entries have been taken away. Each ends where it ended before, or it finds that something
is missing; it fails for no other new reason. -/
namespace AtomicUpdate.Fs

def Thins (fs fs' : Fs) : Prop := Keeps (fun _ => True) fs' fs

/-- Whoever calls may do everything in every directory. -/
def Privileged (fs : Fs) : Prop := ∀ d a, fs.isDir d = true → fs.permits d a = true

instance (fs : Fs) : Decidable fs.Privileged :=
  decidable_of_iff (∀ d < fs.nodes.size, ∀ a ∈ [Access.read, .write, .search],
      fs.isDir d = true → fs.permits d a = true) <| by
    refine ⟨fun all d a dir => ?_, fun all d _ a _ => all d a⟩
    obtain ⟨es, up, m, node⟩ := isDirExact dir
    exact all d (nodeBound node) a (by cases a <;> simp) dir

inductive Missing : Except Errno Place → Prop where
  | before : Missing (.error .enoent)
  | last (d n s) : Missing (.ok ⟨.vacant d n, s⟩)

variable {fs fs' : Fs}

theorem Missing.lookupEntry {p : Path} (missing : Missing (fs.locate .atSlash p)) :
    fs.lookupEntry p = .error .enoent := by
  unfold Fs.lookupEntry
  generalize fs.locate .atSlash p = located at missing
  cases missing <;> rfl

theorem locateRefused (follow : Follow) {p : Path} {e : Errno} (refused : checkLength p = .error e) :
    fs.locate follow p = .error e := by
  rw [locate, refused]
  rfl

namespace Thins

theorem refl (fs : Fs) : Thins fs fs := Keeps.refl _ fs

theorem erase (fs : Fs) (d : Ino) (n : Name) : Thins fs (fs.updateDir d (·.erase n)) := keepsOfErase d n

theorem outer (thins : Thins fs fs') {i : Ino} (inner : fs.isInner i = true) : fs'.isInner i = true := by
  by_contra outer
  rw [Bool.not_eq_true] at outer
  rw [Keeps.others thins trivial outer] at inner
  cases inner

theorem link (thins : Thins fs fs') (i : Ino) (t : Path) :
    fs'.node? i = some (.link t) ↔ fs.node? i = some (.link t) := by
  refine ⟨fun node => Keeps.links thins node, fun node => ?_⟩
  have inner := thins.outer (i := i) (by rw [isInner, isLinkOf node, Bool.or_true])
  rw [isInner, Bool.or_eq_true] at inner
  rcases inner with dir | link
  · have dir' := Keeps.dir thins dir
    rw [isDir, node] at dir'
    cases dir'
  · obtain ⟨t', node'⟩ := isLinkExact link
    have back := Keeps.links thins node'
    rw [node] at back
    cases back
    exact node'

theorem isDir (thins : Thins fs fs') (i : Ino) : fs'.isDir i = fs.isDir i := by
  cases dir' : fs'.isDir i with
  | true => exact (Keeps.dir thins dir').symm
  | false =>
    cases dir : fs.isDir i with
    | false => rfl
    | true =>
      have inner := thins.outer (i := i) (by rw [isInner, dir, Bool.true_or])
      rw [isInner, dir', Bool.false_or] at inner
      obtain ⟨t, node⟩ := isLinkExact inner
      rw [Fs.isDir, (thins.link i t).mp node] at dir
      cases dir

theorem permits (thins : Thins fs fs') {d : Ino} (dir : fs.isDir d = true) (a : Access) :
    fs'.permits d a = fs.permits d a :=
  (Keeps.permits thins ((thins.isDir d).trans dir) a).symm

theorem privileged (thins : Thins fs fs') (privileged : fs.Privileged) : fs'.Privileged := by
  intro d a dir
  rw [thins.isDir] at dir
  exact (thins.permits dir a).trans (privileged d a dir)

theorem parent (thins : Thins fs fs') (d : Ino) : fs'.parent d = fs.parent d := by
  cases dir : fs.isDir d with
  | true =>
    obtain ⟨es', up, m, node'⟩ := isDirExact ((thins.isDir d).trans dir)
    obtain ⟨es, node, _⟩ := Keeps.dirs thins node'
    rw [Fs.parent, Fs.parent, node, node', thins.permits dir]
  | false => rw [parentOuter dir, parentOuter ((thins.isDir d).trans dir)]

theorem child (thins : Thins fs fs') (d : Ino) (n : Name) :
    fs'.child d n = fs.child d n ∨ fs'.child d n = .error .enoent ∨ fs'.child d n = .ok none := by
  cases dir : fs.isDir d with
  | false => exact Or.inl (by rw [childOuter dir, childOuter ((thins.isDir d).trans dir)])
  | true =>
    obtain ⟨es', up, m, node'⟩ := isDirExact ((thins.isDir d).trans dir)
    obtain ⟨es, node, covers⟩ := Keeps.dirs thins node'
    rw [Fs.child, Fs.child, node, node', thins.permits dir]
    dsimp only
    cases fs.permits d .search with
    | false => exact Or.inl rfl
    | true =>
      cases gone' : fs'.isGone d with
      | true => exact Or.inr (Or.inl rfl)
      | false =>
        rw [Keeps.here thins (isDirOf node') gone']
        by_cases long : Limits.nameMax < n.length
        · exact Or.inl (by simp [long])
        · cases found : es'.get? n with
          | none => exact Or.inr (Or.inr (by simp [long]))
          | some i => exact Or.inl (by simp [long, covers.entry found (Or.inr trivial)])

theorem advance (thins : Thins fs fs') (refuse : Bool) (d : Ino) (ns : List Name) :
    fs'.advance refuse d ns = fs.advance refuse d ns ∨ fs'.advance refuse d ns = .error .enoent ∨
      ∃ e n, fs'.advance refuse d ns = .ok (.arrived (.vacant e n)) := by
  induction ns generalizing d with
  | nil => exact Or.inl rfl
  | cons n rest ih =>
    rw [Fs.advance, Fs.advance, thins.parent]
    cases fs.parent d with
    | error e => exact Or.inl rfl
    | ok up =>
      dsimp only
      by_cases dot : n = Path.dot
      · simpa only [if_pos dot] using ih d
      by_cases dots : n = Path.dotDot
      · simpa only [if_neg dot, if_pos dots] using ih up
      rw [if_neg dot, if_neg dots, if_neg dot, if_neg dots]
      cases refuse && rest.isEmpty with
      | true => exact Or.inl rfl
      | false =>
        -- Where the name is still there it leads to the same node, which is a link if it was one.
        rcases thins.child d n with same | gone | none
        · rw [same]
          cases fs.child d n with
          | error e => exact Or.inl rfl
          | ok found =>
            cases found with
            | none => exact Or.inl rfl
            | some i =>
              cases link : fs.isLink i with
              | true =>
                obtain ⟨t, node⟩ := isLinkExact link
                simp [node, (thins.link i t).mpr node]
              | false =>
                have link' : fs'.isLink i = false := by
                  rw [← Bool.not_eq_true] at link ⊢
                  intro is
                  obtain ⟨t, node⟩ := isLinkExact is
                  exact link (isLinkOf ((thins.link i t).mp node))
                dsimp only
                rw [if_neg Bool.false_ne_true, if_neg Bool.false_ne_true]
                by_cases last : rest = []
                · rw [if_pos last, if_pos last]
                  split
                  · rename_i node
                    rw [isLinkOf node] at link'
                    cases link'
                  split
                  · rename_i node
                    rw [isLinkOf node] at link
                    cases link
                  exact Or.inl rfl
                · rw [if_neg last, if_neg last]
                  split
                  · rename_i node
                    rw [isLinkOf node] at link'
                    cases link'
                  split
                  · rename_i node
                    rw [isLinkOf node] at link
                    cases link
                  exact ih i
        · rw [gone]
          exact Or.inr (Or.inl rfl)
        · rw [none]
          by_cases last : rest = []
          · exact Or.inr (Or.inr ⟨d, n, by simp [last]⟩)
          · exact Or.inr (Or.inl (by simp [last]))

theorem walk (thins : Thins fs fs') (follow : Follow) (links : Nat) (d : Ino) (ns : List Name)
    (slash : Bool) : fs'.walk follow links d ns slash = fs.walk follow links d ns slash ∨
      Missing (fs'.walk follow links d ns slash) := by
  induction links using Nat.strongRecOn generalizing d ns slash with
  | ind links ih =>
    rw [Fs.walk, Fs.walk]
    rcases thins.advance (follow.creates && slash) d ns with same | gone | ⟨e, n, vacant⟩
    · rw [same]
      cases fs.advance (follow.creates && slash) d ns with
      | error e => exact Or.inl rfl
      | ok halt =>
        cases halt with
        | arrived spot => exact Or.inl rfl
        | link dir n i target rest =>
          dsimp only
          by_cases stops : rest = [] ∧ follow.through slash = false
          · exact Or.inl (by rw [if_pos stops, if_pos stops])
          rw [if_neg stops, if_neg stops]
          cases links with
          | zero => exact Or.inl rfl
          | succ links =>
            have start : fs'.startOf dir target = fs.startOf dir target := (startKept thins dir target).symm
            rw [start]
            exact ih links (Nat.lt_succ_self links) _ _ _
    · rw [gone]
      exact Or.inr .before
    · rw [vacant]
      exact Or.inr (.last e n slash)

theorem locate (thins : Thins fs fs') (follow : Follow) (p : Path) :
    fs'.locate follow p = fs.locate follow p ∨ Missing (fs'.locate follow p) := by
  cases short : checkLength p with
  | error e => exact Or.inl (by rw [locateRefused follow short, locateRefused follow short])
  | ok u =>
    have start : fs'.startOf fs'.cwd p = fs.startOf fs.cwd p := by
      rw [startOf, startOf, Keeps.root thins, Keeps.cwd thins]
    rw [locateOf follow short, locateOf follow short, start]
    exact thins.walk follow _ _ _ _

theorem lookupEntry (thins : Thins fs fs') (p : Path) :
    fs'.lookupEntry p = fs.lookupEntry p ∨ fs'.lookupEntry p = .error .enoent := by
  have node : ∀ place, fs'.nodeAt place = fs.nodeAt place := fun place => by
    simp only [nodeAt, thins.isDir]
  rcases thins.locate .atSlash p with same | missing
  · exact Or.inl (by simp only [Fs.lookupEntry, same, node])
  · exact Or.inr missing.lookupEntry

end Thins

def Lacking (e : Errno) : Prop := e = .enoent ∨ e = .enotdir

def Absent (fs : Fs) (p : Path) : Prop := ∃ e, fs.lookupEntry p = .error e ∧ Lacking e

theorem Missing.absent {p : Path} (missing : Missing (fs.locate .atSlash p)) : fs.Absent p :=
  ⟨.enoent, missing.lookupEntry, Or.inl rfl⟩

inductive Removable (fs : Fs) (p : Path) : Prop where
  | absent (absent : fs.Absent p) : Removable fs p
  | entry {d n i} (there : fs.locate .atSlash p = .ok ⟨.entry d n i, false⟩)
      (outer : fs.isDir i = false) : Removable fs p

namespace Thins
variable {p : Path}

theorem absent (thins : Thins fs fs') (absent : fs.Absent p) : fs'.Absent p := by
  obtain ⟨e, failed, lacking⟩ := absent
  rcases thins.lookupEntry p with same | gone
  · exact ⟨e, same.trans failed, lacking⟩
  · exact ⟨.enoent, gone, Or.inl rfl⟩

theorem removable (thins : Thins fs fs') (removable : fs.Removable p) : fs'.Removable p := by
  cases removable with
  | absent gone => exact .absent (thins.absent gone)
  | @entry d n i there outer =>
    rcases thins.locate .atSlash p with same | missing
    · exact .entry (same.trans there) ((thins.isDir i).trans outer)
    · exact .absent missing.absent

end Thins

theorem Walked.unslashed {links : Nat} {d : Ino} {ns : List Name} {slash : Bool} {place : Place}
    (walked : fs.Walked .atSlash links d ns slash place) (open' : place.slash = false) :
    slash = false ∧ fs.Walked .never links d ns slash place := by
  induction walked with
  | arrived way => exact ⟨open', .arrived way⟩
  | stopped way stops => exact ⟨open', .stopped way rfl⟩
  | @onward links d ns slash dir n i target rest place way goes more ih =>
    obtain ⟨both, on⟩ := ih open'
    obtain rfl : slash = false := (Bool.or_eq_false_iff.mp both).1
    exact ⟨rfl, .onward way (fun stops => goes ⟨stops.1, rfl⟩) on⟩

variable {p : Path} {d i : Ino} {n : Name}

theorem locateNever {spot : Spot} (there : fs.locate .atSlash p = .ok ⟨spot, false⟩) :
    fs.locate .never p = .ok ⟨spot, false⟩ := by
  obtain ⟨short, goes⟩ := locateExact there
  rw [locateOf .never short]
  exact ((walked goes).unslashed rfl).2.ok

theorem Walked.atSlash {links : Nat} {d : Ino} {ns : List Name} {slash : Bool} {place : Place}
    (walked : fs.Walked .never links d ns slash place) (open' : place.slash = false) :
    fs.Walked .atSlash links d ns slash place := by
  induction walked with
  | arrived way => exact .arrived way
  | stopped way stops => exact .stopped way open'
  | onward way goes more ih => exact .onward way (fun stops => goes ⟨stops.1, rfl⟩) (ih open')

theorem locateAtSlash {spot : Spot} (there : fs.locate .never p = .ok ⟨spot, false⟩) :
    fs.locate .atSlash p = .ok ⟨spot, false⟩ := by
  obtain ⟨short, goes⟩ := locateExact there
  rw [locateOf .atSlash short]
  exact ((walked goes).atSlash rfl).ok

theorem unlinkEntry (privileged : fs.Privileged)
    (there : fs.locate .atSlash p = .ok ⟨.entry d n i, false⟩) (outer : fs.isDir i = false) :
    fs.unlink p = .ok (fs.updateDir d (·.erase n)) := by
  have write : fs.demand d .write = .ok () := by
    rw [demand, if_pos (privileged d .write (entryTaken there).1)]
  simp [unlink, locateNever there, write, outer, bind, Except.bind]

theorem erasedAbsent (there : fs.locate .atSlash p = .ok ⟨.entry d n i, false⟩) :
    (fs.updateDir d (·.erase n)).Absent p := by
  rcases (Thins.erase fs d n).locate .atSlash p with same | missing
  · obtain ⟨_, taken⟩ := entryTaken (same.trans there)
    rw [entryErase (entryTaken there).1, if_pos ⟨rfl, rfl⟩] at taken
    cases taken
  · exact missing.absent

end AtomicUpdate.Fs
