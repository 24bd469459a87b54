import AtomicUpdate.Proofs.Fs.Entry

/-! What a change of files leaves to lookups. As long as every entry stays that leads to a directory,
to a symbolic link or to a node that is spared, a lookup that ended at one of these still does. -/
namespace AtomicUpdate.Fs

def Firm (spared : Ino → Prop) (fs : Fs) (i : Ino) : Prop := fs.isInner i = true ∨ spared i

def Lists (es : Table Name Ino) (c : Ino) : Prop := ∃ e ∈ es.entries, e.2 = c

structure Covers (spared : Ino → Prop) (fs : Fs) (es es' : Table Name Ino) : Prop where
  entry : ∀ {n i}, es.get? n = some i → fs.Firm spared i → es'.get? n = some i
  listed : ∀ {c}, fs.isDir c = true → Lists es c → Lists es' c

structure Keeps (spared : Ino → Prop) (fs fs' : Fs) : Prop where
  root : fs'.root = fs.root
  cwd : fs'.cwd = fs.cwd
  dirs : ∀ {d es up m}, fs.node? d = some (.dir es up m) →
    ∃ es', fs'.node? d = some (.dir es' up m) ∧ fs.Covers spared es es'
  links : ∀ {i t}, fs.node? i = some (.link t) → fs'.node? i = some (.link t)
  others : ∀ {i}, spared i → fs.isInner i = false → fs'.isInner i = false

theorem Covers.refl (spared : Ino → Prop) (fs : Fs) (es : Table Name Ino) : fs.Covers spared es es :=
  ⟨fun entry _ => entry, fun _ listed => listed⟩

variable {spared : Ino → Prop} {fs fs' fs'' : Fs}

namespace Keeps

theorem refl (spared : Ino → Prop) (fs : Fs) : Keeps spared fs fs :=
  ⟨rfl, rfl, fun node => ⟨_, node, Covers.refl spared fs _⟩, fun node => node, fun _ outer => outer⟩

theorem dir (keeps : Keeps spared fs fs') {d : Ino} (dir : fs.isDir d = true) : fs'.isDir d = true := by
  obtain ⟨es, up, m, node⟩ := isDirExact dir
  obtain ⟨es', node', _⟩ := keeps.dirs node
  exact isDirOf node'

theorem inner (keeps : Keeps spared fs fs') {i : Ino} (inner : fs.isInner i = true) :
    fs'.isInner i = true := by
  rw [isInner, Bool.or_eq_true] at inner ⊢
  rcases inner with dir | link
  · exact Or.inl (keeps.dir dir)
  · obtain ⟨t, node⟩ := isLinkExact link
    exact Or.inr (isLinkOf (keeps.links node))

theorem firm (keeps : Keeps spared fs fs') {i : Ino} (firm : fs.Firm spared i) : fs'.Firm spared i :=
  firm.imp keeps.inner id

theorem trans (first : Keeps spared fs fs') (second : Keeps spared fs' fs'') :
    Keeps spared fs fs'' where
  root := second.root.trans first.root
  cwd := second.cwd.trans first.cwd
  dirs := by
    intro d es up m node
    obtain ⟨es', node', covers⟩ := first.dirs node
    obtain ⟨es'', node'', covers'⟩ := second.dirs node'
    exact ⟨es'', node'', fun entry firm => covers'.entry (covers.entry entry firm) (first.firm firm),
      fun dir listed => covers'.listed (first.dir dir) (covers.listed dir listed)⟩
  links := fun node => second.links (first.links node)
  others := fun spare outer => second.others spare (first.others spare outer)

theorem permits (keeps : Keeps spared fs fs') {d : Ino} (dir : fs.isDir d = true) (a : Access) :
    fs'.permits d a = fs.permits d a := by
  obtain ⟨es, up, m, node⟩ := isDirExact dir
  obtain ⟨es', node', _⟩ := keeps.dirs node
  rw [Fs.permits, Fs.permits, node, node']
  rfl

theorem demand (keeps : Keeps spared fs fs') {d : Ino} (dir : fs.isDir d = true) (a : Access) :
    fs'.demand d a = fs.demand d a := by
  rw [Fs.demand, Fs.demand, keeps.permits dir]

end Keeps

theorem goneExact {d : Ino} {es up m} (node : fs.node? d = some (.dir es up m)) :
    fs.isGone d = false ↔
      d = fs.root ∨ ∃ above up' m', fs.node? up = some (.dir above up' m') ∧ Lists above d := by
  unfold isGone
  rw [node]
  dsimp only
  by_cases root : d = fs.root
  · simp [root]
  · cases top : fs.node? up with
    | none => simp [root]
    | some node' =>
      cases node' with
      | dir above up' m' => simp [root, Lists]
      | file b m => simp [root]
      | link t => simp [root]
      | device k => simp [root]

theorem Keeps.here (keeps : Keeps spared fs fs') {d : Ino} (dir : fs.isDir d = true)
    (here : fs.isGone d = false) : fs'.isGone d = false := by
  obtain ⟨es, up, m, node⟩ := isDirExact dir
  obtain ⟨es', node', _⟩ := keeps.dirs node
  rw [goneExact node'] 
  rcases (goneExact node).mp here with root | ⟨above, up', m', above', listed⟩
  · exact Or.inl (root.trans keeps.root.symm)
  · obtain ⟨es'', node'', covers⟩ := keeps.dirs above'
    exact Or.inr ⟨es'', up', m', node'', covers.listed dir listed⟩

theorem parentExact {d up : Ino} (ok : fs.parent d = .ok up) :
    ∃ es m, fs.node? d = some (.dir es up m) ∧ fs.permits d .search = true := by
  unfold Fs.parent at ok
  split at ok
  · rename_i es above m node
    split at ok
    · cases ok
      exact ⟨es, m, node, by assumption⟩
    · cases ok
  · cases ok

theorem parentOf {d up : Ino} {es m} (node : fs.node? d = some (.dir es up m))
    (search : fs.permits d .search = true) : fs.parent d = .ok up := by
  rw [Fs.parent, node]
  dsimp only
  rw [if_pos search]

theorem childExact {d : Ino} {n : Name} {found : Option Ino} (ok : fs.child d n = .ok found) :
    fs.isDir d = true ∧ fs.permits d .search = true ∧ fs.isGone d = false ∧
      n.length ≤ Limits.nameMax ∧ fs.named? d n = found := by
  unfold child at ok
  split at ok
  · rename_i es up m node
    split at ok
    · cases ok
    · rename_i search
      split at ok
      · cases ok
      · rename_i here
        split at ok
        · cases ok
        · rename_i short
          cases ok
          exact ⟨isDirOf node, by simpa using search, by simpa using here, Nat.le_of_not_lt short,
            entryOf node n⟩
  · cases ok

theorem childOf {d : Ino} (n : Name) (dir : fs.isDir d = true) (search : fs.permits d .search = true)
    (here : fs.isGone d = false) (short : n.length ≤ Limits.nameMax) :
    fs.child d n = .ok (fs.named? d n) := by
  obtain ⟨es, up, m, node⟩ := isDirExact dir
  rw [child, node]
  dsimp only
  rw [search, here, if_neg (by simp), if_neg (by simp), if_neg (Nat.not_lt.mpr short), entryOf node]

theorem parentOuter {d : Ino} (outer : fs.isDir d = false) : fs.parent d = .error .enotdir := by
  unfold parent
  split
  · rename_i node
    rw [isDirOf node] at outer
    cases outer
  · rfl

theorem childOuter {d : Ino} (outer : fs.isDir d = false) (n : Name) : fs.child d n = .error .enotdir := by
  unfold child
  split
  · rename_i node
    rw [isDirOf node] at outer
    cases outer
  · rfl

namespace Keeps

theorem entry (keeps : Keeps spared fs fs') {d i : Ino} {n : Name} (entry : fs.named? d n = some i)
    (firm : fs.Firm spared i) : fs'.named? d n = some i := by
  obtain ⟨es, up, m, node, found⟩ := entryNode entry
  obtain ⟨es', node', covers⟩ := keeps.dirs node
  rw [entryOf node']
  exact covers.entry found firm

theorem parent (keeps : Keeps spared fs fs') {d up : Ino} (ok : fs.parent d = .ok up) :
    fs'.parent d = .ok up := by
  obtain ⟨es, m, node, search⟩ := parentExact ok
  obtain ⟨es', node', _⟩ := keeps.dirs node
  exact parentOf node' ((keeps.permits (isDirOf node) .search).trans search)

theorem child (keeps : Keeps spared fs fs') {d i : Ino} {n : Name} (ok : fs.child d n = .ok (some i))
    (firm : fs.Firm spared i) : fs'.child d n = .ok (some i) := by
  obtain ⟨dir, search, here, short, found⟩ := childExact ok
  rw [childOf n (keeps.dir dir) ((keeps.permits dir .search).trans search) (keeps.here dir here) short,
    keeps.entry found firm]

theorem notLink (keeps : Keeps spared fs fs') {i : Ino} (firm : fs.Firm spared i)
    (notLink : fs.isLink i = false) : fs'.isLink i = false := by
  cases dir : fs.isDir i with
  | true =>
    obtain ⟨es, up, m, node⟩ := isDirExact dir
    obtain ⟨es', node', _⟩ := keeps.dirs node
    rw [isLink, node']
  | false =>
    have outer : fs.isInner i = false := by rw [isInner, dir, notLink]; rfl
    rcases firm with inner | spare
    · rw [outer] at inner
      cases inner
    · exact (notInner (keeps.others spare outer)).2

end Keeps
end AtomicUpdate.Fs
