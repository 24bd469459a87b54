import AtomicUpdate.Fs.Call

/-! Nodes and entries after each kind of change. A change of one directory shows in its entries
only, and a file's bytes are touched only where they are written. -/
namespace AtomicUpdate

theorem bindOk {ε α β : Type} {first : Except ε α} {next : α → Except ε β} {b : β}
    (ok : (first >>= next) = .ok b) : ∃ a, first = .ok a ∧ next a = .ok b := by
  cases first with
  | error e => contradiction
  | ok a => exact ⟨a, rfl, ok⟩

theorem bindError {ε α β : Type} {first : Except ε α} {next : α → Except ε β} {e : ε}
    (failed : (first >>= next) = .error e) :
    first = .error e ∨ ∃ a, first = .ok a ∧ next a = .error e := by
  cases first with
  | error e' =>
    cases failed
    exact Or.inl rfl
  | ok a => exact Or.inr ⟨a, rfl, failed⟩

theorem mapOk {ε α β : Type} {first : Except ε α} {f : α → β} {b : β} (ok : first.map f = .ok b) :
    ∃ a, first = .ok a ∧ f a = b := by
  cases first with
  | error e => cases ok
  | ok a => exact ⟨a, rfl, Except.ok.inj ok⟩

theorem mapError {ε α β : Type} {first : Except ε α} {f : α → β} {e : ε} (failed : first.map f = .error e) :
    first = .error e := by
  cases first with
  | error e' =>
    cases failed
    rfl
  | ok a => cases failed

namespace Node

def redirected (change : Table Name Ino → Table Name Ino) : Node → Node
  | .dir entries parent mode => .dir (change entries) parent mode
  | node => node

end Node

namespace Fs

def isLink (fs : Fs) (i : Ino) : Bool :=
  match fs.node? i with
  | some (.link _) => true
  | _ => false

def isInner (fs : Fs) (i : Ino) : Bool := fs.isDir i || fs.isLink i

def named? (fs : Fs) (d : Ino) (n : Name) : Option Ino :=
  match fs.node? d with
  | some (.dir entries ..) => entries.get? n
  | _ => none

theorem isDirExact {fs : Fs} {d : Ino} (dir : fs.isDir d = true) :
    ∃ es up m, fs.node? d = some (.dir es up m) := by
  unfold isDir at dir
  cases h : fs.node? d with
  | none => rw [h] at dir; cases dir
  | some node =>
    rw [h] at dir
    cases node with
    | dir es up m => exact ⟨es, up, m, rfl⟩
    | file b m => cases dir
    | link t => cases dir
    | device k => cases dir

theorem isDirOf {fs : Fs} {d : Ino} {es up m} (node : fs.node? d = some (.dir es up m)) :
    fs.isDir d = true := by
  rw [isDir, node]
  rfl

theorem isLinkExact {fs : Fs} {i : Ino} (link : fs.isLink i = true) :
    ∃ t, fs.node? i = some (.link t) := by
  unfold isLink at link
  split at link
  · exact ⟨_, by assumption⟩
  · cases link

theorem isLinkOf {fs : Fs} {i : Ino} {t} (node : fs.node? i = some (.link t)) :
    fs.isLink i = true := by
  rw [isLink, node]

theorem fileNotInner {fs : Fs} {i : Ino} {b m} (file : fs.node? i = some (.file b m)) :
    fs.isInner i = false := by
  rw [isInner, isDir, isLink, file]
  rfl

theorem notInner {fs : Fs} {i : Ino} (outer : fs.isInner i = false) :
    fs.isDir i = false ∧ fs.isLink i = false := by
  rw [isInner, Bool.or_eq_false_iff] at outer
  exact outer

theorem entryNode {fs : Fs} {d i : Ino} {n : Name} (entry : fs.named? d n = some i) :
    ∃ es up m, fs.node? d = some (.dir es up m) ∧ es.get? n = some i := by
  unfold named? at entry
  split at entry
  · exact ⟨_, _, _, by assumption, entry⟩
  · cases entry

theorem entryOf {fs : Fs} {d : Ino} {es up m} (node : fs.node? d = some (.dir es up m)) (n : Name) :
    fs.named? d n = es.get? n := by
  rw [named?, node]

theorem nodeBound {fs : Fs} {i : Ino} {node : Node} (some' : fs.node? i = some node) :
    i < fs.nodes.size := by
  unfold node? at some'
  exact (Array.getElem?_eq_some_iff.mp some').1

theorem nodeUpdateDir (fs : Fs) (d j : Ino) (change : Table Name Ino → Table Name Ino) :
    (fs.updateDir d change).node? j =
      if j = d then (fs.node? d).map (Node.redirected change) else fs.node? j := by
  unfold updateDir
  split
  · rename_i es up m node
    rw [nodeReplace, node]
    by_cases same : j = d
    · subst same
      rw [if_pos ⟨rfl, nodeBound node⟩, if_pos rfl]
      rfl
    · rw [if_neg (fun h => same h.1.symm), if_neg same]
  · rename_i other
    split
    · rename_i same
      subst same
      cases h : fs.node? j with
      | none => rfl
      | some node =>
        cases node with
        | dir es up m => exact absurd h (other es up m)
        | file b m => rfl
        | link t => rfl
        | device k => rfl
    · rfl

theorem sizeUpdateDir (fs : Fs) (d : Ino) (change : Table Name Ino → Table Name Ino) :
    (fs.updateDir d change).nodes.size = fs.nodes.size := by
  unfold updateDir
  split
  · exact Array.size_setIfInBounds
  · rfl

theorem rootUpdateDir (fs : Fs) (d : Ino) (change : Table Name Ino → Table Name Ino) :
    (fs.updateDir d change).root = fs.root ∧ (fs.updateDir d change).cwd = fs.cwd := by
  unfold updateDir
  split <;> exact ⟨rfl, rfl⟩

theorem isDirUpdateDir (fs : Fs) (d j : Ino) (change : Table Name Ino → Table Name Ino) :
    (fs.updateDir d change).isDir j = fs.isDir j := by
  rw [isDir, nodeUpdateDir, isDir]
  split
  · rename_i same
    subst same
    cases fs.node? j with
    | none => rfl
    | some node => cases node <;> rfl
  · rfl

theorem isLinkUpdateDir (fs : Fs) (d j : Ino) (change : Table Name Ino → Table Name Ino) :
    (fs.updateDir d change).isLink j = fs.isLink j := by
  rw [isLink, nodeUpdateDir, isLink]
  by_cases same : j = d
  · subst same
    rw [if_pos rfl]
    cases fs.node? j with
    | none => rfl
    | some node => cases node <;> rfl
  · rw [if_neg same]

theorem fileUpdateDir {fs : Fs} {d j : Ino} {b m} (change : Table Name Ino → Table Name Ino)
    (file : fs.node? j = some (.file b m)) : (fs.updateDir d change).node? j = some (.file b m) := by
  rw [nodeUpdateDir]
  split
  · rename_i same
    subst same
    rw [file]
    rfl
  · exact file

theorem entryUpdateDir {fs : Fs} {d : Ino} (dir : fs.isDir d = true) (e : Ino) (n : Name)
    (change : Table Name Ino → Table Name Ino) :
    ∃ es : Table Name Ino, (∀ k, fs.named? d k = es.get? k) ∧
      (fs.updateDir d change).named? e n = if e = d then (change es).get? n else fs.named? e n := by
  obtain ⟨es, up, m, node⟩ := isDirExact dir
  refine ⟨es, fun k => entryOf node k, ?_⟩
  rw [named?, nodeUpdateDir]
  by_cases same : e = d
  · rw [if_pos same, if_pos same, node]
    rfl
  · rw [if_neg same, if_neg same]
    rfl

theorem entrySet {fs : Fs} {d : Ino} (dir : fs.isDir d = true) (n : Name) (i e : Ino) (k : Name) :
    (fs.updateDir d (·.set n i)).named? e k =
      if e = d ∧ k = n then some i else fs.named? e k := by
  obtain ⟨es, before, after⟩ := entryUpdateDir dir e k (·.set n i)
  rw [after]
  by_cases same : e = d
  · subst same
    simp only [Table.getSet, ← before, true_and, if_true]
  · rw [if_neg same, if_neg (fun h => same h.1)]

theorem entryErase {fs : Fs} {d : Ino} (dir : fs.isDir d = true) (n : Name) (e : Ino) (k : Name) :
    (fs.updateDir d (·.erase n)).named? e k = if e = d ∧ k = n then none else fs.named? e k := by
  obtain ⟨es, before, after⟩ := entryUpdateDir dir e k (·.erase n)
  rw [after]
  by_cases same : e = d
  · subst same
    simp only [Table.getErase, ← before, true_and, if_true]
  · rw [if_neg same, if_neg (fun h => same h.1)]

theorem entryMove {fs : Fs} {d : Ino} (dir : fs.isDir d = true) (old new : Name) (i e : Ino)
    (k : Name) :
    (fs.updateDir d (fun es => supplant new i (es.erase old))).named? e k =
      if e = d then (if k = new then some i else if k = old then none else fs.named? d k)
      else fs.named? e k := by
  obtain ⟨es, before, after⟩ := entryUpdateDir dir e k (fun es => supplant new i (es.erase old))
  rw [after]
  by_cases same : e = d
  · subst same
    simp only [supplant, Table.getSet, Table.getErase, ← before, if_true]
    by_cases first : k = new
    · simp [first]
    · simp [first]
  · rw [if_neg same, if_neg same]

def contents? (fs : Fs) (p : Path) : Option Bytes :=
  match fs.lookup p with
  | .ok i =>
      match fs.node? i with
      | some (.file bytes _) => some bytes
      | _ => none
  | .error _ => none

theorem contentsOf {fs : Fs} {p : Path} {i : Ino} {b m} (found : fs.lookup p = .ok i)
    (file : fs.node? i = some (.file b m)) : fs.contents? p = some b := by
  rw [contents?, found]
  dsimp only
  rw [file]

end Fs
end AtomicUpdate
