import AtomicUpdate.Proofs.Fs.Keeps
import AtomicUpdate.Proofs.Path.Split
import AtomicUpdate.Proofs.Table

/-! The changes that calls make, and what each of them keeps: an entry is made, erased or moved within
a directory, or the bytes of a file are replaced. -/
namespace AtomicUpdate
namespace Fs

variable {spared : Ino → Prop} {fs fs' : Fs}

structure Tidy (fs : Fs) : Prop where
  keyed : ∀ {d es up m}, fs.node? d = some (.dir es up m) → es.Keyed
  bound : ∀ {d es up m e}, fs.node? d = some (.dir es up m) → e ∈ es.entries → e.2 < fs.nodes.size

theorem Tidy.entryBound (tidy : fs.Tidy) {d i : Ino} {n : Name} (entry : fs.named? d n = some i) :
    i < fs.nodes.size := by
  obtain ⟨es, up, m, node, found⟩ := entryNode entry
  exact tidy.bound node (Table.memOfGet found)

namespace Lists

theorem erase {es : Table Name Ino} {n : Name} {c : Ino} (listed : Lists es c) (keyed : es.Keyed)
    (other : es.get? n ≠ some c) : Lists (es.erase n) c := by
  obtain ⟨e, mem, rfl⟩ := listed
  refine ⟨e, Table.memErase.mpr ⟨mem, ?_⟩, rfl⟩
  intro same
  have entry := Table.getOfMem keyed mem
  rw [same] at entry
  exact other entry

theorem set {es : Table Name Ino} {n : Name} {c : Ino} (listed : Lists es c) (absent : es.get? n = none)
    (i : Ino) : Lists (es.set n i) c := by
  obtain ⟨e, mem, rfl⟩ := listed
  exact ⟨e, by rw [Table.setAbsent absent]; exact List.mem_append_left _ mem, rfl⟩

end Lists

namespace Covers

theorem trans {es es' es'' : Table Name Ino} (first : fs.Covers spared es es')
    (second : fs.Covers spared es' es'') : fs.Covers spared es es'' :=
  ⟨fun entry firm => second.entry (first.entry entry firm) firm,
    fun dir listed => second.listed dir (first.listed dir listed)⟩

theorem erase {es : Table Name Ino} {n : Name} (keyed : es.Keyed)
    (loose : ∀ i, es.get? n = some i → ¬ fs.Firm spared i) : fs.Covers spared es (es.erase n) := by
  refine ⟨?_, fun dir listed => listed.erase keyed ?_⟩
  · intro k i entry firm
    rw [Table.getErase, if_neg, entry]
    intro same
    exact loose i (same ▸ entry) firm
  · intro entry
    exact loose _ entry (Or.inl (by rw [isInner, dir, Bool.true_or]))

theorem set {es : Table Name Ino} {n : Name} (absent : es.get? n = none) (i : Ino) :
    fs.Covers spared es (es.set n i) := by
  refine ⟨?_, ?_⟩
  · intro k j entry _
    rw [Table.getSet, if_neg, entry]
    intro same
    rw [same, absent] at entry
    cases entry
  · intro c _ listed
    exact listed.set absent i

theorem supplant {es : Table Name Ino} {old new : Name} (keyed : es.Keyed)
    (looseOld : ∀ i, es.get? old = some i → ¬ fs.Firm spared i)
    (looseNew : ∀ i, es.get? new = some i → ¬ fs.Firm spared i) (i : Ino) :
    fs.Covers spared es (Fs.supplant new i (es.erase old)) := by
  have first : fs.Covers spared es (es.erase old) := erase keyed looseOld
  have second : fs.Covers spared (es.erase old) ((es.erase old).erase new) := by
    refine erase (Table.keyedErase keyed old) ?_
    intro j entry
    rw [Table.getErase] at entry
    split at entry
    · cases entry
    · exact looseNew j entry
  exact (first.trans second).trans (set (Table.getErased _ new) i)

theorem ofErase (es : Table Name Ino) (n : Name) : fs.Covers spared (es.erase n) es := by
  refine ⟨?_, ?_⟩
  · intro k i entry _
    rw [Table.getErase] at entry
    split at entry
    · cases entry
    · exact entry
  · rintro c _ ⟨e, mem, rfl⟩
    exact ⟨e, (Table.memErase.mp mem).1, rfl⟩

theorem ofSet {es : Table Name Ino} {n : Name} {i : Ino} (absent : es.get? n = none)
    (loose : ¬ fs.Firm spared i) : fs.Covers spared (es.set n i) es := by
  refine ⟨?_, ?_⟩
  · intro k j entry firm
    rw [Table.getSet] at entry
    split at entry
    · cases entry
      exact absurd firm loose
    · exact entry
  · rintro c dir ⟨e, mem, rfl⟩
    rw [Table.setAbsent absent] at mem
    rcases List.mem_append.mp mem with old | new
    · exact ⟨e, old, rfl⟩
    · rw [List.mem_singleton.mp new] at dir
      exact absurd (Or.inl (by rw [isInner, dir, Bool.true_or])) loose

theorem ofSupplant {es : Table Name Ino} {old new : Name} {i : Ino} (loose : ¬ fs.Firm spared i) :
    fs.Covers spared (Fs.supplant new i (es.erase old)) es :=
  ((ofSet (Table.getErased _ new) loose).trans (ofErase _ new)).trans (ofErase _ old)

end Covers

theorem replaceSame {i : Ino} {node : Node} (is : fs.node? i = some node) : fs.replace i node = fs := by
  have same : fs.nodes.setIfInBounds i node = fs.nodes := by
    apply Array.ext_getElem?
    intro j
    rw [Array.getElem?_setIfInBounds]
    split
    · rename_i at'
      subst at'
      rw [if_pos (nodeBound is)]
      exact is.symm
    · rfl
  rw [replace, same]

theorem updateDirSame (fs : Fs) (d : Ino) : fs.updateDir d (fun es => es) = fs := by
  unfold updateDir
  split
  · rename_i es up m node
    exact replaceSame node
  · rfl

theorem innerUpdateDir (fs : Fs) (d j : Ino) (change : Table Name Ino → Table Name Ino) :
    (fs.updateDir d change).isInner j = fs.isInner j := by
  rw [isInner, isInner, isDirUpdateDir, isLinkUpdateDir]

theorem Covers.transfer {es es' : Table Name Ino} (covers : fs.Covers spared es es')
    (inner : ∀ i, fs'.isInner i = fs.isInner i) (dir : ∀ i, fs'.isDir i = fs.isDir i) :
    fs'.Covers spared es es' :=
  ⟨fun entry firm => covers.entry entry (firm.imp (fun h => (inner _).symm.trans h) id),
    fun isDir listed => covers.listed ((dir _).symm.trans isDir) listed⟩

theorem keepsUpdateDir {d : Ino} {f g : Table Name Ino → Table Name Ino}
    (covers : ∀ {es up m}, fs.node? d = some (.dir es up m) → fs.Covers spared (f es) (g es)) :
    Keeps spared (fs.updateDir d f) (fs.updateDir d g) where
  root := (rootUpdateDir fs d g).1.trans (rootUpdateDir fs d f).1.symm
  cwd := (rootUpdateDir fs d g).2.trans (rootUpdateDir fs d f).2.symm
  dirs := by
    intro e es up m node
    rw [nodeUpdateDir] at node ⊢
    by_cases same : e = d
    · subst same
      rw [if_pos rfl] at node ⊢
      obtain ⟨before, was, now⟩ := Option.map_eq_some_iff.mp node
      cases before with
      | dir entries up' m' =>
        cases now
        rw [was]
        exact ⟨g entries, rfl, (covers was).transfer (innerUpdateDir fs e · f) (isDirUpdateDir fs e · f)⟩
      | file b m' => cases now
      | link t => cases now
      | device k => cases now
    · rw [if_neg same] at node ⊢
      exact ⟨es, node, Covers.refl spared _ es⟩
  links := by
    intro i t node
    rw [nodeUpdateDir] at node ⊢
    by_cases same : i = d
    · subst same
      rw [if_pos rfl] at node ⊢
      obtain ⟨before, was, now⟩ := Option.map_eq_some_iff.mp node
      rw [was]
      cases before <;> cases now
      rfl
    · rw [if_neg same] at node ⊢
      exact node
  others := by
    intro i _ outer
    rw [innerUpdateDir] at outer ⊢
    exact outer

theorem keepsErase (tidy : fs.Tidy) {d : Ino} {n : Name}
    (loose : ∀ i, fs.named? d n = some i → ¬ fs.Firm spared i) :
    Keeps spared fs (fs.updateDir d (·.erase n)) := by
  have keeps : Keeps spared (fs.updateDir d (fun es => es)) (fs.updateDir d (·.erase n)) := by
    refine keepsUpdateDir fun node => Covers.erase (tidy.keyed node) ?_
    intro i entry
    exact loose i ((entryOf node n).trans entry)
  rwa [updateDirSame] at keeps

theorem keepsSet {d : Ino} {n : Name} (free : fs.named? d n = none) (i : Ino) :
    Keeps spared fs (fs.updateDir d (·.set n i)) := by
  have keeps : Keeps spared (fs.updateDir d (fun es => es)) (fs.updateDir d (·.set n i)) :=
    keepsUpdateDir fun node => Covers.set ((entryOf node n).symm.trans free) i
  rwa [updateDirSame] at keeps

theorem keepsOfErase (d : Ino) (n : Name) : Keeps spared (fs.updateDir d (·.erase n)) fs := by
  have keeps : Keeps spared (fs.updateDir d (·.erase n)) (fs.updateDir d (fun es => es)) :=
    keepsUpdateDir fun _ => Covers.ofErase _ n
  rwa [updateDirSame] at keeps

theorem keepsMove (tidy : fs.Tidy) {d i : Ino} {old new : Name}
    (looseOld : ∀ j, fs.named? d old = some j → ¬ fs.Firm spared j)
    (looseNew : ∀ j, fs.named? d new = some j → ¬ fs.Firm spared j) :
    Keeps spared fs (fs.updateDir d (fun es => supplant new i (es.erase old))) := by
  have keeps : Keeps spared (fs.updateDir d (fun es => es))
      (fs.updateDir d (fun es => supplant new i (es.erase old))) := by
    refine keepsUpdateDir fun node => Covers.supplant (tidy.keyed node) ?_ ?_ i
    · intro j entry
      exact looseOld j ((entryOf node old).trans entry)
    · intro j entry
      exact looseNew j ((entryOf node new).trans entry)
  rwa [updateDirSame] at keeps

theorem keepsOfMove {d i : Ino} {old new : Name} (loose : ¬ fs.Firm spared i) :
    Keeps spared (fs.updateDir d (fun es => supplant new i (es.erase old))) fs := by
  have keeps : Keeps spared (fs.updateDir d (fun es => supplant new i (es.erase old)))
      (fs.updateDir d (fun es => es)) := keepsUpdateDir fun _ => Covers.ofSupplant loose
  rwa [updateDirSame] at keeps

structure Alike (fs fs' : Fs) : Prop where
  root : fs'.root = fs.root
  cwd : fs'.cwd = fs.cwd
  same : ∀ i, fs'.node? i = fs.node? i ∨ (fs.isInner i = false ∧ fs'.isInner i = false)

namespace Alike

theorem symm (alike : Alike fs fs') : Alike fs' fs :=
  ⟨alike.root.symm, alike.cwd.symm, fun i => (alike.same i).imp Eq.symm And.symm⟩

theorem inner (alike : Alike fs fs') (i : Ino) : fs'.isInner i = fs.isInner i := by
  rcases alike.same i with same | ⟨before, after⟩
  · rw [isInner, isInner, isDir, isDir, isLink, isLink, same]
  · rw [before, after]

theorem node (alike : Alike fs fs') {i : Ino} {node : Node} (is : fs.node? i = some node)
    (inner : fs.isInner i = true) : fs'.node? i = some node := by
  rcases alike.same i with same | ⟨before, _⟩
  · exact same.trans is
  · rw [inner] at before
    cases before

theorem keeps (alike : Alike fs fs') : Keeps spared fs fs' where
  root := alike.root
  cwd := alike.cwd
  dirs := by
    intro d es up m is
    have inner : fs.isInner d = true := by rw [isInner, isDirOf is, Bool.true_or]
    exact ⟨es, alike.node is inner, Covers.refl spared fs es⟩
  links := by
    intro i t is
    exact alike.node is (by rw [isInner, isLinkOf is, Bool.or_true])
  others := fun _ outer => (alike.inner _).trans outer

theorem entry (alike : Alike fs fs') (d : Ino) (n : Name) : fs'.named? d n = fs.named? d n := by
  rcases alike.same d with same | ⟨before, after⟩
  · rw [named?, named?, same]
  · have none : ∀ {fs : Fs}, fs.isInner d = false → fs.named? d n = none := by
      intro fs outer
      cases h : fs.named? d n with
      | none => rfl
      | some i =>
        obtain ⟨es, up, m, node, _⟩ := entryNode h
        rw [isInner, isDirOf node] at outer
        cases outer
    rw [none before, none after]

theorem tidy (alike : Alike fs fs') (more : fs.nodes.size ≤ fs'.nodes.size) (tidy : fs.Tidy) :
    fs'.Tidy := by
  have old : ∀ {d es up m}, fs'.node? d = some (.dir es up m) → fs.node? d = some (.dir es up m) := by
    intro d es up m is
    exact alike.symm.node is (by rw [isInner, isDirOf is, Bool.true_or])
  exact ⟨fun is => tidy.keyed (old is), fun is mem => Nat.lt_of_lt_of_le (tidy.bound (old is) mem) more⟩

end Alike

theorem alikeAdd (fs : Fs) (b : Bytes) (m : Nat) : Alike fs (fs.add (.file b m)).2 where
  root := rfl
  cwd := rfl
  same := by
    intro i
    by_cases new : i = fs.nodes.size
    · right
      have none : fs.node? i = none := by
        rw [new]
        exact Array.getElem?_eq_none (Nat.le_refl _)
      refine ⟨by rw [isInner, isDir, isLink, none]; rfl, ?_⟩
      exact fileNotInner (by rw [nodeAdd, if_pos new])
    · left
      rw [nodeAdd, if_neg new]

theorem alikeReplace {i : Ino} {b b' : Bytes} {m m' : Nat} (file : fs.node? i = some (.file b m)) :
    Alike fs (fs.replace i (.file b' m')) where
  root := rfl
  cwd := rfl
  same := by
    intro j
    rw [nodeReplace]
    by_cases same : i = j
    · subst same
      right
      exact ⟨fileNotInner file, fileNotInner (by rw [nodeReplace, if_pos ⟨rfl, nodeBound file⟩])⟩
    · left
      rw [if_neg (fun both => same both.1)]

theorem Tidy.updateDir (tidy : fs.Tidy) {d : Ino} {change : Table Name Ino → Table Name Ino}
    (keyed : ∀ {es up m}, fs.node? d = some (.dir es up m) → (change es).Keyed)
    (bound : ∀ {es up m}, fs.node? d = some (.dir es up m) →
      ∀ e ∈ (change es).entries, e.2 < fs.nodes.size) : (fs.updateDir d change).Tidy := by
  have cases' : ∀ {e es up m}, (fs.updateDir d change).node? e = some (.dir es up m) →
      es.Keyed ∧ ∀ x ∈ es.entries, x.2 < fs.nodes.size := by
    intro e es up m node
    rw [nodeUpdateDir] at node
    by_cases same : e = d
    · subst same
      rw [if_pos rfl] at node
      obtain ⟨before, was, now⟩ := Option.map_eq_some_iff.mp node
      cases before with
      | dir entries up' m' =>
        cases now
        exact ⟨keyed was, bound was⟩
      | file b m' => cases now
      | link t => cases now
      | device k => cases now
    · rw [if_neg same] at node
      exact ⟨tidy.keyed node, fun x mem => tidy.bound node mem⟩
  exact ⟨fun node => (cases' node).1,
    fun node mem => by rw [sizeUpdateDir]; exact (cases' node).2 _ mem⟩

theorem Tidy.erase (tidy : fs.Tidy) (d : Ino) (n : Name) : (fs.updateDir d (·.erase n)).Tidy :=
  tidy.updateDir (fun node => Table.keyedErase (tidy.keyed node) n)
    (fun node _ mem => tidy.bound node (Table.memErase.mp mem).1)

theorem Tidy.set (tidy : fs.Tidy) {d i : Ino} {n : Name} (free : fs.named? d n = none)
    (bound : i < fs.nodes.size) : (fs.updateDir d (·.set n i)).Tidy := by
  refine tidy.updateDir (fun node => ?_) (fun node e mem => ?_)
  · exact Table.keyedSetAbsent (tidy.keyed node) ((entryOf node n).symm.trans free) i
  · rw [Table.setAbsent ((entryOf node n).symm.trans free)] at mem
    rcases List.mem_append.mp mem with old | new
    · exact tidy.bound node old
    · rw [List.mem_singleton.mp new]
      exact bound

theorem Tidy.move (tidy : fs.Tidy) (d : Ino) {i : Ino} (old new : Name) (bound : i < fs.nodes.size) :
    (fs.updateDir d (fun es => supplant new i (es.erase old))).Tidy := by
  refine tidy.updateDir (fun node => ?_) (fun node e mem => ?_)
  · exact Table.keyedSetAbsent (Table.keyedErase (Table.keyedErase (tidy.keyed node) old) new)
      (Table.getErased _ new) i
  · rw [supplant, Table.setAbsent (Table.getErased _ new)] at mem
    rcases List.mem_append.mp mem with before | last
    · exact tidy.bound node (Table.memErase.mp (Table.memErase.mp before).1).1
    · rw [List.mem_singleton.mp last]
      exact bound

end Fs

open Path (Plain)

def Node.WellKept (bound : Nat) : Node → Prop
  | .dir es _ _ => (es.entries.map (·.1)).Nodup ∧ ∀ e ∈ es.entries, e.2 < bound ∧ Plain e.1
  | _ => True

instance (bound : Nat) : (node : Node) → Decidable (node.WellKept bound)
  | .dir es _ _ => inferInstanceAs (Decidable ((es.entries.map (·.1)).Nodup ∧
      ∀ e ∈ es.entries, e.2 < bound ∧ Plain e.1))
  | .file .. => .isTrue trivial
  | .link _ => .isTrue trivial
  | .device _ => .isTrue trivial

theorem Fs.tidyOf {fs : Fs} (kept : ∀ node ∈ fs.nodes.toList, node.WellKept fs.nodes.size) :
    fs.Tidy ∧ ∀ {e n i}, fs.named? e n = some i → Plain n := by
  have each : ∀ {d es up m}, fs.node? d = some (.dir es up m) →
      es.Keyed ∧ ∀ e ∈ es.entries, e.2 < fs.nodes.size ∧ Plain e.1 := by
    intro d es up m node
    exact kept _ (Array.mem_toList_iff.mpr (Array.mem_of_getElem? node))
  refine ⟨⟨fun node => (each node).1, fun node mem => ((each node).2 _ mem).1⟩, ?_⟩
  intro e n i entry
  obtain ⟨es, up, m, node, found⟩ := Fs.entryNode entry
  exact ((each node).2 _ (Table.memOfGet found)).2

end AtomicUpdate
