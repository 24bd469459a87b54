import AtomicUpdate.Proofs.Commit
import AtomicUpdate.Proofs.Fs.Blind

/-! What a rename and a copy leave in the tree where the base may be a symbolic link. The rename puts the
temp file in the link's place and the copy writes to what the link leads to; whoever looks at the base finds
the same in both. -/
namespace AtomicUpdate

def Node.outline (node : Node) : Node := node.redirected fun _ => .empty

namespace Fs
open Path (Proper)

variable {fs fs' : Fs}

structure ButFor (d : Ino) (n : Name) (j : Ino) (fs fs' : Fs) : Prop where
  root : fs'.root = fs.root
  cwd : fs'.cwd = fs.cwd
  entries : ∀ e k, ¬ (e = d ∧ k = n) → fs'.named? e k = fs.named? e k
  nodes : ∀ k, k ≠ j → (fs'.node? k).map Node.outline = (fs.node? k).map Node.outline

namespace ButFor
variable {d j : Ino} {n : Name}

theorem symm (butFor : ButFor d n j fs fs') : ButFor d n j fs' fs :=
  ⟨butFor.root.symm, butFor.cwd.symm, fun e k elsewhere => (butFor.entries e k elsewhere).symm,
    fun k other => (butFor.nodes k other).symm⟩

theorem trans {fs'' : Fs} (first : ButFor d n j fs fs') (second : ButFor d n j fs' fs'') : ButFor d n j fs fs'' :=
  ⟨second.root.trans first.root, second.cwd.trans first.cwd,
    fun e k elsewhere => (second.entries e k elsewhere).trans (first.entries e k elsewhere),
    fun k other => (second.nodes k other).trans (first.nodes k other)⟩

end ButFor

structure Delivered (temp base : Path) (c : Bytes) (m : Nat) (fs : Fs) : Prop where
  gone : fs.lookupEntry temp = .error .enoent
  read : ∃ j, fs.lookup base = .ok j ∧ fs.node? j = some (.file c m)

theorem outlineUpdateDir (fs : Fs) (d : Ino) (change : Table Name Ino → Table Name Ino) (k : Ino) :
    ((fs.updateDir d change).node? k).map Node.outline = (fs.node? k).map Node.outline := by
  rw [nodeUpdateDir]
  split
  · rename_i same
    subst same
    cases fs.node? k with
    | none => rfl
    | some node => cases node <;> rfl
  · rfl

theorem outlineBorn (fs : Fs) (d : Ino) (n : Name) (mode : Nat) {k : Ino} (old : k ≠ fs.nodes.size) :
    ((fs.born d n mode).node? k).map Node.outline = (fs.node? k).map Node.outline := by
  rw [born, outlineUpdateDir, nodeAdd, if_neg old]

end Fs

namespace Commit
open Path (Proper)

structure Awaits (fs : Fs) (pre : Path) (d : Ino) (t b : Name) (i : Ino) (c : Bytes) (m : Nat) : Prop where
  tidy : fs.Tidy
  upright : fs.Upright
  root : fs.isDir fs.root = true
  home : fs.Home pre d
  temp : Proper pre t
  base : Proper pre b
  other : b ≠ t
  staged : fs.Holds d t i c m
  readable : (Node.file c m).permits .read = true
  read : fs.permits d .read = true
  write : fs.permits d .write = true
  committed : fs.named? d b = none ∨ ∃ j old mo, fs.lookup (pre ++ b) = .ok j ∧
    fs.node? j = some (.file old mo) ∧ j ≠ i

variable {fs : Fs} {pre : Path} {d : Ino} {t b : Name} {i : Ino} {c : Bytes} {m : Nat}

namespace Awaits

theorem loose (awaits : Awaits fs pre d t b i c m) :
    fs.Blind d b ∧ ∀ k, fs.named? d b = some k → fs.isDir k = false ∧ k ≠ i := by
  rcases awaits.committed with free | ⟨j, old, mo, led, file, other⟩
  · have none : ∀ {k}, fs.named? d b ≠ some k := fun found => by cases free.symm.trans found
    exact ⟨fun k found => absurd found none, fun k found => absurd found none⟩
  · have outer := Fs.notInner (Fs.fileNotInner file)
    have blind := Fs.blindOf awaits.home awaits.base led outer.1
    refine ⟨blind, fun k found => ⟨(blind k found).1, ?_⟩⟩
    rintro rfl
    have plain := (Fs.notInner awaits.staged.outer).2
    cases led.symm.trans (awaits.home.lookup awaits.base found plain)
    exact other rfl

theorem opensFile (awaits : Awaits fs pre d t b i c m) {j mo : Nat} {old : Bytes}
    (led : fs.lookup (pre ++ b) = .ok j) (file : fs.node? j = some (.file old mo)) (mode : Nat) :
    fs.openCreate [.write] mode (pre ++ b) = if fs.permits j .write then .ok (j, fs) else .error .eacces := by
  have some' : (pre ++ b).names ≠ [] := by
    rw [Path.namesThrough awaits.home.ends awaits.base.plain]
    exact List.append_ne_nil_of_right_ne_nil _ (List.cons_ne_nil b [])
  exact Fs.openCreateLed awaits.upright awaits.root led (Fs.notInner (Fs.fileNotInner file)).1 some' mode

theorem opens (awaits : Awaits fs pre d t b i c m)
    (may : ∀ j, fs.lookup (pre ++ b) = .ok j → fs.permits j .write = true) (mode : Nat) :
    ∃ j fs₁ old mo, fs.openCreate [.write] mode (pre ++ b) = .ok (j, fs₁) ∧ fs₁.Home pre d ∧ fs₁.Tidy ∧
      fs₁.Holds d t i c m ∧ fs₁.permits d .write = true ∧ fs₁.lookup (pre ++ b) = .ok j ∧
      fs₁.node? j = some (.file old mo) ∧ i ≠ j ∧ Fs.ButFor d b j fs fs₁ ∧ Fs.Recedes fs fs₁ := by
  rcases awaits.committed with free | ⟨j, old, mo, led, file, other⟩
  · have home := awaits.home
    have named := Fs.bornEntry home.dir b mode
    have evolves := Fs.evolvesBorn awaits.tidy free mode
    have home₁ := home.kept evolves.keeps
    have created : fs.openCreate [.write] mode (pre ++ b) = .ok (fs.nodes.size, fs.born d b mode) := by
      rw [Fs.openCreate, home.vacant awaits.base free]
      change fs.enter d b (.file [] mode) = _
      rw [Fs.enterFile, if_pos awaits.write]
    have file := Fs.bornFile fs home.dir b mode
    refine ⟨_, _, [], mode, created, home₁, evolves.tidy, ⟨?_, Fs.bornOther awaits.staged.file b mode⟩,
      (evolves.keeps.permits home.dir .write).trans awaits.write, ?_, file, ?_, ?_, .born free mode⟩
    · rw [named, if_neg fun both => awaits.other both.2.symm]
      exact awaits.staged.entry
    · exact home₁.lookup awaits.base (by rw [named, if_pos ⟨rfl, rfl⟩])
        (Fs.notInner (Fs.fileNotInner file)).2
    · exact Nat.ne_of_lt (Fs.nodeBound awaits.staged.file)
    · exact {
        root := evolves.keeps.root
        cwd := evolves.keeps.cwd
        entries := fun e k elsewhere => by rw [named, if_neg elsewhere]
        nodes := fun k old => Fs.outlineBorn fs d b mode old }
  · have opened := awaits.opensFile led file mode
    rw [if_pos (may j led)] at opened
    exact ⟨j, fs, old, mo, opened, awaits.home, awaits.tidy, awaits.staged, awaits.write, led, file, other.symm,
      ⟨rfl, rfl, fun _ _ _ => rfl, fun _ _ => rfl⟩, .refl fs⟩

theorem renames (awaits : Awaits fs pre d t b i c m) :
    ∃ fs', rename fs d t b false = .ok fs' ∧ fs'.Delivered (pre ++ t) (pre ++ b) c m ∧
      (∀ j, Fs.ButFor d b j (fs.updateDir d (·.erase t)) fs') ∧ Fs.Recedes fs fs' ∧ fs'.Tidy := by
  obtain ⟨blind, loose⟩ := awaits.loose
  have outer := awaits.staged.outer
  have home := awaits.home.moved awaits.tidy awaits.staged.entry outer blind
  have named := Fs.entryMove awaits.home.dir t b i
  have file := Fs.fileUpdateDir (d := d) (fun es => Fs.supplant b i (es.erase t)) awaits.staged.file
  have root := Fs.rootUpdateDir fs d (·.erase t)
  refine ⟨_, renamed awaits.home awaits.temp awaits.base awaits.write awaits.staged loose, ⟨?_, i, ?_, file⟩,
    fun j => ?_, .move outer, awaits.tidy.move d t b (Fs.nodeBound awaits.staged.file)⟩
  · exact home.lookupEntryNone awaits.temp (by rw [named, if_pos rfl, if_neg awaits.other.symm, if_pos rfl])
  · exact home.lookup awaits.base (by rw [named, if_pos rfl, if_pos rfl])
      (Fs.notInner (Fs.fileNotInner file)).2
  · refine ⟨(Fs.rootUpdateDir fs d _).1.trans root.1.symm, (Fs.rootUpdateDir fs d _).2.trans root.2.symm,
      fun e k elsewhere => ?_, fun k _ => ?_⟩
    · rw [named, Fs.entryErase awaits.home.dir]
      by_cases here : e = d
      · subst here
        rw [if_pos rfl, if_neg fun same => elsewhere ⟨rfl, same⟩]
        simp
      · rw [if_neg here, if_neg fun both => here both.1]
    · rw [Fs.outlineUpdateDir, Fs.outlineUpdateDir]

theorem copies (awaits : Awaits fs pre d t b i c m)
    (may : ∀ j, fs.lookup (pre ++ b) = .ok j → fs.permits j .write = true) (w : World) (here : w.fs = fs) :
    ∃ j fs' mode, copyOver (pre ++ t) (pre ++ b) w = (.ok (), w.withFs fs') ∧
      fs'.Delivered (pre ++ t) (pre ++ b) c mode ∧ fs'.lookup (pre ++ b) = .ok j ∧
      Fs.ButFor d b j (fs.updateDir d (·.erase t)) fs' ∧
      (∀ x y a, (Node.file x mode).permits a = (Node.file y m).permits a) ∧
      (Node.withdrawn m = m → mode = m) ∧ Fs.Recedes fs fs' ∧ fs'.Tidy := by
  have source := awaits.home.openFile awaits.temp awaits.staged awaits.readable
  obtain ⟨j, fs₁, old, mo, target, home₁, tidy₁, temp₁, write₁, led₁, file₁, apart, butFor, recedes⟩ :=
    awaits.opens may (m &&& (0o7777 ^^^ Fs.umask))
  obtain ⟨fs₂, mode, copied, only, poured, rights, same⟩ := copyOverOpened home₁ awaits.temp awaits.base source
    awaits.staged.file awaits.readable target temp₁ write₁ led₁ file₁ apart w here
  have alike := only.alike file₁ poured
  have tidy₂ := alike.tidy (Nat.le_of_eq only.size.symm) tidy₁
  have still : Fs.Keeps (fun k => k = j) fs₁ fs₂ := alike.keeps
  have home₂ := home₁.kept still
  have temp₂ : fs₂.named? d t = some i := (alike.entry d t).trans temp₁.entry
  have outer₂ : fs₂.isInner i = false := (alike.inner i).trans temp₁.outer
  -- the temp file is not what the base leads to, so it may go
  have keeps : Fs.Keeps (fun k => k = j) fs₂ (fs₂.updateDir d (·.erase t)) := by
    refine Fs.keepsErase tidy₂ fun k entry firm => ?_
    cases temp₂.symm.trans entry
    rcases firm with inner | rfl
    · cases outer₂.symm.trans inner
    · exact apart rfl
  have led := Fs.lookupKept keeps ((alike.lookup _).trans led₁) (Or.inr rfl)
  have named := Fs.entryErase home₂.dir t
  have root := Fs.rootUpdateDir fs d (·.erase t)
  have root₂ := Fs.rootUpdateDir fs₂ d (·.erase t)
  refine ⟨j, _, mode, copied, ⟨?_, j, led, Fs.fileUpdateDir _ poured⟩, led, {
    root := (root₂.1.trans only.root).trans (butFor.root.trans root.1.symm)
    cwd := (root₂.2.trans only.cwd).trans (butFor.cwd.trans root.2.symm)
    entries := fun e k elsewhere => ?_
    nodes := fun k other => ?_ }, rights, same,
    (recedes.trans (.ofAlike alike)).trans (.erase fs₂ d t), tidy₂.erase d t⟩
  · exact (home₂.kept keeps).lookupEntryNone awaits.temp (by rw [named, if_pos ⟨rfl, rfl⟩])
  · rw [named, alike.entry, butFor.entries e k elsewhere, Fs.entryErase awaits.home.dir]
  · rw [Fs.outlineUpdateDir, only.others k other, butFor.nodes k other, Fs.outlineUpdateDir]

theorem barred (awaits : Awaits fs pre d t b i c m) {j : Ino} (led : fs.lookup (pre ++ b) = .ok j)
    (sealed' : fs.permits j .write = false) (w : World) (here : w.fs = fs) :
    (copyOver (pre ++ t) (pre ++ b) w).1 = .error .eacces := by
  rcases awaits.committed with free | ⟨k, old, mo, led', file, _⟩
  · cases led.symm.trans (awaits.home.lookupNone awaits.base free)
  · cases led'.symm.trans led
    have source := awaits.home.openFile awaits.temp awaits.staged awaits.readable
    have refused := awaits.opensFile led file (m &&& (0o7777 ^^^ Fs.umask))
    rw [sealed', if_neg Bool.false_ne_true] at refused
    have unopened : Files.openBoth fs (pre ++ t) (pre ++ b) = .error .eacces := by
      rw [Files.openBothRegular source awaits.temp.noNul awaits.base.noNul awaits.staged.file, refused]
      rfl
    rw [copyOverUnopened (here.symm ▸ unopened)]

end Awaits
end Commit
end AtomicUpdate
