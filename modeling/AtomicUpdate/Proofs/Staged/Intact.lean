import AtomicUpdate.Proofs.Handle.Begin
import AtomicUpdate.Proofs.Snapshot.Scene

/-! The temp file of an open cycle as the calls of its handle find it: where it is, what is in it, and that
it can be read and removed. New files elsewhere and writes into other files do not touch it, and once it is
removed no such change brings it back. -/
namespace AtomicUpdate
namespace Fs
open Path (Plain Proper)

variable {fs fs' fs'' : Fs}

structure Reworks (j : Ino) (change : Bytes → Bytes) (fs fs' : Fs) : Prop where
  poured : Poured j fs fs'
  file : ∀ {b m}, fs.node? j = some (.file b m) → ∃ m', fs'.node? j = some (.file (change b) m') ∧
    ∀ x y a, (Node.file x m').permits a = (Node.file y m).permits a

namespace Reworks
variable {j : Ino}

theorem refl (j : Ino) (fs : Fs) : Reworks j id fs fs := ⟨.refl j fs, fun file => ⟨_, file, fun _ _ _ => rfl⟩⟩

theorem trans {f g : Bytes → Bytes} (first : Reworks j f fs fs') (second : Reworks j g fs' fs'') :
    Reworks j (g ∘ f) fs fs'' where
  poured := first.poured.trans second.poured
  file := by
    intro b m file
    obtain ⟨m', file', rights⟩ := first.file file
    obtain ⟨m'', file'', rights'⟩ := second.file file'
    exact ⟨m'', file'', fun x y a => (rights' x x a).trans (rights x y a)⟩

theorem congr {f g : Bytes → Bytes} (reworks : Reworks j f fs fs') (same : ∀ b, f b = g b) :
    Reworks j g fs fs' := funext same ▸ reworks

theorem ofFile {f : Bytes → Bytes} {b : Bytes} {m m' : Nat} (only : OnlyAt j fs fs')
    (before : fs.node? j = some (.file b m)) (after : fs'.node? j = some (.file (f b) m'))
    (rights : ∀ x y a, (Node.file x m').permits a = (Node.file y m).permits a) : Reworks j f fs fs' where
  poured := ⟨only, only.alike before after⟩
  file := by
    intro b' m₁ file
    rw [before] at file
    cases file
    exact ⟨m', after, rights⟩

end Reworks

structure Intact (base : String) (s : Suffix) (d i : Ino) (c : Bytes) (m : Nat) (fs : Fs) : Prop where
  home : fs.Home (folderOf base) d
  proper : Proper (folderOf base) (s.after (leafOf base))
  write : fs.permits d .write = true
  holds : fs.Holds d (s.after (leafOf base)) i c m
  readable : (Node.file c m).permits .read = true

def Lacks (base : String) (s : Suffix) (fs : Fs) : Prop :=
  ∀ d, fs.Home (folderOf base) d → fs.named? d (s.after (leafOf base)) = none

namespace Intact
variable {base : String} {s : Suffix} {d i : Ino} {c : Bytes} {m : Nat}

theorem outer (intact : Intact base s d i c m fs) : fs.isInner i = false := intact.holds.outer

theorem lookup (intact : Intact base s d i c m fs) :
    fs.lookup (Path.ofString (Template.fill (Template.stemOf base) s)) = .ok i := by
  rw [tempPath]
  exact intact.home.lookup intact.proper intact.holds.entry (notInner intact.outer).2

theorem lookupEntry (intact : Intact base s d i c m fs) :
    fs.lookupEntry (Path.ofString (Template.fill (Template.stemOf base) s)) = .ok i := by
  rw [tempPath]
  exact intact.home.lookupEntry intact.proper intact.holds.entry

theorem openRead (intact : Intact base s d i c m fs) :
    fs.openRead (Path.ofString (Template.fill (Template.stemOf base) s)) = .ok i := by
  rw [tempPath]
  exact intact.home.openFile intact.proper intact.holds intact.readable

theorem present (intact : Intact base s d i c m fs) :
    Files.isPresent fs (Path.ofString (Template.fill (Template.stemOf base) s)) = .ok true := by
  rw [tempPath]
  exact intact.home.present intact.proper intact.holds.entry

theorem remove (intact : Intact base s d i c m fs) :
    Files.remove fs (Path.ofString (Template.fill (Template.stemOf base) s)) =
      .ok (fs.updateDir d (·.erase (s.after (leafOf base)))) := by
  rw [tempPath, intact.home.remove intact.proper intact.holds.entry (notInner intact.outer).1,
    if_pos intact.write]

theorem born (home : fs.Home (folderOf base) d) (proper : Proper (folderOf base) (s.after (leafOf base)))
    (free : fs.named? d (s.after (leafOf base)) = none) (write : fs.permits d .write = true) :
    Intact base s d fs.nodes.size [] 0o600 (fs.born d (s.after (leafOf base)) 0o600) := by
  have keeps : Keeps (fun _ => False) fs (fs.born d (s.after (leafOf base)) 0o600) := keepsBorn _ free _
  exact {
    home := home.kept keeps
    proper := proper
    write := (keeps.permits home.dir .write).trans write
    holds := bornHolds home.dir _ _
    readable := by decide }

theorem gains (intact : Intact base s d i c m fs) (gains : Gains fs fs') :
    Intact base s d i c m fs' where
  home := intact.home.kept (gains.keeps fun _ => False)
  proper := intact.proper
  write := ((gains.keeps fun _ => False).permits intact.home.dir .write).trans intact.write
  holds := ⟨gains.entry intact.holds.entry, gains.file intact.holds.file⟩
  readable := intact.readable

theorem alike (intact : Intact base s d i c m fs) (alike : Alike fs fs') {c' : Bytes} {m' : Nat}
    (file : fs'.node? i = some (.file c' m'))
    (rights : (Node.file c' m').permits .read = (Node.file c m).permits .read) :
    Intact base s d i c' m' fs' := by
  have keeps : Keeps (fun _ => False) fs fs' := alike.keeps
  exact {
    home := intact.home.kept keeps
    proper := intact.proper
    write := (keeps.permits intact.home.dir .write).trans intact.write
    holds := ⟨(alike.entry d _).trans intact.holds.entry, file⟩
    readable := rights.trans intact.readable }

theorem beside (intact : Intact base s d i c m fs) {j : Ino} (poured : Poured j fs fs') (apart : i ≠ j) :
    Intact base s d i c m fs' :=
  intact.alike poured.alike ((poured.only.others i apart).trans intact.holds.file) rfl

theorem reworked (intact : Intact base s d i c m fs) {change : Bytes → Bytes}
    (reworks : Reworks i change fs fs') : ∃ m', Intact base s d i (change c) m' fs' := by
  obtain ⟨m', file, rights⟩ := reworks.file intact.holds.file
  exact ⟨m', intact.alike reworks.poured.alike file (rights _ _ _)⟩

theorem erased (intact : Intact base s d i c m fs) :
    Lacks base s (fs.updateDir d (·.erase (s.after (leafOf base)))) := by
  intro e home
  have same := ((Recedes.erase fs d _).home home).unique intact.home
  rw [entryErase intact.home.dir, if_pos ⟨same, rfl⟩]

end Intact

namespace Lacks
variable {base : String} {s : Suffix}

theorem lookup (lacks : Lacks base s fs) (j : Ino) :
    fs.lookup (Path.ofString (Template.fill (Template.stemOf base) s)) ≠ .ok j := by
  intro led
  rw [tempPath] at led
  obtain ⟨d, i, home, entry, _⟩ := lookupHome (folderEnds base) (afterPlain base s) led
  rw [lacks d home] at entry
  cases entry

theorem lookupEntry (lacks : Lacks base s fs) (j : Ino) :
    fs.lookupEntry (Path.ofString (Template.fill (Template.stemOf base) s)) ≠ .ok j := by
  intro led
  rw [tempPath] at led
  obtain ⟨d, home, entry, _⟩ := entryHome (folderEnds base) (afterPlain base s) led
  rw [lacks d home] at entry
  cases entry

theorem alike (lacks : Lacks base s fs) (alike : Alike fs fs') : Lacks base s fs' :=
  fun d home => (alike.entry d _).trans (lacks d ((Recedes.ofAlike alike).home home))

theorem erase (lacks : Lacks base s fs) {d : Ino} (dir : fs.isDir d = true) (n : Name) :
    Lacks base s (fs.updateDir d (·.erase n)) := by
  intro e home
  rw [entryErase dir]
  split
  · rfl
  · exact lacks e ((Recedes.erase fs d n).home home)

end Lacks
end Fs
end AtomicUpdate
