import AtomicUpdate.Proofs.Fs.Calls
import AtomicUpdate.Proofs.Fs.Upright

/-! Changes after which no directory and no link is anywhere that it was not before. What leads to the
folder of a path afterwards has led there all along, so what is known of the folder is not lost. -/
namespace AtomicUpdate
namespace Fs
open Path (Plain Proper)

variable {fs fs' fs'' : Fs}

structure Recedes (fs fs' : Fs) : Prop where
  back : Keeps (fun _ => False) fs' fs
  dirs : ∀ {d}, fs.isDir d = true → fs'.isDir d = true

theorem notFirm {spared : Ino → Prop} {i : Ino} (outer : fs.isInner i = false) (loose : ¬ spared i) :
    ¬ fs.Firm spared i := by
  rintro (inner | spare)
  · rw [outer] at inner
    cases inner
  · exact loose spare

theorem keepsOfBorn {spared : Ino → Prop} {d : Ino} {n : Name} (loose : ¬ spared fs.nodes.size)
    (free : fs.named? d n = none) (mode : Nat) : Keeps spared (fs.born d n mode) fs := by
  have alike := alikeAdd fs [] mode
  have file : (fs.add (.file [] mode)).2.node? fs.nodes.size = some (.file [] mode) := by
    rw [nodeAdd, if_pos rfl]
  have back : Keeps spared ((fs.add (.file [] mode)).2.updateDir d (·.set n fs.nodes.size))
      ((fs.add (.file [] mode)).2.updateDir d (fun es => es)) :=
    keepsUpdateDir fun node =>
      Covers.ofSet ((entryOf node n).symm.trans ((alike.entry d n).trans free))
        (notFirm (fileNotInner file) loose)
  rw [updateDirSame] at back
  exact back.trans alike.symm.keeps

namespace Recedes

theorem refl (fs : Fs) : Recedes fs fs := ⟨Keeps.refl _ fs, id⟩

theorem trans (first : Recedes fs fs') (second : Recedes fs' fs'') : Recedes fs fs'' :=
  ⟨second.back.trans first.back, fun dir => second.dirs (first.dirs dir)⟩

theorem ofAlike (alike : Alike fs fs') : Recedes fs fs' := by
  have keeps : Keeps (fun _ => False) fs fs' := alike.keeps
  exact ⟨alike.symm.keeps, keeps.dir⟩

theorem erase (fs : Fs) (d : Ino) (n : Name) : Recedes fs (fs.updateDir d (·.erase n)) :=
  ⟨keepsOfErase d n, fun dir => (isDirUpdateDir fs d _ _).trans dir⟩

theorem move {d i : Ino} {old new : Name} (outer : fs.isInner i = false) :
    Recedes fs (fs.updateDir d (fun es => supplant new i (es.erase old))) :=
  ⟨keepsOfMove (notFirm outer id), fun dir => (isDirUpdateDir fs d _ _).trans dir⟩

theorem born {d : Ino} {n : Name} (free : fs.named? d n = none) (mode : Nat) :
    Recedes fs (fs.born d n mode) :=
  ⟨keepsOfBorn id free mode, fun dir => (keepsBorn (fun _ => False) free mode).dir dir⟩

theorem upright (recedes : Recedes fs fs') (upright : fs.Upright) : fs'.Upright where
  top := by
    intro es up m node
    obtain ⟨es', node', _⟩ := recedes.back.dirs node
    rw [← recedes.back.root] at node' ⊢
    exact upright.top node'
  below := by
    intro d n c es up m entry node
    obtain ⟨es', node', _⟩ := recedes.back.dirs node
    have firm : fs'.Firm (fun _ => False) c := Or.inl (by rw [isInner, isDirOf node, Bool.true_or])
    exact upright.below (recedes.back.entry entry firm) node'
  above := by
    intro d es up m node
    obtain ⟨es', node', _⟩ := recedes.back.dirs node
    exact recedes.dirs (upright.above node')
  plain := by
    intro d n c entry dir
    have firm : fs'.Firm (fun _ => False) c := Or.inl (by rw [isInner, dir, Bool.true_or])
    exact upright.plain (recedes.back.entry entry firm) (recedes.back.dir dir)

theorem home (recedes : Recedes fs fs') {pre : Path} {d : Ino} (home : fs'.Home pre d) :
    fs.Home pre d := home.kept recedes.back

end Recedes

theorem lookupHome {pre n : Path} (ends : pre = [] ∨ ∃ a, pre = a ++ [Path.slash]) (plain : Plain n)
    {j : Ino} (ok : fs.lookup (pre ++ n) = .ok j) :
    ∃ d i, fs.Home pre d ∧ fs.named? d n = some i ∧ (fs.isLink i = false → i = j) := by
  obtain ⟨place, found, there, _⟩ := lookupExact ok
  obtain ⟨d, left, home, goes⟩ := homeOfLocate ends plain found
  obtain ⟨_, child, ⟨rfl, rfl⟩ | ⟨i, rfl, ⟨rfl, _⟩ | ⟨_, _, node, _⟩⟩⟩ :=
    (walked goes).single (Home.ordinary plain)
  · cases there
  · exact ⟨d, i, home, (childExact child).2.2.2.2, fun _ => Option.some.inj there⟩
  · refine ⟨d, i, home, (childExact child).2.2.2.2, fun notLink => ?_⟩
    rw [isLinkOf node] at notLink
    cases notLink

theorem entryHome {pre n : Path} (ends : pre = [] ∨ ∃ a, pre = a ++ [Path.slash]) (plain : Plain n)
    {i : Ino} (ok : fs.lookupEntry (pre ++ n) = .ok i) :
    ∃ d, fs.Home pre d ∧ fs.named? d n = some i ∧ n.length ≤ Limits.nameMax := by
  obtain ⟨place, found, there, _⟩ := lookupEntryExact ok
  obtain ⟨d, home, short, ⟨rfl, _⟩ | ⟨j, rfl, entry⟩⟩ := homeOfPlace ends plain rfl found
  · cases there
  · cases there
    exact ⟨d, home, entry, short⟩

theorem vacantHome {pre n : Path} (ends : pre = [] ∨ ∃ a, pre = a ++ [Path.slash]) (plain : Plain n)
    {d : Ino} {m : Name} {s : Bool} (found : fs.locate .creatingNew (pre ++ n) = .ok ⟨.vacant d m, s⟩) :
    fs.Home pre d ∧ m = n ∧ n.length ≤ Limits.nameMax := by
  obtain ⟨e, home, short, ⟨same, _⟩ | ⟨_, same, _⟩⟩ := homeOfPlace ends plain rfl found
  · cases same
    exact ⟨home, rfl, short⟩
  · cases same

theorem homeOfFolder {pre n k : Path} (ends : pre = [] ∨ ∃ a, pre = a ++ [Path.slash]) (plain : Plain n)
    {d : Ino} {found : Option Ino} (ok : fs.lookup (pre ++ n).folder = .ok d)
    (child : fs.child d k = .ok found) : fs.Home pre d := by
  obtain ⟨dir, search, here, _, _⟩ := childExact child
  refine ⟨ends, ?_, dir, here, search⟩
  obtain ⟨place, located, there, _⟩ := lookupExact ok
  have goes := (locateExact located).2
  rcases ends with rfl | ends
  · rw [List.nil_append, Path.folderBare plain] at goes
    have dotted : Path.names Path.dot = [] ++ List.replicate 1 Path.dot := by decide
    rw [dotted] at goes
    obtain ⟨p, goes', there'⟩ := walkUndotted goes there false
    exact ⟨false, p, goes', there'⟩
  · obtain ⟨k, names, absolute⟩ := Path.folderNames ends plain
    have start : fs.startOf fs.cwd (pre ++ n).folder = fs.startOf fs.cwd pre := by
      rw [startOf, startOf, absolute]
    rw [start] at goes
    rw [names]
    cases k with
    | zero =>
      rw [List.replicate_zero, List.append_nil]
      exact ⟨_, place, goes, there⟩
    | succ k =>
      obtain ⟨left, on⟩ := walkAppend goes there dir
      obtain ⟨es, up, m, node⟩ := isDirExact dir
      have idle : fs.Advanced false d (List.replicate (k + 1) Path.dot) (.arrived (.top d)) := by
        induction k + 1 with
        | zero => exact .here d
        | succ k ih => exact .stay (parentOf node search) ih
      have still : fs.Walked .always left d (List.replicate (k + 1) Path.dot) false ⟨.top d, false⟩ :=
        .arrived idle
      exact ⟨false, _, (on .always _ false (by simp)).trans still.ok, rfl⟩

end Fs
end AtomicUpdate
