import AtomicUpdate.Proofs.Staged.Intact

/-! Changes that leave the base of a handle with the file that it has. They make temp files and lock files,
write into files, and remove temp files. -/
namespace AtomicUpdate
namespace Fs
open Path (Plain Proper)

variable {base : String} {i : Ino} {fs fs' fs'' : Fs}

structure Beside (base : String) (i : Ino) (fs fs' : Fs) : Prop where
  tidy : fs'.Tidy
  homes : ∀ d, fs'.Home (folderOf base) d ↔ fs.Home (folderOf base) d
  entry : ∀ {d}, fs.Home (folderOf base) d → fs.named? d (leafOf base) = some i →
    fs'.named? d (leafOf base) = some i
  since : ∀ {d n}, fs'.named? d n = some i → fs.named? d n = some i

namespace Beside

theorem refl (tidy : fs.Tidy) : Beside base i fs fs := ⟨tidy, fun _ => .rfl, fun _ entry => entry, id⟩

theorem trans (first : Beside base i fs fs') (second : Beside base i fs' fs'') : Beside base i fs fs'' where
  tidy := second.tidy
  homes := fun d => (second.homes d).trans (first.homes d)
  entry := fun home entry => second.entry ((first.homes _).mpr home) (first.entry home entry)
  since := fun entry => first.since (second.since entry)

theorem gains (gains : Gains fs fs') (tidy : fs.Tidy) (old : i < fs.nodes.size) :
    Beside base i fs fs' where
  tidy := gains.tidy tidy
  homes := fun d => ⟨gains.recedes.home, fun home => home.kept (gains.keeps fun _ => False)⟩
  entry := fun _ entry => gains.entry entry
  since := by
    intro d n entry
    cases gains with
    | none => exact entry
    | born dir free =>
      rw [bornEntry dir] at entry
      split at entry
      · cases entry
        exact absurd old (Nat.lt_irrefl _)
      · exact entry

theorem poured {j : Ino} (poured : Poured j fs fs') (tidy : fs.Tidy) : Beside base i fs fs' where
  tidy := poured.tidy tidy
  homes := by
    intro d
    have keeps : Keeps (fun _ => False) fs fs' := poured.alike.keeps
    exact ⟨(Recedes.ofAlike poured.alike).home, fun home => home.kept keeps⟩
  entry := fun {d} _ entry => (poured.alike.entry d _).trans entry
  since := fun {d n} entry => (poured.alike.entry d n).symm.trans entry

theorem removed {s : Suffix} {d j : Ino} {c : Bytes} {m : Nat} (intact : Intact base s d j c m fs)
    (tidy : fs.Tidy) : Beside base i fs (fs.updateDir d (·.erase (s.after (leafOf base)))) where
  tidy := tidy.erase d _
  homes := by
    intro e
    have keeps : Keeps (fun _ => False) fs (fs.updateDir d (·.erase (s.after (leafOf base)))) := by
      refine keepsErase tidy fun k entry => ?_
      cases intact.holds.entry.symm.trans entry
      exact notFirm intact.outer id
    exact ⟨(Recedes.erase fs d _).home, fun home => home.kept keeps⟩
  entry := by
    intro e _ entry
    rw [entryErase intact.home.dir, if_neg fun both => afterNotLeaf base s both.2.symm]
    exact entry
  since := by
    intro e n entry
    rw [entryErase intact.home.dir] at entry
    split at entry
    · cases entry
    · exact entry

end Beside
end Fs
end AtomicUpdate
