import AtomicUpdate.Proofs.Fs.Gain

/-! Changes in which the nodes that there are get no other names. Files may be made and written, and names
may go; but where a name goes on leading to something, it leads to what it led to. -/
namespace AtomicUpdate.Fs

variable {fs fs' fs'' : Fs}

structure Ages (fs fs' : Fs) : Prop where
  recedes : Recedes fs fs'
  tidy : fs'.Tidy
  more : fs.nodes.size ≤ fs'.nodes.size
  since : ∀ {d n i}, fs'.named? d n = some i → i < fs.nodes.size → fs.named? d n = some i
  still : ∀ {d n i j}, fs.named? d n = some i → fs'.named? d n = some j → j = i

namespace Ages

theorem refl (tidy : fs.Tidy) : Ages fs fs where
  recedes := .refl fs
  tidy := tidy
  more := Nat.le_refl _
  since := fun entry _ => entry
  still := fun first second => Option.some.inj (second.symm.trans first)

theorem gains (gains : Gains fs fs') (ages : Ages fs' fs'') : Ages fs fs'' where
  recedes := gains.recedes.trans ages.recedes
  tidy := ages.tidy
  more := gains.more.trans ages.more
  since := by
    intro d n i entry old
    have between := ages.since entry (Nat.lt_of_lt_of_le old gains.more)
    cases gains with
    | none => exact between
    | born dir free =>
      rw [bornEntry dir] at between
      split at between
      · cases between
        exact absurd old (Nat.lt_irrefl _)
      · exact between
  still := fun first => ages.still (gains.entry first)

theorem poured {j : Ino} (ages : Ages fs fs') (poured : Poured j fs' fs'') : Ages fs fs'' where
  recedes := ages.recedes.trans (.ofAlike poured.alike)
  tidy := poured.tidy ages.tidy
  more := ages.more.trans (Nat.le_of_eq poured.only.size.symm)
  since := fun entry => ages.since ((poured.alike.entry _ _).symm.trans entry)
  still := fun first second => ages.still first ((poured.alike.entry _ _).symm.trans second)

theorem erase (ages : Ages fs fs') {d : Ino} (dir : fs'.isDir d = true) (n : Name) :
    Ages fs (fs'.updateDir d (·.erase n)) where
  recedes := ages.recedes.trans (.erase fs' d n)
  tidy := ages.tidy.erase d n
  more := ages.more.trans (Nat.le_of_eq (sizeUpdateDir fs' d _).symm)
  since := fun entry => ages.since (was dir entry)
  still := fun first second => ages.still first (was dir second)
where
  was {d e i : Ino} {n k : Name} (dir : fs'.isDir d = true)
      (entry : (fs'.updateDir d (·.erase n)).named? e k = some i) : fs'.named? e k = some i := by
    rw [entryErase dir] at entry
    split at entry
    · cases entry
    · exact entry

end Ages
end AtomicUpdate.Fs
