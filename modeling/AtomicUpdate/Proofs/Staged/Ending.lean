import AtomicUpdate.Proofs.Lock.Sidecar
import AtomicUpdate.Proofs.Staged.Intact

/-! The end of a cycle for its temp file. A commit that fails leaves the file as it was, even one that has
begun to copy; a rollback and a deletion remove it, and it stays removed where a deletion then fails. -/
namespace AtomicUpdate
namespace Fs

variable {fs fs' : Fs}

theorem Advanced.unrefused {refuse : Bool} {e d i : Ino} {ns : List Name} {n : Name}
    (way : fs.Advanced refuse e ns (.arrived (.entry d n i))) : refuse = false := by
  generalize same : Halt.arrived (.entry d n i) = halt at way
  induction way with
  | here => cases same
  | stay parent more ih => exact ih same
  | up parent more ih => exact ih same
  | vacant parent ordinary allowed child => exact allowed
  | link => cases same
  | last parent ordinary allowed child plain => exact allowed
  | down parent ordinary child plain some' more ih => exact ih same

theorem Walked.created {links : Nat} {d : Ino} {ns : List Name} {slash : Bool} {place : Place}
    (walked : fs.Walked .creating links d ns slash place) :
    fs.Walked .always links d ns slash place ∧
      ∀ e n i, place.spot = .entry e n i → place.slash = false := by
  induction walked with
  | arrived way =>
    refine ⟨.arrived way.lenient, ?_⟩
    rintro e n i rfl
    exact way.unrefused
  | stopped way stops => cases stops
  | onward way goes more ih => exact ⟨.onward way.lenient (by simp [Follow.always]) ih.1, ih.2⟩

theorem lookupCreated {p : Path} {d i : Ino} {n : Name} {s : Bool}
    (located : fs.locate .creating p = .ok ⟨.entry d n i, s⟩) : fs.lookup p = .ok i := by
  obtain ⟨short, way⟩ := locateExact located
  obtain ⟨leads, closed⟩ := (walked way).created
  have found : fs.locate .always p = .ok ⟨.entry d n i, s⟩ := (locateOf .always short).trans leads.ok
  have open' : s = false := closed d n i rfl
  rw [lookup, found, open']
  rfl

end Fs

namespace Files
variable {fs fs' : Fs}

theorem removeSize {p : Path} (ok : remove fs p = .ok fs') : fs'.nodes.size = fs.nodes.size := by
  obtain ⟨d, n, i, _, _, rfl⟩ := removeExact ok
  exact Fs.sizeUpdateDir fs d _

theorem copyMore (fs : Fs) (source target : Path) :
    fs.nodes.size ≤ (copy fs source target).1.nodes.size := by
  cases opened : openBoth fs source target with
  | error e => rw [copyUnopened opened]
  | ok made =>
    obtain ⟨i, mode, j, fs₁⟩ := made
    obtain ⟨_, _, _, m, created⟩ := openBothExact opened
    exact (Fs.openCreateGains created).more.trans (Nat.le_of_eq (copyPoured opened).only.size.symm)

theorem copySelf {source target : Path} {i : Ino} {m : Nat} {c : Bytes} {fs₁ : Fs}
    (opened : openBoth fs source target = .ok (i, m, i, fs₁))
    (file : fs₁.node? i = some (.file c m)) :
    (copy fs source target).2 = .ok () ∧
      (copy fs source target).1.node? i = some (.file [] m) := by
  obtain ⟨_, emptied⟩ := Fs.truncateFile file
  have again := Fs.replaceFile emptied (.file [] m)
  have rest : ((fs₁.truncate i).replace i (.file [] m)).readRest i 0 = .ok [] := by
    rw [Fs.readRest, again]
    rfl
  have wrote : ((fs₁.truncate i).replace i (.file [] m)).writeAt i 0 [] =
      .ok ((fs₁.truncate i).replace i (.file [] m)) := by
    rw [Fs.writeAt, again]
    rfl
  rw [copyFile opened emptied rest wrote]
  exact ⟨rfl, again⟩

end Files

namespace Commit
variable {base : String} {s : Suffix} {d i : Ino} {c : Bytes} {m : Nat} {w : World}

theorem copyOverMore {temp base : Path} {r : Except Errno Unit × World} (ends : copyOver temp base w = r) :
    w.fs.nodes.size ≤ r.2.fs.nodes.size := by
  have copied := Files.copyMore w.fs temp base
  have ended := copying temp base w
  rw [ends] at ended
  cases ended with
  | broken | unflushed | unremoved => exact copied
  | done _ _ removed => exact copied.trans (Nat.le_of_eq (Files.removeSize removed).symm)

theorem copyOverSelf (intact : Fs.Intact base s d i c m w.fs) {p : Path} {mode : Nat} {fs₁ : Fs}
    (opened : Files.openBoth w.fs (Path.ofString (Template.fill (Template.stemOf base) s)) p =
      .ok (i, mode, i, fs₁)) :
    (copyOver (Path.ofString (Template.fill (Template.stemOf base) s)) p w).1 = .ok () := by
  obtain ⟨_, ⟨c', file⟩, clean, mode', created⟩ := Files.openBothExact opened
  cases intact.holds.file.symm.trans file
  have gained := intact.gains (Fs.openCreateGains created)
  have poured := Files.copyPoured opened
  obtain ⟨done, after⟩ := Files.copySelf opened gained.holds.file
  have copied := gained.alike poured.alike after rfl
  have flushed : Files.flush (Files.copy w.fs
      (Path.ofString (Template.fill (Template.stemOf base) s)) p).1 p = .ok () := by
    rcases Fs.openCreateExact created with ⟨rfl, _, d', n, t, located⟩ | ⟨fresh, _⟩
    · have keeps : Fs.Keeps (fun _ => True) _ _ := poured.alike.keeps
      have located' := Fs.locateKept keeps located rfl (Or.inr trivial)
      exact Fs.flushOf clean
        (Fs.openReadOf (Fs.lookupCreated located') (copied.holds.demand copied.readable)) after
    · exact absurd fresh (Nat.ne_of_lt (Fs.nodeBound intact.holds.file))
  rw [copyOverOf (Prod.ext rfl done) flushed copied.remove]

theorem copyOverIntact (intact : Fs.Intact base s d i c m w.fs) {p : Path} {e : Errno} {w' : World}
    (broke : copyOver (Path.ofString (Template.fill (Template.stemOf base) s)) p w = (.error e, w')) :
    Fs.Intact base s d i c m w'.fs := by
  rw [copyOverBroke broke]
  cases opened : Files.openBoth w.fs (Path.ofString (Template.fill (Template.stemOf base) s)) p with
  | error e' =>
    rw [Files.copyUnopened opened]
    exact intact
  | ok made =>
    obtain ⟨i', mode, j, fs₁⟩ := made
    obtain ⟨read, _, _, _, created⟩ := Files.openBothExact opened
    cases intact.openRead.symm.trans read
    by_cases apart : i = j
    · subst apart
      cases (congrArg Prod.fst broke).symm.trans (copyOverSelf intact opened)
    · exact (intact.gains (Fs.openCreateGains created)).beside (Files.copyPoured opened) apart

theorem copyOverLacks {p : Path} {r : Except Errno Unit × World}
    (ends : copyOver (Path.ofString (Template.fill (Template.stemOf base) s)) p w = r)
    (lacks : Fs.Lacks base s w.fs) : ∃ e, r = (.error e, w) := by
  cases opened : Files.openBoth w.fs (Path.ofString (Template.fill (Template.stemOf base) s)) p with
  | error e =>
    exact ⟨e, ends.symm.trans (copyOverUnopened opened)⟩
  | ok made =>
    obtain ⟨j, mode, k, fs₁⟩ := made
    obtain ⟨j', led, _⟩ := bindOk (Files.openBothExact opened).1
    exact absurd led (lacks.lookup j')

theorem runMore (temp base : Path) (allowCopy : Bool) (force : Option Bool) (w : World) :
    w.fs.nodes.size ≤ (run temp base allowCopy force w).2.fs.nodes.size := by
  have ended := running temp base allowCopy force w
  generalize run temp base allowCopy force w = r at ended
  cases ended with
  | unready | refused | barred => exact Nat.le_refl _
  | renamed _ _ moved =>
    rcases Fs.renameExact moved with ⟨rfl, _⟩ | ⟨_, _, _, _, rfl⟩
    · exact Nat.le_refl _
    · exact Nat.le_of_eq (Fs.sizeUpdateDir _ _ _).symm
  | broken _ _ _ ends | copied _ _ _ ends => exact copyOverMore ends

end Commit
end AtomicUpdate
