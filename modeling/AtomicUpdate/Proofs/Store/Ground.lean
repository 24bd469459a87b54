import AtomicUpdate.Proofs.Commit
import AtomicUpdate.Proofs.Naming

/-! The ground that the handles of one base stand on: the directory of the base, and the names in it
that the handles use. The names are all different, and every call takes them as they are. -/
namespace AtomicUpdate
open Path (Plain Proper)

def folderOf (base : String) : Path := Path.throughSlash (Path.ofString base)

def leafOf (base : String) : Name := Path.afterSlash (Path.ofString base)

def blankOf (base : String) : Name := leafOf base ++ Path.ofString Limits.tempSuffix

theorem folderEnds (base : String) : folderOf base = [] ∨ ∃ a, folderOf base = a ++ [Path.slash] :=
  Path.throughEnds _

theorem basePath (base : String) : Path.ofString base = folderOf base ++ leafOf base :=
  (Path.cut (Path.ofString base)).symm

theorem blankPath (base : String) :
    Path.ofString (Template.ofBase base) = folderOf base ++ blankOf base := by
  rw [Template.ofBase, Path.ofStringAppend, basePath, List.append_assoc, blankOf]

theorem tempPath (base : String) (s : Suffix) :
    Path.ofString (Template.fill (Template.stemOf base) s) = folderOf base ++ s.after (leafOf base) := by
  rw [Template.fillBytes, Suffix.after, basePath, List.append_assoc, Suffix.after]

theorem blankTail : Path.ofString Limits.tempSuffix = 95 :: Path.ofString Limits.placeholder := by
  decide

theorem afterNotLeaf (base : String) (s : Suffix) : s.after (leafOf base) ≠ leafOf base := by
  intro same
  have sizes := congrArg List.length same
  rw [Suffix.after, List.length_append, List.length_cons] at sizes
  omega

theorem blankNotLeaf (base : String) : blankOf base ≠ leafOf base := by
  intro same
  have sizes := congrArg List.length same
  rw [blankOf, blankTail, List.length_append, List.length_cons] at sizes
  omega

theorem afterNotBlank (base : String) {s : Suffix} (drawn : s.chars ≠ Limits.placeholder.toList) :
    s.after (leafOf base) ≠ blankOf base := by
  intro same
  rw [Suffix.after, blankOf, blankTail] at same
  have bytes : s.bytes = Path.ofString Limits.placeholder :=
    (List.cons.inj (List.append_cancel_left same)).2
  have text := congrArg String.toList (Path.ofStringInjective bytes)
  rw [String.toList_ofList] at text
  exact drawn text

theorem afterInjective {base : String} {s s' : Suffix}
    (same : s.after (leafOf base) = s'.after (leafOf base)) :
    Template.fill (Template.stemOf base) s = Template.fill (Template.stemOf base) s' := by
  apply Path.ofStringInjective
  rw [tempPath, tempPath, same]

theorem plainLonger {n : Name} (single : Path.slash ∉ n) {tail : Bytes} (six : tail.length = 6)
    (clean : Path.slash ∉ tail) : Plain (n ++ 95 :: tail) := by
  have size : (n ++ 95 :: tail).length = n.length + 7 := by
    rw [List.length_append, List.length_cons, six]
  refine ⟨fun none => ?_, fun dot => ?_, fun dots => ?_, fun slash => ?_⟩
  · rw [none] at size
    simp at size
  · rw [dot] at size
    simp [Path.dot] at size
  · rw [dots] at size
    simp [Path.dotDot] at size
  · rcases List.mem_append.mp slash with inside | inTail
    · exact single inside
    · rcases List.mem_cons.mp inTail with under | later
      · exact absurd under (by decide)
      · exact clean later

theorem afterPlain (base : String) (s : Suffix) : Plain (s.after (leafOf base)) :=
  plainLonger (Path.afterNoSlash _) s.bytesLength fun slash => (s.bytesPlain slash).2 rfl

theorem blankPlain (base : String) : Plain (blankOf base) := by
  rw [blankOf, blankTail]
  exact plainLonger (Path.afterNoSlash _) (by decide) (by decide)

theorem Path.Proper.shorter {base : String} {s : Suffix} (plain : Plain (leafOf base))
    (proper : Proper (folderOf base) (s.after (leafOf base))) : Proper (folderOf base) (leafOf base) where
  plain := plain
  short := by
    have short := proper.short
    rw [Suffix.after, List.length_append] at short
    omega
  within := by
    have within := proper.within
    rw [Suffix.after, ← List.append_assoc, List.length_append] at within
    omega
  noNul := by
    intro nul
    apply proper.noNul
    rw [Suffix.after, ← List.append_assoc]
    exact List.mem_append_left _ nul

structure Ground (fs : Fs) (base : String) (q : Path) (d : Ino) : Prop where
  plain : Plain (leafOf base)
  short : (leafOf base).length ≤ 248
  within : base.utf8ByteSize ≤ 4088
  noNul : 0 ∉ Path.ofString base
  stands : fs.Stands (folderOf base) q d
  room : q.length + 1 + (leafOf base).length ≤ 4095
  tidy : fs.Tidy
  spelled : ∀ {e n i}, fs.named? e n = some i → Plain n

namespace Ground
variable {first fs : Fs} {base : String} {q : Path} {d : Ino}

theorem leaf (ground : Ground first base q d) : Proper (folderOf base) (leafOf base) where
  plain := ground.plain
  short := Nat.le_trans ground.short (by decide)
  within := by
    rw [← basePath, Path.ofStringLength]
    exact Nat.lt_of_le_of_lt ground.within (by decide)
  noNul := by
    rw [← basePath]
    exact ground.noNul

theorem longer (ground : Ground first base q d) {tail : Bytes} (six : tail.length = 6)
    (clean : ∀ b ∈ tail, b ≠ 0 ∧ b ≠ Path.slash) :
    Proper (folderOf base) (leafOf base ++ 95 :: tail) where
  plain := plainLonger ground.plain.noSlash six fun slash => (clean _ slash).2 rfl
  short := by
    rw [List.length_append, List.length_cons, six]
    have short := ground.short
    rw [Limits.nameMax]
    omega
  within := by
    rw [← List.append_assoc, ← basePath, List.length_append, Path.ofStringLength, List.length_cons, six]
    have within := ground.within
    rw [Limits.pathMax]
    omega
  noNul := by
    rw [← List.append_assoc, ← basePath]
    intro nul
    rcases List.mem_append.mp nul with inBase | inTail
    · exact ground.noNul inBase
    · rcases List.mem_cons.mp inTail with under | later
      · exact absurd under (by decide)
      · exact (clean _ later).1 rfl

theorem temp (ground : Ground first base q d) (s : Suffix) :
    Proper (folderOf base) (s.after (leafOf base)) :=
  ground.longer s.bytesLength fun _ mem => s.bytesPlain mem

theorem blank (ground : Ground first base q d) : Proper (folderOf base) (blankOf base) := by
  rw [blankOf, blankTail]
  exact ground.longer (by decide) (by decide +kernel)

theorem home (ground : Ground first base q d) (evolves : first.Evolves fs) :
    fs.Home (folderOf base) d := ground.stands.home.kept evolves.keeps

theorem onward (ground : Ground first base q d) (evolves : first.Evolves fs) :
    fs.Home (Fs.onward q) d := ground.stands.onwards.kept evolves.keeps

theorem onwardLeaf (ground : Ground first base q d) : Proper (Fs.onward q) (leafOf base) where
  plain := ground.plain
  short := Nat.le_trans ground.short (by decide)
  within := by
    have size : (Fs.onward q).length ≤ q.length + 1 := by
      unfold Fs.onward
      split
      · exact Nat.le_succ _
      · rw [List.length_append, List.length_singleton]
    have room := ground.room
    rw [List.length_append, Limits.pathMax]
    omega
  noNul := by
    intro nul
    rcases List.mem_append.mp nul with before | inLeaf
    · unfold Fs.onward at before
      split at before
      · exact ground.stands.noNul before
      · rcases List.mem_append.mp before with inside | last
        · exact ground.stands.noNul inside
        · exact absurd (List.mem_singleton.mp last) (by decide)
    · apply ground.noNul
      rw [basePath]
      exact List.mem_append_right _ inLeaf

theorem unresolved (ground : Ground first base q d) (evolves : first.Evolves fs)
    (free : fs.named? d (leafOf base) = none) :
    Files.canonical fs (Path.ofString base) = .error .enoent := by
  rw [Files.canonical, Path.forbidNone _ ground.noNul, basePath]
  exact ground.stands.canonicalNone ground.tidy ground.spelled evolves.keeps evolves.traces evolves.more
    ground.leaf (Nat.lt_succ_of_le ground.room) free

theorem resolved (ground : Ground first base q d) (evolves : first.Evolves fs) {i : Ino} {b : Bytes}
    {m : Nat} (holds : fs.Holds d (leafOf base) i b m) :
    Files.canonical fs (Path.ofString base) = .ok (Fs.below q (leafOf base)) := by
  rw [Files.canonical, Path.forbidNone _ ground.noNul, basePath]
  exact ground.stands.canonicalSome ground.tidy ground.spelled evolves.keeps evolves.traces evolves.more
    ground.leaf (Nat.lt_succ_of_le ground.room) holds.entry (Fs.notInner holds.outer).2

theorem reopened (ground : Ground first base q d) (evolves : first.Evolves fs) {i : Ino} {b : Bytes}
    {m : Nat} (holds : fs.Holds d (leafOf base) i b m)
    (readable : (Node.file b m).permits .read = true) :
    Files.openReadOnly fs (Fs.below q (leafOf base)) = .ok i := by
  rw [Fs.belowOnward, Files.openReadOnly, Path.forbidNone _ ground.onwardLeaf.noNul]
  exact (ground.onward evolves).openFile ground.onwardLeaf holds readable

end Ground
end AtomicUpdate
