import AtomicUpdate.Path
import Mathlib.Data.List.TakeWhile

/-! A path cut after its last slash. What stands before the cut says where the last name is looked
up, and its names are those of the whole path but the last. -/
namespace AtomicUpdate.Path

theorem ofStringAppend (a b : String) : ofString (a ++ b) = ofString a ++ ofString b := by
  simp [ofString]

theorem ofStringLength (s : String) : (ofString s).length = s.utf8ByteSize := by
  rw [ofString, Array.length_toList]
  rfl

theorem ofStringInjective {a b : String} (same : ofString a = ofString b) : a = b := by
  rw [← String.toByteArray_inj]
  exact ByteArray.ext (Array.toList_inj.mp same)

def afterSlash (p : Path) : Name := (p.reverse.takeWhile (· ≠ slash)).reverse

def throughSlash (p : Path) : Path := (p.reverse.dropWhile (· ≠ slash)).reverse

structure Plain (n : Name) : Prop where
  nonempty : n ≠ []
  notDot : n ≠ dot
  notDotDot : n ≠ dotDot
  noSlash : slash ∉ n

instance (n : Name) : Decidable (Plain n) :=
  decidable_of_iff (n ≠ [] ∧ n ≠ dot ∧ n ≠ dotDot ∧ slash ∉ n)
    ⟨fun ⟨a, b, c, d⟩ => ⟨a, b, c, d⟩, fun ⟨a, b, c, d⟩ => ⟨a, b, c, d⟩⟩

theorem cut (p : Path) : throughSlash p ++ afterSlash p = p := by
  rw [throughSlash, afterSlash, ← List.reverse_append, List.takeWhile_append_dropWhile,
    List.reverse_reverse]

theorem afterNoSlash (p : Path) : slash ∉ afterSlash p := by
  intro member
  have kept := List.mem_takeWhile_imp (List.mem_reverse.mp member)
  simp at kept

theorem throughEnds (p : Path) : throughSlash p = [] ∨ ∃ a, throughSlash p = a ++ [slash] := by
  unfold throughSlash
  cases h : p.reverse.dropWhile (· ≠ slash) with
  | nil => exact Or.inl rfl
  | cons c rest =>
    have first := List.head?_dropWhile_not (· ≠ slash) p.reverse
    rw [h] at first
    have same : c = slash := by simpa using first
    exact Or.inr ⟨rest.reverse, by rw [List.reverse_cons, same]⟩

theorem segmentsPlain {n : Name} (plain : slash ∉ n) : segments n = [n] := by
  induction n with
  | nil => rfl
  | cons c rest ih =>
    have other : c ≠ slash := fun same => plain (same ▸ List.mem_cons_self)
    have tail := ih (fun member => plain (List.mem_cons_of_mem c member))
    simp only [segments, if_neg other, tail]

theorem segmentsAppend (a b : Path) : segments (a ++ slash :: b) = segments a ++ segments b := by
  induction a with
  | nil => simp [segments]
  | cons c rest ih =>
    by_cases same : c = slash
    · simp [segments, same, ih]
    · simp only [List.cons_append, segments, if_neg same, ih]
      cases h : segments rest with
      | nil => exact absurd h (segmentsNeNil rest)
      | cons s ss => rfl

theorem segmentsNoSlash {p : Path} {n : Name} (member : n ∈ segments p) : slash ∉ n := by
  induction p generalizing n with
  | nil =>
    have same : n = [] := by simpa [segments] using member
    rw [same]
    exact List.not_mem_nil
  | cons c rest ih =>
    unfold segments at member
    split at member
    · rcases List.mem_cons.mp member with rfl | inside
      · exact List.not_mem_nil
      · exact ih inside
    · rename_i other
      cases h : segments rest with
      | nil => exact absurd h (segmentsNeNil rest)
      | cons s ss =>
        rw [h] at member ih
        rcases List.mem_cons.mp member with rfl | inside
        · intro bad
          rcases List.mem_cons.mp bad with same | deep
          · exact other same.symm
          · exact ih List.mem_cons_self deep
        · exact ih (List.mem_cons_of_mem s inside)

theorem segmentsJoin {xs : List Name} (nonempty : xs ≠ []) (plain : ∀ n ∈ xs, slash ∉ n) :
    segments (join xs) = xs := by
  induction xs with
  | nil => exact absurd rfl nonempty
  | cons n rest ih =>
    have first := segmentsPlain (plain n List.mem_cons_self)
    cases rest with
    | nil => exact first
    | cons m ms =>
      have others := ih (List.cons_ne_nil m ms) (fun k member => plain k (List.mem_cons_of_mem n member))
      rw [join, segmentsAppend, first, others]
      rfl

theorem joinPrefix (xs ys : List Name) : join xs <+: join (xs ++ ys) := by
  induction xs with
  | nil => exact List.nil_prefix
  | cons n rest ih =>
    cases rest with
    | nil =>
      cases ys with
      | nil => exact List.prefix_refl _
      | cons m ms => exact List.prefix_append _ _
    | cons m ms =>
      obtain ⟨after, same⟩ := ih
      exact ⟨after, by
        simp only [List.cons_append] at same
        simp only [join, List.cons_append, List.append_assoc, same]⟩

theorem namesAppend (a b : Path) : names (a ++ slash :: b) = names a ++ names b := by
  rw [names, segmentsAppend, List.filter_append]
  rfl

theorem namesNil : names [] = [] := rfl

theorem namesPlain {n : Name} (plain : Plain n) : names n = [n] := by
  rw [names, segmentsPlain plain.noSlash]
  simp [plain.nonempty]

theorem namesAlong {pre : Path} (ends : pre = [] ∨ ∃ a, pre = a ++ [slash]) (n : Path) :
    names (pre ++ n) = names pre ++ names n := by
  rcases ends with rfl | ⟨a, rfl⟩
  · rw [List.nil_append, namesNil, List.nil_append]
  · rw [List.append_assoc, List.singleton_append, namesAppend, namesAppend, namesNil, List.append_nil]

theorem namesThrough {pre n : Path} (ends : pre = [] ∨ ∃ a, pre = a ++ [slash]) (plain : Plain n) :
    names (pre ++ n) = names pre ++ [n] := by
  rw [namesAlong ends, namesPlain plain]

theorem absoluteThrough {pre n : Path} (ends : pre ≠ []) : isAbsolute (pre ++ n) = isAbsolute pre := by
  cases pre with
  | nil => exact absurd rfl ends
  | cons c rest => rfl

theorem singleRelative {n : Name} (single : slash ∉ n) : isAbsolute n = false := by
  cases n with
  | nil => rfl
  | cons c rest =>
    have other : c ≠ slash := fun same => single (same ▸ List.mem_cons_self)
    simp [isAbsolute, other]

theorem plainRelative {n : Name} (plain : Plain n) : isAbsolute n = false :=
  singleRelative plain.noSlash

theorem plainNoClosing {pre n : Path} (plain : Plain n) : endsInSlash (pre ++ n) = false := by
  rw [endsInSlash, List.getLast?_append, List.getLast?_eq_some_getLast plain.nonempty, Option.some_or]
  have inside := List.getLast_mem plain.nonempty
  simp only [Option.some.injEq, decide_eq_false_iff_not]
  exact fun same => plain.noSlash (same ▸ inside)

end AtomicUpdate.Path
