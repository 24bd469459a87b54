import AtomicUpdate.Files
import AtomicUpdate.Names
import AtomicUpdate.Proofs.Fs.Entry
import AtomicUpdate.Proofs.Path.Split
import Mathlib.Data.List.Basic

/-! The names of temp files. A template made of a base has the base and an underscore as its stem;
a name drawn for it is the first of those drawn that no entry has. -/
namespace AtomicUpdate

namespace Template

theorem stemExact {template : String} {stem : List Char} :
    stem? template = some stem ↔ template = String.ofList stem ++ "XXXXXX" := by
  have size : Limits.placeholder.toList.length = 6 := by decide
  rw [← String.toList_inj, String.toList_append, String.toList_ofList]
  change _ ↔ template.toList = stem ++ Limits.placeholder.toList
  unfold stem?
  dsimp only
  constructor
  · intro found
    split at found
    · rename_i ends
      cases found
      exact ends.symm
    · cases found
  · intro ends
    have cut : template.toList.take (template.toList.length - 6) = stem := by
      rw [ends, List.length_append, size, Nat.add_sub_cancel, List.take_left]
    rw [cut, if_pos ends.symm]

def stemOf (base : String) : List Char := base.toList ++ ['_']

theorem stemOfBase (base : String) : stem? (ofBase base) = some (stemOf base) := by
  rw [stemExact, stemOf, String.ofList_append, String.ofList_toList, String.append_assoc]
  rfl

theorem noStemOfEmpty : stem? "" = none := by decide

theorem fillStem (base : String) (s : Suffix) :
    fill (stemOf base) s = base ++ "_" ++ String.ofList s.chars := by
  rw [fill, stemOf, String.ofList_append, String.ofList_append, String.ofList_toList]

theorem fillInjective {base : String} {s t : Suffix} (same : fill (stemOf base) s = fill (stemOf base) t) :
    s = t := by
  have chars := congrArg String.toList same
  simp only [fill, String.toList_ofList] at chars
  cases s
  cases t
  cases List.append_cancel_left chars
  rfl

end Template

namespace Suffix

theorem alphanumeric (s : Suffix) {c : Char} (mem : c ∈ s.chars) : c.isAlphanum = true := by
  have all : suffixChars.all Char.isAlphanum = true := by decide
  exact List.all_eq_true.mp all c (s.drawn c mem)

def bytes (s : Suffix) : Bytes := Path.ofString (String.ofList s.chars)

theorem bytesChars (s : Suffix) : s.bytes = s.chars.map (fun c => c.val.toUInt8) := by
  have all : suffixChars.all (fun c => String.utf8EncodeChar c == [c.val.toUInt8]) = true := by decide
  have single : ∀ c ∈ suffixChars, String.utf8EncodeChar c = [c.val.toUInt8] := fun c mem =>
    beq_iff_eq.mp (List.all_eq_true.mp all c mem)
  have spelled : s.bytes = s.chars.flatMap String.utf8EncodeChar := by
    simp [bytes, Path.ofString, List.utf8Encode]
  rw [spelled, List.map_eq_flatMap]
  exact List.flatMap_congr (fun c mem => single c (s.drawn c mem))

theorem bytesLength (s : Suffix) : s.bytes.length = 6 := by
  rw [bytesChars, List.length_map, s.length_eq]

theorem bytesPlain (s : Suffix) {b : UInt8} (mem : b ∈ s.bytes) : b ≠ 0 ∧ b ≠ Path.slash := by
  have all : suffixChars.all (fun c => decide (c.val.toUInt8 ≠ 0 ∧ c.val.toUInt8 ≠ Path.slash)) = true := by
    decide
  rw [bytesChars] at mem
  obtain ⟨c, inside, rfl⟩ := List.mem_map.mp mem
  exact of_decide_eq_true (List.all_eq_true.mp all c (s.drawn c inside))

theorem plain (s : Suffix) : Path.Plain s.bytes where
  nonempty := fun none => absurd s.bytesLength (by rw [none]; decide)
  notDot := fun dot => absurd s.bytesLength (by rw [dot]; decide)
  notDotDot := fun dots => absurd s.bytesLength (by rw [dots]; decide)
  noSlash := fun mem => (s.bytesPlain mem).2 rfl

def after (s : Suffix) (n : Name) : Name := n ++ 95 :: s.bytes

end Suffix

namespace Template

theorem fillBytes (base : String) (s : Suffix) :
    Path.ofString (fill (stemOf base) s) = s.after (Path.ofString base) := by
  rw [fillStem, String.append_assoc, Path.ofStringAppend, Path.ofStringAppend]
  rfl

end Template

namespace Files

def drawName (stem : List Char) (w : World) (k : Nat) : String :=
  Template.fill stem (w.draws (w.drawn + k))

def tryName (fs : Fs) (name : String) : Except Errno (Ino × Fs) := do
  Path.forbidNul Errno.einval (Path.ofString name)
  fs.createNew 0o600 (Path.ofString name)

inductive Drawing (stem : List Char) (tries : Nat) (w : World) : Except Errno String × World → Prop
    where
  | made {k i fs} (bound : k < tries)
      (taken : ∀ j < k, tryName w.fs (drawName stem w j) = .error .eexist)
      (free : tryName w.fs (drawName stem w k) = .ok (i, fs)) :
      Drawing stem tries w (.ok (drawName stem w k), { w with fs, drawn := w.drawn + k + 1 })
  | failed {k e} (bound : k < tries)
      (taken : ∀ j < k, tryName w.fs (drawName stem w j) = .error .eexist)
      (refused : tryName w.fs (drawName stem w k) = .error e) (other : e ≠ .eexist) :
      Drawing stem tries w (.error e, { w with drawn := w.drawn + k + 1 })
  | crowded (taken : ∀ j < tries, tryName w.fs (drawName stem w j) = .error .eexist) :
      Drawing stem tries w (.error .eexist, { w with drawn := w.drawn + tries })

theorem drawNameLater (stem : List Char) (w : World) (k : Nat) :
    drawName stem { w with drawn := w.drawn + 1 } k = drawName stem w (k + 1) := by
  unfold drawName
  rw [Nat.add_assoc, Nat.add_comm 1 k]

theorem createUniqueTry (stem : List Char) (tries : Nat) (w : World) :
    createUnique stem (tries + 1) w = match tryName w.fs (drawName stem w 0) with
      | .ok (_, fs) => (.ok (drawName stem w 0), { w with fs, drawn := w.drawn + 1 })
      | .error e => if e = .eexist then createUnique stem tries { w with drawn := w.drawn + 1 }
          else (.error e, { w with drawn := w.drawn + 1 }) :=
  rfl

theorem drawing (stem : List Char) (tries : Nat) (w : World) :
    Drawing stem tries w (createUnique stem tries w) := by
  induction tries generalizing w with
  | zero => exact .crowded (fun j bound => absurd bound (Nat.not_lt_zero j))
  | succ tries ih =>
    rw [createUniqueTry]
    cases first : tryName w.fs (drawName stem w 0) with
    | ok made => exact .made (Nat.zero_lt_succ _) (fun j bound => absurd bound (Nat.not_lt_zero j)) first
    | error e =>
      dsimp only
      by_cases collided : e = .eexist
      · subst collided
        rw [if_pos rfl]
        have earlier : ∀ {k : Nat}, (∀ j < k, tryName w.fs (drawName stem w (j + 1)) = .error .eexist) →
            ∀ j < k + 1, tryName w.fs (drawName stem w j) = .error .eexist := by
          intro k taken j bound
          cases j with
          | zero => exact first
          | succ j => exact taken j (Nat.lt_of_succ_lt_succ bound)
        have rest := ih { w with drawn := w.drawn + 1 }
        generalize createUnique stem tries { w with drawn := w.drawn + 1 } = result at rest
        cases rest with
        | @made k i fs bound taken free =>
          simp only [drawNameLater] at taken free ⊢
          rw [Nat.add_right_comm w.drawn 1 k, Nat.add_assoc w.drawn k 1]
          exact .made (Nat.succ_lt_succ bound) (earlier taken) free
        | @failed k e bound taken refused other =>
          simp only [drawNameLater] at taken refused ⊢
          rw [Nat.add_right_comm w.drawn 1 k, Nat.add_assoc w.drawn k 1]
          exact .failed (Nat.succ_lt_succ bound) (earlier taken) refused other
        | crowded taken =>
          simp only [drawNameLater] at taken ⊢
          rw [Nat.add_right_comm w.drawn 1 tries, Nat.add_assoc w.drawn tries 1]
          exact .crowded (earlier taken)
      · rw [if_neg collided]
        exact .failed (Nat.zero_lt_succ _) (fun j bound => absurd bound (Nat.not_lt_zero j)) first collided

theorem createdName {template name : String} {w w' : World}
    (ok : createFrom template w = (.ok name, w')) :
    ∃ stem k, Template.stem? template = some stem ∧ name = drawName stem w k := by
  unfold createFrom at ok
  split at ok
  · cases ok
  · rename_i stem found
    have made := drawing stem Limits.attempts w
    rw [ok] at made
    cases made
    exact ⟨stem, _, found, rfl⟩

end Files
end AtomicUpdate
