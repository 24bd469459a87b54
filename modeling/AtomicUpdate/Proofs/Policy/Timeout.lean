import AtomicUpdate.Proofs.Json.Gap
import AtomicUpdate.Proofs.Policy.Canonical
import AtomicUpdate.Proofs.Policy.Place
import Mathlib.Algebra.Group.Nat.Defs

/-! What may stand for the timeout of the lock. All else in a document being as it should, it is read just when
the timeout is a whole number that a word holds, and then with this number. -/
namespace AtomicUpdate.Policy
open Json (Tree Piece Blank Digits Whole Layer Numeric Written Spells)

theorem readWordExact {s : List Char} {n : UInt64} :
    readWord (.number s) = some n ↔ Digits s ∧ Nat.ofDigitChars 10 s 0 = n.toNat := by
  rw [readWord, Option.bind_eq_bind, Option.bind_eq_some_iff]
  constructor
  · rintro ⟨m, value, word⟩
    obtain ⟨digits, rfl⟩ := Json.valueExact.mp value
    split at word
    · rename_i small
      cases word
      exact ⟨digits, (UInt64.toNat_ofNat_of_lt small).symm⟩
    · cases word
  · rintro ⟨digits, same⟩
    refine ⟨n.toNat, Json.valueExact.mpr ⟨digits, same⟩, ?_⟩
    rw [if_pos n.toNat_lt, UInt64.ofNat_toNat]

section Refill
variable {C D : Tree → Tree} {v : Tree} {l : Locking} {p : Policy}

theorem timeoutRefilled (within : Within "timeout_ms" 0 D) (valid : readLocking (D v) = some l) (u : Tree) :
    readLocking (D u) = (readWord u).map Locking.mk := by
  obtain ⟨g, taken, _⟩ := Option.bind_eq_some_iff.mp valid
  have distinct : ["timeout_ms"].Nodup := by decide
  obtain ⟨g', taken', _⟩ := within.refill distinct rfl taken u
  rw [readLocking, taken', Option.bind_eq_bind, Option.bind_some, within.read distinct rfl taken' _ readWord]
  cases readWord u <;> rfl

theorem lockingRefilled (within : Within "locking" 2 C) (valid : ofTree (C v) = some p) (u : Tree) :
    ofTree (C u) = (readLocking u).map fun l => { p with locking := l } := by
  obtain ⟨g, taken, valid⟩ := Option.bind_eq_some_iff.mp valid
  obtain ⟨durability, commit, _⟩ := ofGroupsExact.mp valid
  obtain ⟨g', taken', kept⟩ := within.refill groupsDistinct rfl taken u
  have first := (fieldKept (kept 0 (by decide) (by decide)) {} readDurability).trans durability
  have second := (fieldKept (kept 1 (by decide) (by decide)) {} readCommitFlow).trans commit
  have third := within.read groupsDistinct rfl taken' {} readLocking
  rw [ofTreeGiven, taken', Option.bind_some]
  simp only [ofGroups, first, second, third, Option.bind_eq_bind, Option.bind_some]
  cases readLocking u <;> rfl

theorem gapRefilled (outer : Within "locking" 2 C) (inner : Within "timeout_ms" 0 D)
    (valid : ofTree (C (D v)) = some p) (u : Tree) :
    ofTree (C (D u)) = (readWord u).map fun n => { p with locking := { timeoutMs := n } } := by
  have locking := lockingRefilled outer valid
  obtain ⟨l, read, _⟩ := Option.map_eq_some_iff.mp ((locking (D v)).symm.trans valid)
  rw [locking, timeoutRefilled inner read, Option.map_map]
  rfl

end Refill

inductive TimeoutGap : (Tree → Tree) → (Tree → Tree) → List Char → List Char → Prop
  | document {C D b p p' q' q a} (before : Blank b) (groups : Layer C p q) (locking : Within "locking" 2 C)
      (fields : Layer D p' q') (timeout : Within "timeout_ms" 0 D) (after : Blank a) :
      TimeoutGap C D (b ++ (p ++ p')) (q' ++ q ++ a)

section Gap
variable {C D : Tree → Tree} {pre post s : List Char} {p : Policy}

theorem TimeoutGap.spells (gap : TimeoutGap C D pre post) (number : Json.Number s) :
    Spells (String.ofList (pre ++ s ++ post)).toList (C (D (.number s))) := by
  cases gap with
  | document before groups locking fields timeout after =>
    have whole := Json.Written.item before (groups.filled (fields.filled (.number number))) after
    rw [String.toList_ofList]
    simpa [Spells] using whole

theorem TimeoutGap.refused (gap : TimeoutGap C D pre post) (numeric : ∀ c ∈ s, Numeric c)
    (filled : s = [] → ∃ ms, D .null = .object ms) (other : ¬ Json.Number s) :
    read (String.ofList (pre ++ s ++ post)) = .error .einval := by
  cases gap with
  | @document b p p' q' q a before groups locking fields timeout after =>
    have inner := Json.Reader.layerJams fields (Json.Reader.numericJams numeric other) filled
    have solid : p' ++ s ++ q' ≠ [] := by
      obtain ⟨c, more, rfl, _⟩ := Json.Reader.layerHead fields
      exact List.cons_ne_nil _ _
    have outer := Json.Reader.layerJams groups inner fun none => absurd none solid
    have refused := Json.Reader.jamRefused outer before after
    have text : b ++ (p ++ p') ++ s ++ (q' ++ q ++ a) = b ++ (p ++ (p' ++ s ++ q') ++ q) ++ a := by simp
    rw [read, String.toList_ofList, text, refused]
    rfl

/-- A whole number up to the largest word is taken as the timeout, and all else is refused. The empty text counts
only behind a name: an array is left without an element by it, and so without a timeout. -/
theorem timeoutExact (gap : TimeoutGap C D pre post) (valid : read (String.ofList (pre ++ ['0'] ++ post)) = .ok p)
    (numeric : ∀ c ∈ s, Numeric c) (filled : s = [] → ∃ ms, D .null = .object ms) :
    (Whole s → Nat.ofDigitChars 10 s 0 ≤ 2 ^ 64 - 1 → ∃ n : UInt64, n.toNat = Nat.ofDigitChars 10 s 0 ∧
      read (String.ofList (pre ++ s ++ post)) = .ok { p with locking := { timeoutMs := n } }) ∧
    (¬ (Whole s ∧ Nat.ofDigitChars 10 s 0 ≤ 2 ^ 64 - 1) →
      read (String.ofList (pre ++ s ++ post)) = .error .einval) := by
  obtain ⟨outer, inner⟩ : Within "locking" 2 C ∧ Within "timeout_ms" 0 D := by
    cases gap with
    | document before groups locking fields timeout after => exact ⟨locking, timeout⟩
  have zero : ofTree (C (D (.number ['0']))) = some p := by
    rw [readSpelled (gap.spells Whole.zero.bare)] at valid
    split at valid
    · rename_i q same
      cases valid
      exact same
    · cases valid
  have refilled := gapRefilled outer inner zero (.number s)
  constructor
  · intro whole small
    have word : (UInt64.ofNat (Nat.ofDigitChars 10 s 0)).toNat = Nat.ofDigitChars 10 s 0 :=
      UInt64.toNat_ofNat_of_lt (Nat.lt_of_le_of_lt small (by decide))
    refine ⟨_, word, ?_⟩
    rw [readSpelled (gap.spells whole.bare), refilled, readWordExact.mpr ⟨whole.digits, word.symm⟩]
    rfl
  · intro unfit
    by_cases number : Json.Number s
    · have none : readWord (.number s) = none := by
        refine Option.eq_none_iff_forall_ne_some.mpr fun n word => ?_
        obtain ⟨digits, same⟩ := readWordExact.mp word
        refine unfit ⟨number.whole digits, ?_⟩
        rw [same]
        exact Nat.le_sub_one_of_lt n.toNat_lt
      rw [readSpelled (gap.spells number), refilled, none]
      rfl
    · exact gap.refused numeric filled number

theorem largestTimeout :
    let pre := "[[],\x7b\x7d,\x7b\"timeout_ms\": ".toList
    let post := " \x7d]".toList
    let around (s : String) := read (String.ofList (pre ++ s.toList ++ post))
    around "0" = .ok { locking := { timeoutMs := 0 } } ∧
      around "18446744073709551615" = .ok { locking := { timeoutMs := 18446744073709551615 } } ∧
      ∀ s ∈ ["", "00", "-0", "+1", "1.0", "1e3", "18446744073709551616", "100000000000000000000000000"],
        around s = .error .einval := by
  intro pre post around
  have fields : Layer (fun t => .object ([] ++ (plain "timeout_ms", t) :: [])) _ _ :=
    .member (o := []) (m := []) (b := [' ']) (a := [' ']) .bare nofun (plainQuoted (by simp [Plain])) nofun
      (by simp [Blank]) (by simp [Blank]) .bare
  have others : Written (.elements [.array [], .object []]) ['[', ']', ',', '{', '}'] :=
    .element (bareItem (.noElements (b := []) nofun)) (.lastElement (bareItem (.noMembers (b := []) nofun)))
  have groups := Layer.element (b := []) (a := []) (.more others) nofun nofun .bare
  have gap : TimeoutGap (fun t => .array [.array [], .object [], t]) (fun t => .object [(plain "timeout_ms", t)])
      pre post := by
    have gap := TimeoutGap.document (b := []) (a := []) nofun groups (.placed rfl) fields (.named (plainText _)) nofun
    simpa [pre, post] using gap
  have valid : around "0" = .ok { locking := { timeoutMs := 0 } } := by
    simp only [around, read, pre, post, String.reduceToList, String.toList_ofList]
    rfl
  have largest : Whole "18446744073709551615".toList ∧ ∀ c ∈ "18446744073709551615".toList, Numeric c := by
    simp
    decide
  have unfit : ∀ s ∈ ["", "00", "-0", "+1", "1.0", "1e3", "18446744073709551616", "100000000000000000000000000"],
      (∀ c ∈ s.toList, Numeric c) ∧ ¬ (Whole s.toList ∧ Nat.ofDigitChars 10 s.toList 0 ≤ 2 ^ 64 - 1) := by
    simp
    decide
  refine ⟨valid, ?_, fun s mem => ?_⟩
  · obtain ⟨n, same, read⟩ := (timeoutExact gap valid largest.2 fun _ => ⟨_, rfl⟩).1 largest.1 (by simp; decide)
    obtain rfl : n = 18446744073709551615 := UInt64.toNat_inj.mp (same.trans (by simp; decide))
    exact read
  · obtain ⟨numeric, other⟩ := unfit s mem
    exact (timeoutExact gap valid numeric fun _ => ⟨_, rfl⟩).2 other

end Gap
end AtomicUpdate.Policy
