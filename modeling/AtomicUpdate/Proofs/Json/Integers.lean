import AtomicUpdate.Json.Decimal
import AtomicUpdate.Proofs.Json.Grammar

/-! Spellings of whole numbers. Of the numbers that the notation has, just those without sign, fraction and
exponent consist of digits alone, and only they have a value. -/
namespace AtomicUpdate.Json
open Decimal (digit digits fold value?)

theorem digitsLead (n : Nat) (positive : 0 < n) : ∃ d ds, digits n = d :: ds ∧ d ≠ '0' := by
  have leads : ∀ d < 10, 0 < d → digit d ≠ '0' := by decide
  rw [digits]
  split
  · rename_i small
    exact ⟨digit n, [], rfl, leads n small positive⟩
  · obtain ⟨d, ds, same, other⟩ := digitsLead (n / 10) (by omega)
    exact ⟨d, ds ++ [digit (n % 10)], by rw [same, List.cons_append], other⟩
termination_by n
decreasing_by omega

theorem digitsWhole (n : Nat) : Whole (digits n) := by
  have all : Digits (digits n) := ⟨Decimal.digitsNeNil n, Decimal.digitsAll n⟩
  cases n with
  | zero =>
    rw [digits]
    exact .zero
  | succ n =>
    obtain ⟨d, ds, same, other⟩ := digitsLead (n + 1) (Nat.succ_pos n)
    rw [same] at all ⊢
    exact .number all other

theorem Whole.digits {cs : List Char} (whole : Whole cs) : Digits cs := by
  cases whole with
  | zero => exact ⟨List.cons_ne_nil _ _, rfl⟩
  | number digits leads => exact digits

theorem wholeExact {cs : List Char} : Whole cs ↔ Digits cs ∧ (cs = ['0'] ∨ cs.head? ≠ some '0') := by
  constructor
  · intro whole
    refine ⟨whole.digits, ?_⟩
    cases whole with
    | zero => exact .inl rfl
    | number digits leads => exact .inr (by simpa using leads)
  · rintro ⟨digits, rfl | leads⟩
    · exact .zero
    · obtain ⟨d, ds, rfl⟩ := List.exists_cons_of_ne_nil digits.1
      exact .number digits (by simpa using leads)

instance (cs : List Char) : Decidable (Digits cs) := inferInstanceAs (Decidable (_ ∧ _))

instance (cs : List Char) : Decidable (Whole cs) := decidable_of_iff _ wholeExact.symm

theorem Whole.bare {cs : List Char} (whole : Whole cs) : Number cs := by
  have bare := Number.positive whole .none .none
  simpa using bare

theorem Number.whole {cs : List Char} (number : Number cs) (all : Digits cs) : Whole cs := by
  have digital : ∀ c ∈ cs, c.isDigit = true := List.all_eq_true.mp all.2
  cases number with
  | negative => cases digital '-' List.mem_cons_self
  | @positive w f e whole fraction exponent =>
    cases fraction with
    | point => cases digital '.' (by simp)
    | none =>
      cases exponent with
      | none => simpa using whole
      | plain letter =>
        rcases letter with rfl | rfl
        · cases digital 'e' (by simp)
        · cases digital 'E' (by simp)
      | signed letter =>
        rcases letter with rfl | rfl
        · cases digital 'e' (by simp)
        · cases digital 'E' (by simp)

theorem foldDecimal (cs : List Char) : cs.foldl fold 0 = Nat.ofDigitChars 10 cs 0 := by
  have step : fold = fun n c => 10 * n + (c.toNat - '0'.toNat) := by
    funext n c
    rw [fold, Nat.mul_comm]
    rfl
  rw [Nat.ofDigitChars_eq_foldl, step]

theorem valueExact {cs : List Char} {n : Nat} : value? cs = some n ↔ Digits cs ∧ Nat.ofDigitChars 10 cs 0 = n := by
  rw [value?, foldDecimal]
  cases cs <;> simp [Digits]

end AtomicUpdate.Json
