/-! Natural numbers in decimal: `digits` writes one without leading zeros, and `value?` reads
any digits back. -/
namespace AtomicUpdate.Json.Decimal

def digit (d : Nat) : Char := Char.ofNat (48 + d)

def digits (n : Nat) : List Char :=
  if n < 10 then [digit n] else digits (n / 10) ++ [digit (n % 10)]
termination_by n
decreasing_by omega

def fold (acc : Nat) (c : Char) : Nat := acc * 10 + (c.toNat - 48)

def value? (cs : List Char) : Option Nat :=
  if cs.isEmpty || !cs.all Char.isDigit then none else some (cs.foldl fold 0)

theorem digitFacts : ∀ d, d < 10 → (digit d).isDigit = true ∧ (digit d).toNat - 48 = d := by
  decide

theorem digitsNeNil (n : Nat) : digits n ≠ [] := by
  rw [digits]; split <;> simp

theorem digitsAll (n : Nat) : (digits n).all Char.isDigit = true := by
  rw [digits]
  split
  · rename_i small; simp [(digitFacts n small).1]
  · simp [digitsAll (n / 10), (digitFacts (n % 10) (by omega)).1]
termination_by n
decreasing_by omega

theorem foldDigits (n : Nat) : (digits n).foldl fold 0 = n := by
  rw [digits]
  split
  · rename_i small; simp [fold, (digitFacts n small).2]
  · rw [List.foldl_append, foldDigits (n / 10)]
    simp only [List.foldl_cons, List.foldl_nil, fold, (digitFacts (n % 10) (by omega)).2]
    omega
termination_by n
decreasing_by omega

theorem valueDigits (n : Nat) : value? (digits n) = some n := by
  simp [value?, digitsNeNil, digitsAll, foldDigits]

end AtomicUpdate.Json.Decimal
