import AtomicUpdate.Limits

/-! Names that nobody has used. A template ends in a placeholder of six characters, and a name
is made from it by putting a drawn suffix in the placeholder's stead. -/
namespace AtomicUpdate

def suffixChars : List Char :=
  "ABCDEFGHIJKLMNOPQRSTUVWXYZabcdefghijklmnopqrstuvwxyz0123456789".toList

structure Suffix where
  chars : List Char
  length_eq : chars.length = 6
  drawn : ∀ c ∈ chars, c ∈ suffixChars

namespace Suffix

def pick (n : Nat) : Char := suffixChars[n % 62]?.getD 'A'

theorem pickMem (n : Nat) : pick n ∈ suffixChars := by
  have bound : n % 62 < suffixChars.length := Nat.mod_lt n (by decide)
  simp only [pick, List.getElem?_eq_getElem bound, Option.getD_some]
  exact List.getElem_mem bound

def ofNats (a b c d e f : Nat) : Suffix where
  chars := [pick a, pick b, pick c, pick d, pick e, pick f]
  length_eq := rfl
  drawn := by
    intro x member
    simp only [List.mem_cons, List.not_mem_nil, or_false] at member
    rcases member with h | h | h | h | h | h <;> (rw [h]; exact pickMem _)

def scattered (seed : Nat) : Suffix :=
  let step (x : Nat) : Nat := (x * 6364136223846793005 + 1442695040888963407) % (1 <<< 64)
  let a := step (step (seed + 7919))
  let b := step a
  let c := step b
  let d := step c
  let e := step d
  let f := step e
  ofNats (a >>> 33) (b >>> 33) (c >>> 33) (d >>> 33) (e >>> 33) (f >>> 33)

end Suffix

namespace Template

def ofBase (base : String) : String := base ++ Limits.tempSuffix

def stem? (template : String) : Option (List Char) :=
  let chars := template.toList
  let stem := chars.take (chars.length - 6)
  if stem ++ Limits.placeholder.toList = chars then some stem else none

def fill (stem : List Char) (s : Suffix) : String := String.ofList (stem ++ s.chars)

end Template
end AtomicUpdate
