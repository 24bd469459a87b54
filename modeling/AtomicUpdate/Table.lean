/-! Finite maps kept as association lists. A key keeps the place where it was first set,
and what `get?` answers after `set` and `erase` is all that a caller has to know. -/
namespace AtomicUpdate

structure Table (α β : Type) where
  entries : List (α × β) := []
  deriving Repr, DecidableEq

namespace Table
variable {α β : Type} [DecidableEq α]

def findIn (k : α) : List (α × β) → Option β
  | [] => none
  | (a, b) :: rest => if a = k then some b else findIn k rest

def putIn (k : α) (v : β) : List (α × β) → List (α × β)
  | [] => [(k, v)]
  | (a, b) :: rest => if a = k then (k, v) :: rest else (a, b) :: putIn k v rest

def empty : Table α β := ⟨[]⟩

def get? (t : Table α β) (k : α) : Option β := findIn k t.entries

def contains (t : Table α β) (k : α) : Bool := (t.get? k).isSome

def set (t : Table α β) (k : α) (v : β) : Table α β := ⟨putIn k v t.entries⟩

def setDefault (t : Table α β) (k : α) (v : β) : Table α β :=
  if t.contains k then t else t.set k v

def erase (t : Table α β) (k : α) : Table α β := ⟨t.entries.filter (fun e => e.1 ≠ k)⟩

def keys (t : Table α β) : List α := t.entries.map (·.1)

def isEmpty (t : Table α β) : Bool := t.entries.isEmpty

def size (t : Table α β) : Nat := t.entries.length

theorem findPut (k j : α) (v : β) (entries : List (α × β)) :
    findIn j (putIn k v entries) = if j = k then some v else findIn j entries := by
  induction entries with
  | nil => simp [putIn, findIn, eq_comm]
  | cons e rest ih =>
      obtain ⟨a, b⟩ := e
      by_cases same : a = k
      · subst same
        by_cases h : j = a
        · simp [putIn, findIn, h]
        · simp [putIn, findIn, h, Ne.symm h]
      · by_cases h : j = k
        · subst h; simp [putIn, findIn, same, ih]
        · simp [putIn, findIn, same, ih, h]

theorem findFilter (k j : α) (entries : List (α × β)) :
    findIn j (entries.filter (fun e => e.1 ≠ k)) = if j = k then none else findIn j entries := by
  induction entries with
  | nil => simp [findIn]
  | cons e rest ih =>
      obtain ⟨a, b⟩ := e
      by_cases same : a = k
      · subst same
        by_cases h : j = a
        · simpa [findIn, h] using ih
        · simpa [findIn, h, Ne.symm h] using ih
      · by_cases h : j = k
        · subst h; simpa [findIn, same] using ih
        · by_cases hj : a = j
          · simp [findIn, hj, h]
          · simpa [findIn, same, hj, h] using ih

@[simp] theorem getEmpty (k : α) : (empty : Table α β).get? k = none := rfl

@[simp] theorem getSet (t : Table α β) (k j : α) (v : β) :
    (t.set k v).get? j = if j = k then some v else t.get? j := findPut k j v t.entries

@[simp] theorem getErase (t : Table α β) (k j : α) :
    (t.erase k).get? j = if j = k then none else t.get? j := findFilter k j t.entries

end Table
end AtomicUpdate
