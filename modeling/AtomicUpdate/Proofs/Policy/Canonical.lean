import AtomicUpdate.Proofs.Json.Integers
import AtomicUpdate.Proofs.Policy.Overlay

/-! A policy is written as a text that says all of its fields, so reading gives it back. Whatever text a policy
was read from, the one that is written for it stands for all of them. -/
namespace AtomicUpdate.Policy
open Json (Tree Piece Part Blank Quoted Written Spells)

def plain (name : String) : List Piece := name.toList.map .char

def Plain (name : String) : Prop :=
  (name.toList.all fun c => 0x20 ≤ c.toNat && c ≠ '"' && c ≠ '\\') = true

def tree (p : Policy) : Tree :=
  .object [(plain "durability", .object [(plain "sync_on_commit", .bool p.durability.syncOnCommit)]),
    (plain "commit", .object [(plain "exdev", .string (plain (crossDeviceText p.commit.exdev)))]),
    (plain "locking", .object [(plain "timeout_ms", .number (Json.Decimal.digits p.locking.timeoutMs.toNat))])]

section Grammar
variable {name : String} {t : Tree} {cs : List Char}

theorem plainText (name : String) : Piece.text? (plain name) = some name.toList := by
  unfold plain
  induction name.toList with
  | nil => rfl
  | cons c cs ih => simp [Piece.text?, ih]

theorem plainQuoted (visible : Plain name) : Quoted name.toList (plain name) := by
  unfold Plain at visible
  unfold plain
  generalize name.toList = cs at visible
  induction cs with
  | nil => exact .empty
  | cons c cs ih =>
    simp only [List.all_cons, Bool.and_eq_true, decide_eq_true_eq] at visible
    obtain ⟨⟨⟨inked, unquoted⟩, unescaped⟩, rest⟩ := visible
    exact .plain inked unquoted unescaped (ih (by simpa using rest))

theorem bareItem (value : Written (.value t) cs) : Written (.item t) cs := by
  have item := Written.item (b := []) (a := []) nofun value nofun
  simpa using item

theorem bareMember (name : String) (visible : Plain name) (value : Written (.value t) cs) :
    Written (.member (plain name) t) ('"' :: name.toList ++ '"' :: ':' :: cs) := by
  have member := Written.member (b := []) (a := []) nofun (plainQuoted visible) nofun (bareItem value)
  simpa using member

theorem onlyMember (name : String) (visible : Plain name) (value : Written (.value t) cs) :
    Written (.value (.object [(plain name, t)])) ('{' :: ('"' :: name.toList ++ '"' :: ':' :: cs) ++ ['}']) :=
  .object (.lastMember (bareMember name visible value))

theorem plainString (visible : Plain name) : Written (.value (.string (plain name))) ('"' :: name.toList ++ ['"']) :=
  .string (plainQuoted visible)

theorem boolWritten (b : Bool) : Written (.value (.bool b)) (boolText b).toList := by
  cases b with
  | true => exact .yes
  | false => exact .no

end Grammar

theorem writtenSpells (p : Policy) : Spells (write p).toList (tree p) := by
  have exdev : Plain (crossDeviceText p.commit.exdev) := by
    cases p.commit.exdev <;> simp [Plain, crossDeviceText]
  have number := (Json.digitsWhole p.locking.timeoutMs.toNat).bare
  have durability := onlyMember "sync_on_commit" (by simp [Plain]) (boolWritten p.durability.syncOnCommit)
  have commit := onlyMember "exdev" (by simp [Plain]) (plainString exdev)
  have locking := onlyMember "timeout_ms" (by simp [Plain]) (.number number)
  have whole := bareItem (.object
    (.anotherMember (bareMember "durability" (by simp [Plain]) durability)
      (.anotherMember (bareMember "commit" (by simp [Plain]) commit)
        (.lastMember (bareMember "locking" (by simp [Plain]) locking)))))
  unfold write
  simpa [tree, Spells] using whole

def whole (p : Policy) : Overlay where
  durability := some (some p.durability.syncOnCommit)
  commit := some (some p.commit.exdev)
  locking := some (some p.locking.timeoutMs)

theorem wholeDocument (p : Policy) : Document p.whole (tree p) := by
  have legible : ∀ name t, Legible [(plain name, t)] := by
    intro name t m mem
    rw [List.mem_singleton.mp mem, plainText]
    rfl
  have group : ∀ {α : Type} {means : α → Tree → Prop} {a : α} {t : Tree} (name : String), means a t →
      Group name means (some a) (.object [(plain name, t)]) := fun name valid =>
    .object (legible name _) (.given (valuesNamed (plainText name) _) valid)
  refine .object ?_ (.given rfl (group _ rfl)) (.given rfl (group _ (.name (plainText _)))) (.given rfl (group _ rfl))
  simp [Legible, plainText]

theorem readWritten (p : Policy) : read (write p) = .ok p := by
  rw [readSpelled (writtenSpells p), documentTree (wholeDocument p)]
  rfl

def canonical (text : String) : Except Errno String := (read text).map write

theorem writeInjective : Function.Injective write := by
  intro p q same
  have read := readWritten p
  rw [same, readWritten q] at read
  exact (Except.ok.inj read).symm

theorem canonicalExact {text text' : String} {p : Policy} (accepted : read text = .ok p) :
    canonical text' = canonical text ↔ read text' = read text := by
  unfold canonical
  rw [accepted]
  constructor
  · intro same
    cases answer : read text' with
    | error e =>
      rw [answer] at same
      cases same
    | ok q =>
      rw [answer] at same
      rw [writeInjective (Except.ok.inj same)]
  · intro same
    rw [same]

theorem writtenStandsForAll :
    (∀ p, Spells (write p).toList (tree p) ∧ read (write p) = .ok p) ∧ Function.Injective write ∧
      ∀ text p, read text = .ok p → canonical text = .ok (write p) ∧ read (write p) = read text ∧
        ∀ text', canonical text' = canonical text ↔ read text' = read text := by
  refine ⟨fun p => ⟨writtenSpells p, readWritten p⟩, writeInjective, fun text p accepted => ⟨?_, ?_, fun text' => ?_⟩⟩
  · rw [canonical, accepted]
    rfl
  · rw [readWritten, accepted]
  · exact canonicalExact accepted

theorem arraysRewritten :
    let p : Policy := { commit := { exdev := .copyFallback }, locking := { timeoutMs := 18446744073709551615 } }
    let text := " [ [ ],\x7b\"x\":[null],\"exdev\":\x7b\"copy_fallback\":null\x7d\x7d,[18446744073709551615] ]"
    let written := "\x7b\"durability\":\x7b\"sync_on_commit\":true\x7d," ++
      "\"commit\":\x7b\"exdev\":\"copy_fallback\"\x7d," ++
      "\"locking\":\x7b\"timeout_ms\":18446744073709551615\x7d\x7d"
    read text = .ok p ∧ canonical text = .ok written ∧ read written = .ok p := by
  intro p text written
  have accepted : read text = .ok p := by
    simp only [read, text, String.reduceToList]
    rfl
  have same : write p = written := by
    decide +kernel
  obtain ⟨canon, again, _⟩ := writtenStandsForAll.2.2 text p accepted
  rw [same] at canon again
  exact ⟨accepted, canon, again.trans accepted⟩

end AtomicUpdate.Policy
