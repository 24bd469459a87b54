import AtomicUpdate.Proofs.Policy.Overlay

/-! One field's place in a group, in either form of it. What stands there is what the field is read from, and
the other fields are read as before whatever is put there. -/
namespace AtomicUpdate.Policy
open Json (Tree Piece)

inductive Within (name : String) (i : Nat) : (Tree → Tree) → Prop
  | named {before after key} (text : Piece.text? key = some name.toList) :
      Within name i fun t => .object (before ++ (key, t) :: after)
  | placed {before after} (at' : before.length = i) : Within name i fun t => .array (before ++ t :: after)

variable {known : List String} {name name' : String} {key : List Piece} {i : Nat} {C : Tree → Tree} {t u : Tree}
  {ts : List Tree} {ms before after : List Member} {g : Given}

theorem givenExact (distinct : known.Nodup) : (∃ g, given known (.object ms) = some g) ↔
    Legible ms ∧ ∀ name ∈ known, (valuesOf name ms).length ≤ 1 := by
  constructor
  · rintro ⟨g, taken⟩
    exact ⟨(addMembersOf distinct (List.length_map _) taken).1, fun name mem => givenOnce distinct taken mem⟩
  · rintro ⟨legible, once⟩
    exact givenTakes distinct legible once

theorem heldElement (taken : given known (.array ts) = some g) :
    ts.length ≤ known.length ∧ ∀ i, holding g i = ts[i]? := by
  rw [given] at taken
  split at taken
  · rename_i few
    cases taken
    refine ⟨few, fun i => ?_⟩
    rw [holding, List.getElem?_append, List.getElem?_map, List.getElem?_replicate, List.length_map]
    by_cases inside : i < ts.length
    · simp [inside]
    · rw [if_neg inside, List.getElem?_eq_none (Nat.le_of_not_lt inside)]
      split <;> rfl
  · cases taken

theorem valuesAt (text : Piece.text? key = some name.toList) (t : Tree) :
    valuesOf name (before ++ (key, t) :: after) = valuesOf name before ++ t :: valuesOf name after := by
  rw [valuesAppend, valuesCons, valuesNamed text, List.singleton_append]

theorem valuesElse (text : Piece.text? key = some name.toList) (other : name' ≠ name) (t : Tree) :
    valuesOf name' (before ++ (key, t) :: after) = valuesOf name' (before ++ after) := by
  have apart : Piece.text? key ≠ some name'.toList := by
    rw [text]
    exact fun same => other (String.toList_injective (Option.some.inj same)).symm
  rw [valuesAppend, valuesCons, valuesOther apart, List.nil_append, valuesAppend]

theorem Within.holds (within : Within name i C) (distinct : known.Nodup) (at' : known[i]? = some name)
    (taken : given known (C t) = some g) : holding g i = some t := by
  cases within with
  | @named before after key text =>
    have held := givenOf distinct taken i at'
    have once := givenOnce distinct taken (List.mem_of_getElem? at')
    rw [valuesAt text] at held once
    rw [List.length_append, List.length_cons] at once
    have none : (valuesOf name before).length = 0 ∧ (valuesOf name after).length = 0 := by omega
    rw [List.length_eq_zero_iff, List.length_eq_zero_iff] at none
    rw [none.1, none.2] at held
    exact Option.toList_eq_singleton_iff.mp held
  | placed at' =>
    rw [(heldElement taken).2, ← at']
    simp

theorem Within.refill (within : Within name i C) (distinct : known.Nodup) (at' : known[i]? = some name)
    (taken : given known (C t) = some g) (u : Tree) : ∃ g', given known (C u) = some g' ∧
      ∀ j, j < known.length → j ≠ i → holding g' j = holding g j := by
  cases within with
  | @named before after key text =>
    obtain ⟨legible, once⟩ := (givenExact distinct).mp ⟨g, taken⟩
    have other : ∀ j (inside : j < known.length), j ≠ i → known[j] ≠ name := by
      intro j inside apart same
      obtain ⟨inside', here⟩ := List.getElem?_eq_some_iff.mp at'
      exact apart ((List.Nodup.getElem_inj_iff distinct).mp (same.trans here.symm))
    have legible' : Legible (before ++ (key, u) :: after) := by
      simpa [Legible, or_imp, forall_and] using legible
    obtain ⟨g', taken'⟩ := givenTakes distinct legible' fun name' mem => by
      have short := once name' mem
      by_cases same : name' = name
      · subst same
        rw [valuesAt text] at short ⊢
        simpa using short
      · rw [valuesElse text same] at short ⊢
        exact short
    refine ⟨g', taken', fun j inside apart => ?_⟩
    have at'' : known[j]? = some known[j] := List.getElem?_eq_getElem inside
    have held := givenOf distinct taken j at''
    have held' := givenOf distinct taken' j at''
    rw [valuesElse text (other j inside apart)] at held held'
    rw [← held] at held'
    generalize holding g j = a at held'
    generalize holding g' j = b at held'
    cases a <;> cases b <;> simp_all
  | @placed before after place =>
    obtain ⟨few, held⟩ := heldElement taken
    have few' : (before ++ u :: after).length ≤ known.length := by simpa using few
    have taken' : given known (.array (before ++ u :: after)) = some _ := if_pos few'
    refine ⟨_, taken', fun j _ apart => ?_⟩
    rw [(heldElement taken').2, held, List.getElem?_append, List.getElem?_append]
    split
    · rfl
    · have beyond : ∃ k, j - before.length = k + 1 := ⟨j - before.length - 1, by omega⟩
      obtain ⟨k, same⟩ := beyond
      rw [same]
      rfl

theorem Within.read {α : Type} (within : Within name i C) (distinct : known.Nodup) (at' : known[i]? = some name)
    (taken : given known (C t) = some g) (default : α) (reading : Tree → Option α) :
    fieldOr default reading g i = reading t := by
  rw [fieldHolding, within.holds distinct at' taken]

theorem fieldKept {α : Type} {g g' : Given} (kept : holding g' i = holding g i) (default : α)
    (reading : Tree → Option α) : fieldOr default reading g' i = fieldOr default reading g i := by
  rw [fieldHolding, fieldHolding, kept]

theorem groupRefused {group field : String} (at' : groups[i]? = some (group, field)) (within : Within group i C)
    (durability : readDurability u = none) (commit : readCommitFlow u = none) (locking : readLocking u = none) :
    ofTree (C u) = none := by
  have known' : (groups.map (·.1))[i]? = some group := by
    rw [List.getElem?_map, at']
    rfl
  rw [ofTreeGiven]
  refine Option.bind_eq_none_iff.mpr fun g taken => ofGroupsNone ?_
  have spoiled : ∀ {α : Type} (default : α) {reading : Tree → Option α}, reading u = none →
      fieldOr default reading g i = none := fun default reading refused =>
    (within.read groupsDistinct known' taken default reading).trans refused
  have small : i < 3 := (List.getElem?_eq_some_iff.mp at').1
  obtain rfl | rfl | rfl : i = 0 ∨ i = 1 ∨ i = 2 := by omega
  · exact Or.inl (spoiled {} durability)
  · exact Or.inr (Or.inl (spoiled {} commit))
  · exact Or.inr (Or.inr (spoiled {} locking))

end AtomicUpdate.Policy
