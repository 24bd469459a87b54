import AtomicUpdate.Proofs.Policy.Place

/-! A group is an object, or an array of its first fields, and whoever reads it cannot tell which it was. So a
document says the same with each of its groups turned into an object; only an array with too many elements
is not a group at all. -/
namespace AtomicUpdate.Policy
open Json (Tree Piece Spells)

abbrev Turned := Tree → Tree → Prop

inductive Rows : List (String × Turned) → List Tree → List Member → Prop
  | nil {fields} : Rows fields [] []
  | cons {name turned fields key t t' ts ms} (text : Piece.text? key = some name.toList) (value : turned t t')
      (more : Rows fields ts ms) : Rows ((name, turned) :: fields) (t :: ts) ((key, t') :: ms)

inductive Remade (fields : List (String × Turned)) : Member → Member → Prop
  | known {name turned key t t'} (mem : (name, turned) ∈ fields) (text : Piece.text? key = some name.toList)
      (value : turned t t') : Remade fields (key, t) (key, t')
  | other {key t} (unknown : ∀ name ∈ fields.map (·.1), Piece.text? key ≠ some name.toList) :
      Remade fields (key, t) (key, t)

inductive Keyed (fields : List (String × Turned)) : Turned
  | array {ts ms} (rows : Rows fields ts ms) : Keyed fields (.array ts) (.object ms)
  | object {ms ms'} (members : List.Forall₂ (Remade fields) ms ms') : Keyed fields (.object ms) (.object ms')

inductive NameOf : Turned
  | name {ps} : NameOf (.string ps) (.string ps)
  | object {ps} : NameOf (.object [(ps, .null)]) (.string ps)

def KeyedPolicy : Turned := Keyed [("durability", Keyed [("sync_on_commit", Eq)]),
  ("commit", Keyed [("exdev", NameOf)]), ("locking", Keyed [("timeout_ms", Eq)])]

section Groups
variable {fields : List (String × Turned)} {name : String} {turned : Turned} {t t' : Tree} {ts : List Tree}
  {ms ms' : List Member} {g g' : Given}

theorem rowsNamed (rows : Rows fields ts ms) : Legible ms ∧ ts.length ≤ fields.length ∧
    ∀ name, name ∉ fields.map (·.1) → valuesOf name ms = [] := by
  induction rows with
  | nil => exact ⟨nofun, Nat.zero_le _, fun _ _ => rfl⟩
  | @cons name turned fields key t t' ts ms text value more ih =>
    obtain ⟨legible, few, others⟩ := ih
    refine ⟨List.forall_mem_cons.mpr ⟨by rw [text]; rfl, legible⟩, Nat.succ_le_succ few, fun name' unknown => ?_⟩
    rw [List.map_cons, List.mem_cons, not_or] at unknown
    have here : valuesOf name' [(key, t')] = [] := by
      refine valuesOther (fun same => unknown.1 ?_) t'
      rw [text, Option.some.injEq] at same
      exact (String.toList_injective same).symm
    rw [valuesCons, here, others name' unknown.2]
    rfl

theorem rowsValues (distinct : (fields.map (·.1)).Nodup) (rows : Rows fields ts ms) {i : Nat}
    (at' : fields[i]? = some (name, turned)) : List.Forall₂ turned ts[i]?.toList (valuesOf name ms) := by
  induction rows generalizing i with
  | nil => exact .nil
  | @cons first turned' fields key t t' ts ms text value more ih =>
    rw [List.map_cons, List.nodup_cons] at distinct
    rw [valuesCons]
    cases i with
    | zero =>
      cases at'
      rw [valuesNamed text, (rowsNamed more).2.2 _ distinct.1]
      exact .cons value .nil
    | succ i =>
      have mem : name ∈ fields.map (·.1) := List.mem_map.mpr ⟨_, List.mem_of_getElem? at', rfl⟩
      have other : Piece.text? key ≠ some name.toList := by
        rw [text]
        intro same
        rw [String.toList_injective (Option.some.inj same)] at distinct
        exact distinct.1 mem
      rw [valuesOther other]
      exact ih distinct.2 at'

theorem remadeLegible (members : List.Forall₂ (Remade fields) ms ms') : Legible ms ↔ Legible ms' := by
  induction members with
  | nil => rfl
  | cons member more ih =>
    have key : ∀ {m m' : Member}, Remade fields m m' → m.1 = m'.1 := fun remade => by cases remade <;> rfl
    simp only [Legible, List.forall_mem_cons, key member]
    exact and_congr_right fun _ => ih

theorem remadeValues (distinct : (fields.map (·.1)).Nodup) (members : List.Forall₂ (Remade fields) ms ms')
    (mem : (name, turned) ∈ fields) : List.Forall₂ turned (valuesOf name ms) (valuesOf name ms') := by
  induction members with
  | nil => exact .nil
  | @cons m m' ms ms' member more ih =>
    rw [valuesCons, valuesCons name m']
    refine List.rel_append ?_ ih
    cases member with
    | @known name' turned' key t t' mem' text value =>
      by_cases same : name' = name
      · subst same
        have one : turned' = turned := by
          have := List.inj_on_of_nodup_map distinct mem' mem rfl
          exact (Prod.mk.inj this).2
        subst one
        rw [valuesNamed text, valuesNamed text]
        exact .cons value .nil
      · have other : Piece.text? key ≠ some name.toList := by
          rw [text]
          exact fun also => same (String.toList_injective (Option.some.inj also))
        rw [valuesOther other, valuesOther other]
        exact .nil
    | @other key t unknown =>
      have other := unknown name (List.mem_map.mpr ⟨_, mem, rfl⟩)
      rw [valuesOther other]
      exact .nil

def Taken (fields : List (String × Turned)) (g g' : Given) : Prop :=
  ∀ (i : Nat) name turned, fields[i]? = some (name, turned) → Option.Rel turned (holding g i) (holding g' i)

theorem relLists {α β : Type} {r : α → β → Prop} {a : Option α} {b : Option β}
    (each : List.Forall₂ r a.toList b.toList) : Option.Rel r a b := by
  cases a <;> cases b <;> cases each
  · exact .none
  · exact .some (by assumption)

theorem keyedGiven {known : List String} (distinct : known.Nodup) (names : fields.map (·.1) = known)
    (keyed : Keyed fields t t') : given known t = none ∧ given known t' = none ∨
      ∃ g g', given known t = some g ∧ given known t' = some g' ∧ Taken fields g g' := by
  subst names
  have named : ∀ {i : Nat} {name turned}, fields[i]? = some (name, turned) →
      (fields.map (·.1))[i]? = some name := by
    intro i name turned at'
    rw [List.getElem?_map, at']
    rfl
  cases keyed with
  | @array ts ms rows =>
    obtain ⟨legible, few, _⟩ := rowsNamed rows
    have taken : given (fields.map (·.1)) (.array ts) = some _ := if_pos (by simpa using few)
    have once : ∀ name ∈ fields.map (·.1), (valuesOf name ms).length ≤ 1 := by
      intro name mem
      obtain ⟨⟨_, turned⟩, mem', rfl⟩ := List.mem_map.mp mem
      obtain ⟨i, at'⟩ := List.getElem?_of_mem mem'
      rw [← (rowsValues distinct rows at').length_eq]
      cases ts[i]? <;> simp
    obtain ⟨g', taken'⟩ := givenTakes distinct legible once
    refine Or.inr ⟨_, g', taken, taken', fun i name turned at' => relLists ?_⟩
    rw [(heldElement taken).2, givenOf distinct taken' i (named at')]
    exact rowsValues distinct rows at'
  | @object ms ms' members =>
    have values : ∀ {name turned}, (name, turned) ∈ fields →
        List.Forall₂ turned (valuesOf name ms) (valuesOf name ms') := remadeValues distinct members
    have both : (∃ g, given (fields.map (·.1)) (.object ms) = some g) ↔
        ∃ g, given (fields.map (·.1)) (.object ms') = some g := by
      rw [givenExact distinct, givenExact distinct, remadeLegible members]
      refine and_congr_right fun _ => forall₂_congr fun name mem => ?_
      obtain ⟨⟨_, turned⟩, mem', rfl⟩ := List.mem_map.mp mem
      rw [(values mem').length_eq]
    cases taken : given (fields.map (·.1)) (.object ms) with
    | none =>
      refine Or.inl ⟨rfl, Option.eq_none_iff_forall_ne_some.mpr fun g' taken' => ?_⟩
      obtain ⟨g, also⟩ := both.mpr ⟨g', taken'⟩
      rw [taken] at also
      cases also
    | some g =>
      obtain ⟨g', taken'⟩ := both.mp ⟨g, taken⟩
      refine Or.inr ⟨g, g', rfl, taken', fun i name turned at' => relLists ?_⟩
      rw [givenOf distinct taken i (named at'), givenOf distinct taken' i (named at')]
      exact values (List.mem_of_getElem? at')

variable {α β : Type} {read : Tree → Option α}

theorem fieldSame (taken : Taken fields g g') {i : Nat} (at' : fields[i]? = some (name, turned))
    (same : ∀ t t', turned t t' → read t = read t') (default : α) :
    fieldOr default read g i = fieldOr default read g' i := by
  have rel := taken i name turned at'
  rw [fieldHolding, fieldHolding]
  generalize holding g i = a at rel
  generalize holding g' i = b at rel
  cases rel with
  | none => rfl
  | some value => exact same _ _ value

theorem groupSame (keyed : Keyed [(name, turned)] t t') (same : ∀ t t', turned t t' → read t = read t')
    (default : α) (make : α → β) :
    (do
      let g ← given [name] t
      let a ← fieldOr default read g 0
      some (make a)) =
    (do
      let g ← given [name] t'
      let a ← fieldOr default read g 0
      some (make a)) := by
  rcases keyedGiven (List.nodup_singleton name) rfl keyed with ⟨refused, refused'⟩ | ⟨g, g', taken, taken', both⟩
  · rw [refused, refused']
  · simp only [taken, taken', Option.bind_eq_bind, Option.bind_some, fieldSame (i := 0) both rfl same]

end Groups

theorem nameSame (t t' : Tree) (turned : NameOf t t') : readCrossDevice t = readCrossDevice t' := by
  cases turned <;> rfl

theorem policySame {t t' : Tree} (keyed : KeyedPolicy t t') : ofTree t = ofTree t' := by
  have durability : ∀ t t', Keyed [("sync_on_commit", Eq)] t t' → readDurability t = readDurability t' :=
    fun t t' keyed => groupSame keyed (fun _ _ => congrArg readBool) _ Durability.mk
  have commit : ∀ t t', Keyed [("exdev", NameOf)] t t' → readCommitFlow t = readCommitFlow t' :=
    fun t t' keyed => groupSame keyed nameSame _ CommitFlow.mk
  have locking : ∀ t t', Keyed [("timeout_ms", Eq)] t t' → readLocking t = readLocking t' :=
    fun t t' keyed => groupSame keyed (fun _ _ => congrArg readWord) _ Locking.mk
  rw [ofTreeGiven, ofTreeGiven]
  rcases keyedGiven groupsDistinct rfl keyed with ⟨refused, refused'⟩ | ⟨g, g', taken, taken', both⟩
  · rw [refused, refused']
  · simp only [taken, taken', Option.bind_some, ofGroups, fieldSame (i := 0) both rfl durability,
      fieldSame (i := 1) both rfl commit, fieldSame (i := 2) both rfl locking]

inductive Overfull : Tree → Prop
  | policy {ts} (many : groups.length < ts.length) : Overfull (.array ts)
  | group {i group field C ts} (at' : groups[i]? = some (group, field)) (within : Within group i C)
      (many : 1 < ts.length) : Overfull (C (.array ts))

theorem overfullGiven {known : List String} {ts : List Tree} (many : known.length < ts.length) :
    given known (.array ts) = none :=
  if_neg (Nat.not_le.mpr many)

theorem overfullTree {t : Tree} (overfull : Overfull t) : ofTree t = none := by
  cases overfull with
  | @policy ts many =>
    rw [ofTreeGiven, overfullGiven (by simpa using many)]
    rfl
  | @group i group field C ts at' within many =>
    have refused : ∀ name, given [name] (.array ts) = none := fun name => overfullGiven many
    refine groupRefused at' within ?_ ?_ ?_
    · rw [readDurability, refused]
      rfl
    · rw [readCommitFlow, refused]
      rfl
    · rw [readLocking, refused]
      rfl

theorem formsAgree :
    (∀ t t', KeyedPolicy t t' → ∀ text text' : String, Spells text.toList t → Spells text'.toList t' →
      read text = read text') ∧
    ∀ t, Overfull t → ∀ text : String, Spells text.toList t → read text = .error .einval := by
  refine ⟨fun t t' keyed text text' spells spells' => ?_, fun t overfull text spells => ?_⟩
  · rw [readSpelled spells, readSpelled spells', policySame keyed]
  · rw [readSpelled spells, overfullTree overfull]

theorem arraysAndObjects :
    let key (name : String) : List Piece := name.toList.map .char
    let sync : List Member := [(key "x", .array []), (key "sync_on_commit", .bool false)]
    let arrays := "[\x7b\"x\":[],\"sync_on_commit\":false\x7d,[\x7b\"copy_fallback\":null\x7d]]"
    let objects := "\x7b\"durability\":\x7b\"x\":[],\"sync_on_commit\":false\x7d," ++
      "\"commit\":\x7b\"exdev\":\"copy_fallback\"\x7d\x7d"
    let overfull := "[[],[],[7,8]]"
    Spells arrays.toList (.array [.object sync, .array [.object [(key "copy_fallback", .null)]]]) ∧
      Spells objects.toList (.object [(key "durability", .object sync),
        (key "commit", .object [(key "exdev", .string (key "copy_fallback"))])]) ∧
      Spells overfull.toList (.array [.array [], .array [], .array [.number ['7'], .number ['8']]]) ∧
      read objects = .ok .relaxed ∧ read arrays = .ok .relaxed ∧ read overfull = .error .einval := by
  intro key sync arrays objects overfull
  have first : Spells arrays.toList (.array [.object sync, .array [.object [(key "copy_fallback", .null)]]]) :=
    (Json.Reader.readExact _ _).mp (by simp only [arrays, sync, key, String.reduceToList]; rfl)
  have second : Spells objects.toList (.object [(key "durability", .object sync),
      (key "commit", .object [(key "exdev", .string (key "copy_fallback"))])]) :=
    (Json.Reader.readExact _ _).mp (by simp only [objects, sync, key, String.reduceAppend, String.reduceToList]; rfl)
  have third : Spells overfull.toList (.array [.array [], .array [], .array [.number ['7'], .number ['8']]]) :=
    (Json.Reader.readExact _ _).mp (by simp only [overfull, String.reduceToList]; rfl)
  have kept : Keyed [("sync_on_commit", Eq)] (.object sync) (.object sync) := by
    refine .object (.cons (.other ?_) (.cons (.known (List.mem_singleton_self _) rfl rfl) .nil))
    decide
  have turned : KeyedPolicy (.array [.object sync, .array [.object [(key "copy_fallback", .null)]]])
      (.object [(key "durability", .object sync),
        (key "commit", .object [(key "exdev", .string (key "copy_fallback"))])]) :=
    .array (.cons rfl kept (.cons rfl (.array (.cons rfl .object .nil)) .nil))
  have tooMany : Overfull (.array [.array [], .array [], .array [.number ['7'], .number ['8']]]) :=
    .group (i := 2) rfl (@Within.placed _ _ [.array [], .array []] [] rfl) (by decide)
  have read' : read objects = .ok .relaxed := by
    simp only [read, objects, String.reduceAppend, String.reduceToList]
    rfl
  exact ⟨first, second, third, read', (formsAgree.1 _ _ turned _ _ first second).trans read',
    formsAgree.2 _ tooMany _ third⟩

end AtomicUpdate.Policy
