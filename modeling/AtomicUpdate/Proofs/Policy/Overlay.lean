import AtomicUpdate.Policy.Document
import AtomicUpdate.Proofs.Json.Reading
import Mathlib.Data.List.Nodup

/-! A policy document gives some fields and leaves the others as they are by default. What counts of an object
is what it has under the names that are known; so neither the order of its members matters, nor what stands
under other names, nor how any of it is spelled. A known name that stands twice spoils the whole. -/
namespace AtomicUpdate.Policy
open Json (Tree Piece Spells)

abbrev Member := List Piece × Tree

def Legible (ms : List Member) : Prop := ∀ m ∈ ms, (Piece.text? m.1).isSome = true

def valuesOf (name : String) (ms : List Member) : List Tree :=
  (ms.filter fun m => Piece.text? m.1 = some name.toList).map (·.2)

theorem valuesAppend (name : String) (ms more : List Member) :
    valuesOf name (ms ++ more) = valuesOf name ms ++ valuesOf name more := by
  rw [valuesOf, List.filter_append, List.map_append]
  rfl

theorem valuesCons (name : String) (m : Member) (ms : List Member) :
    valuesOf name (m :: ms) = valuesOf name [m] ++ valuesOf name ms :=
  valuesAppend name [m] ms

theorem valuesNamed {name : String} {key : List Piece} (named : Piece.text? key = some name.toList) (t : Tree) :
    valuesOf name [(key, t)] = [t] := by
  simp [valuesOf, named]

theorem valuesOther {name : String} {key : List Piece} (other : Piece.text? key ≠ some name.toList) (t : Tree) :
    valuesOf name [(key, t)] = [] := by
  simp [valuesOf, other]

def holding (g : Given) (i : Nat) : Option Tree := g[i]?.join

section Given
variable {known : List String} {g g' : Given} {key : List Piece} {t : Tree} {ms : List Member}

theorem keyKnown (distinct : known.Nodup) {text : List Char} (said : Piece.text? key = some text) (t : Tree) :
    known.idxOf? (String.ofList text) = none ∧ (∀ name ∈ known, valuesOf name [(key, t)] = []) ∨
      ∃ i, known.idxOf? (String.ofList text) = some i ∧ i < known.length ∧
        ∀ (j : Nat) name, known[j]? = some name → valuesOf name [(key, t)] = if j = i then [t] else [] := by
  cases found : known.idxOf? (String.ofList text) with
  | none =>
    refine Or.inl ⟨rfl, fun name mem => valuesOther (fun same => ?_) t⟩
    rw [said, Option.some.injEq] at same
    rw [same, String.ofList_toList] at found
    exact List.idxOf?_eq_none_iff.mp found mem
  | some i =>
    obtain ⟨bound, here, _⟩ := List.idxOf?_eq_some_iff.mp found
    refine Or.inr ⟨i, rfl, bound, fun j name at' => ?_⟩
    obtain ⟨bound', rfl⟩ := List.getElem?_eq_some_iff.mp at'
    split
    · rename_i same
      subst same
      exact valuesNamed (by rw [here, String.toList_ofList]; exact said) t
    · rename_i other
      refine valuesOther (fun same => ?_) t
      rw [said, Option.some.injEq] at same
      have alike : known[j] = known[i] := by rw [here, same, String.ofList_toList]
      exact other ((List.Nodup.getElem_inj_iff distinct).mp alike)

theorem addMemberOf (distinct : known.Nodup) (full : g.length = known.length)
    (added : addMember known g key t = some g') : (Piece.text? key).isSome = true ∧ g'.length = known.length ∧
      ∀ (i : Nat) name, known[i]? = some name →
        (holding g' i).toList = (holding g i).toList ++ valuesOf name [(key, t)] := by
  obtain ⟨text, said, rest⟩ := Option.bind_eq_some_iff.mp added
  refine ⟨by rw [said]; rfl, ?_⟩
  rcases keyKnown distinct said t with ⟨unknown, nothing⟩ | ⟨i, found, bound, only⟩
  · rw [unknown] at rest
    cases rest
    refine ⟨full, fun i name at' => ?_⟩
    rw [nothing name (List.mem_of_getElem? at'), List.append_nil]
  · rw [found] at rest
    dsimp only at rest
    split at rest
    · cases rest
    · rename_i free
      cases rest
      refine ⟨List.length_set.trans full, fun j name at' => ?_⟩
      rw [only j name at', holding, holding, List.getElem?_set]
      by_cases same : j = i
      · subst same
        rw [if_pos rfl, if_pos (full ▸ bound), if_pos rfl]
        have empty : g[j]?.join = none := by
          cases slot : g[j]? with
          | none => rfl
          | some slot' =>
            cases slot' with
            | none => rfl
            | some u => exact absurd slot (free u)
        rw [empty]
        rfl
      · rw [if_neg fun back => same back.symm, if_neg same, List.append_nil]

theorem addMemberTakes (distinct : known.Nodup) (legible : (Piece.text? key).isSome = true)
    (once : ∀ (i : Nat) name, known[i]? = some name → valuesOf name [(key, t)] = [] ∨ holding g i = none) :
    ∃ g', addMember known g key t = some g' := by
  obtain ⟨text, said⟩ := Option.isSome_iff_exists.mp legible
  simp only [addMember, said, Option.bind_eq_bind, Option.bind_some]
  rcases keyKnown distinct said t with ⟨unknown, _⟩ | ⟨i, found, bound, only⟩
  · rw [unknown]
    exact ⟨g, rfl⟩
  · have at' : known[i]? = some known[i] := List.getElem?_eq_getElem bound
    have free : holding g i = none := by
      refine (once i _ at').resolve_left fun nothing => ?_
      rw [only i _ at', if_pos rfl] at nothing
      cases nothing
    rw [found]
    dsimp only
    split
    · rename_i u taken
      rw [holding, taken] at free
      cases free
    · exact ⟨_, rfl⟩

theorem addMembersOf (distinct : known.Nodup) (full : g.length = known.length)
    (added : addMembers known g ms = some g') : Legible ms ∧ g'.length = known.length ∧
      ∀ (i : Nat) name, known[i]? = some name →
        (holding g' i).toList = (holding g i).toList ++ valuesOf name ms := by
  induction ms generalizing g with
  | nil =>
    cases added
    exact ⟨nofun, full, fun i name at' => (List.append_nil _).symm⟩
  | cons m ms ih =>
    obtain ⟨key, t⟩ := m
    obtain ⟨g₁, first, rest⟩ := Option.bind_eq_some_iff.mp added
    obtain ⟨legible, full₁, one⟩ := addMemberOf distinct full first
    obtain ⟨legible', full', others⟩ := ih full₁ rest
    refine ⟨List.forall_mem_cons.mpr ⟨legible, legible'⟩, full', fun i name at' => ?_⟩
    rw [others i name at', one i name at', List.append_assoc, ← valuesCons]

theorem addMembersTakes (distinct : known.Nodup) (full : g.length = known.length) (legible : Legible ms)
    (once : ∀ (i : Nat) name, known[i]? = some name →
      ((holding g i).toList ++ valuesOf name ms).length ≤ 1) : ∃ g', addMembers known g ms = some g' := by
  induction ms generalizing g with
  | nil => exact ⟨g, rfl⟩
  | cons m ms ih =>
    obtain ⟨key, t⟩ := m
    obtain ⟨legible, legible'⟩ := List.forall_mem_cons.mp legible
    obtain ⟨g₁, first⟩ := addMemberTakes (g := g) (t := t) distinct legible fun i name at' => by
      have short := once i name at'
      rw [valuesCons] at short
      cases holds : holding g i with
      | none => exact Or.inr rfl
      | some u =>
        rw [holds] at short
        simp only [Option.toList_some, List.length_append, List.length_singleton] at short
        have nothing : (valuesOf name [(key, t)]).length = 0 := by omega
        exact Or.inl (List.eq_nil_of_length_eq_zero nothing)
    obtain ⟨_, full₁, one⟩ := addMemberOf distinct full first
    obtain ⟨g', rest⟩ := ih full₁ legible' fun i name at' => by
      rw [one i name at', List.append_assoc, ← valuesCons]
      exact once i name at'
    exact ⟨g', by rw [addMembers, first]; exact rest⟩

theorem holdingBlank (known : List String) (i : Nat) : holding (known.map fun _ => none) i = none := by
  rw [holding, List.getElem?_map]
  cases known[i]? <;> rfl

theorem givenOf (distinct : known.Nodup) (taken : given known (.object ms) = some g) (i : Nat) {name : String}
    (at' : known[i]? = some name) : (holding g i).toList = valuesOf name ms := by
  obtain ⟨_, _, all⟩ := addMembersOf distinct (List.length_map _) taken
  rw [all i name at', holdingBlank]
  rfl

theorem givenTakes (distinct : known.Nodup) (legible : Legible ms)
    (once : ∀ name ∈ known, (valuesOf name ms).length ≤ 1) : ∃ g, given known (.object ms) = some g := by
  refine addMembersTakes distinct (List.length_map _) legible fun i name at' => ?_
  rw [holdingBlank]
  exact once name (List.mem_of_getElem? at')

theorem givenOnce (distinct : known.Nodup) (taken : given known (.object ms) = some g) {name : String}
    (mem : name ∈ known) : (valuesOf name ms).length ≤ 1 := by
  obtain ⟨i, at'⟩ := List.getElem?_of_mem mem
  rw [← givenOf distinct taken i at']
  cases holding g i <;> simp

theorem fieldHolding {α : Type} (default : α) (read : Tree → Option α) (g : Given) (i : Nat) :
    fieldOr default read g i = match holding g i with
      | some t => read t
      | none => some default := by
  unfold fieldOr holding
  cases g[i]? with
  | none => rfl
  | some slot => cases slot <;> rfl

end Given

inductive Field {α : Type} (name : String) (means : α → Tree → Prop) (ms : List Member) : Option α → Prop
  | absent (nothing : valuesOf name ms = []) : Field name means ms none
  | given {a t} (one : valuesOf name ms = [t]) (valid : means a t) : Field name means ms (some a)

inductive Group {α : Type} (name : String) (means : α → Tree → Prop) : Option α → Tree → Prop
  | object {o ms} (legible : Legible ms) (field : Field name means ms o) : Group name means o (.object ms)

inductive SaysDevice (x : CrossDevice) : Tree → Prop
  | name {ps} (text : Piece.text? ps = some (crossDeviceText x).toList) : SaysDevice x (.string ps)
  | object {ps} (text : Piece.text? ps = some (crossDeviceText x).toList) : SaysDevice x (.object [(ps, .null)])

def SaysBool (b : Bool) (t : Tree) : Prop := t = .bool b

def SaysWord (n : UInt64) (t : Tree) : Prop := t = .number (Json.Decimal.digits n.toNat)

structure Overlay where
  durability : Option (Option Bool) := none
  commit : Option (Option CrossDevice) := none
  locking : Option (Option UInt64) := none

def Overlay.policy (o : Overlay) : Policy where
  durability := { syncOnCommit := o.durability.join.getD ({} : Policy).durability.syncOnCommit }
  commit := { exdev := o.commit.join.getD ({} : Policy).commit.exdev }
  locking := { timeoutMs := o.locking.join.getD ({} : Policy).locking.timeoutMs }

inductive Document (o : Overlay) : Tree → Prop
  | object {ms} (legible : Legible ms)
      (durability : Field "durability" (Group "sync_on_commit" SaysBool) ms o.durability)
      (commit : Field "commit" (Group "exdev" SaysDevice) ms o.commit)
      (locking : Field "locking" (Group "timeout_ms" SaysWord) ms o.locking) : Document o (.object ms)

section Fields
variable {α β : Type} {known : List String} {ms : List Member} {g : Given} {name : String}
  {means : α → Tree → Prop} {o : Option α}

theorem Field.once (field : Field name means ms o) : (valuesOf name ms).length ≤ 1 := by
  cases field with
  | absent nothing => rw [nothing]; exact Nat.zero_le 1
  | given one valid => rw [one]; exact Nat.le_refl 1

theorem Field.read (field : Field name means ms o) (distinct : known.Nodup)
    (taken : Policy.given known (.object ms) = some g) (i : Nat) (at' : known[i]? = some name)
    (read : Tree → Option β) {f : α → β} (reads : ∀ {a t}, means a t → read t = some (f a)) (default : β) :
    fieldOr default read g i = some ((o.map f).getD default) := by
  have held := givenOf distinct taken i at'
  rw [fieldHolding]
  cases field with
  | absent nothing =>
    rw [nothing] at held
    rw [Option.toList_eq_nil_iff.mp held]
    rfl
  | @given a t one valid =>
    rw [one] at held
    rw [Option.toList_eq_singleton_iff.mp held]
    exact reads valid

theorem Group.read {t : Tree} (group : Group name means o t) {read : Tree → Option α}
    (reads : ∀ {a t}, means a t → read t = some a) (default : α) (make : α → β) :
    (do
      let g ← Policy.given [name] t
      let a ← fieldOr default read g 0
      some (make a)) = some (make (o.getD default)) := by
  cases group with
  | object legible field =>
    obtain ⟨g, taken⟩ := givenTakes (List.nodup_singleton name) legible fun name' mem => by
      rw [List.mem_singleton.mp mem]
      exact field.once
    have one := field.read (List.nodup_singleton name) taken 0 rfl read (f := id) reads default
    rw [Option.map_id] at one
    rw [taken]
    change (fieldOr default read g 0 >>= fun a => some (make a)) = _
    rw [one]
    rfl

end Fields

theorem deviceRead {x : CrossDevice} {t : Tree} (said : SaysDevice x t) : readCrossDevice t = some x := by
  have named : ∀ {ps}, Piece.text? ps = some (crossDeviceText x).toList → variant? ps = some x := by
    intro ps text
    rw [variant?, text]
    cases x <;> decide
  cases said with
  | name text => exact named text
  | object text => exact named text

theorem wordRead {n : UInt64} {t : Tree} (said : SaysWord n t) : readWord t = some n := by
  cases said
  rw [readWord, Json.Decimal.valueDigits]
  change (if n.toNat < UInt64.size then some (UInt64.ofNat n.toNat) else none) = _
  rw [if_pos n.toNat_lt, UInt64.ofNat_toNat]

theorem boolRead {b : Bool} {t : Tree} (said : SaysBool b t) : readBool t = some b := by
  cases said
  rfl

def groups : List (String × String) :=
  [("durability", "sync_on_commit"), ("commit", "exdev"), ("locking", "timeout_ms")]

theorem groupsDistinct : (groups.map (·.1)).Nodup := by decide

def ofGroups (g : Given) : Option Policy := do
  let durability ← fieldOr {} readDurability g 0
  let commit ← fieldOr {} readCommitFlow g 1
  let locking ← fieldOr {} readLocking g 2
  some { durability, commit, locking }

theorem ofTreeGiven (t : Tree) : ofTree t = (given (groups.map (·.1)) t).bind ofGroups := rfl

theorem ofGroupsExact {g : Given} {p : Policy} : ofGroups g = some p ↔
    fieldOr {} readDurability g 0 = some p.durability ∧ fieldOr {} readCommitFlow g 1 = some p.commit ∧
      fieldOr {} readLocking g 2 = some p.locking := by
  obtain ⟨durability, commit, locking⟩ := p
  simp [ofGroups, Option.bind_eq_some_iff]

theorem ofGroupsNone {g : Given} (spoiled : fieldOr {} readDurability g 0 = none ∨
    fieldOr {} readCommitFlow g 1 = none ∨ fieldOr {} readLocking g 2 = none) : ofGroups g = none := by
  refine Option.eq_none_iff_forall_ne_some.mpr fun p taken => ?_
  obtain ⟨durability, commit, locking⟩ := ofGroupsExact.mp taken
  rcases spoiled with none | none | none
  · cases none.symm.trans durability
  · cases none.symm.trans commit
  · cases none.symm.trans locking

theorem documentTree {o : Overlay} {t : Tree} (document : Document o t) : ofTree t = some o.policy := by
  cases document with
  | @object ms legible durability commit locking =>
    obtain ⟨g, taken⟩ := givenTakes groupsDistinct legible fun name mem => by
      simp only [groups, List.map_cons, List.map_nil, List.mem_cons, List.not_mem_nil, or_false] at mem
      rcases mem with rfl | rfl | rfl
      · exact durability.once
      · exact commit.once
      · exact locking.once
    have first := durability.read groupsDistinct taken 0 rfl readDurability
      (fun group => group.read boolRead _ Durability.mk) {}
    have second := commit.read groupsDistinct taken 1 rfl readCommitFlow
      (fun group => group.read deviceRead _ CommitFlow.mk) {}
    have third := locking.read groupsDistinct taken 2 rfl readLocking
      (fun group => group.read wordRead _ Locking.mk) {}
    rw [ofTreeGiven, taken]
    refine (ofGroupsExact (p := ⟨_, _, _⟩).mpr ⟨first, second, third⟩).trans ?_
    obtain ⟨_ | _, _ | _, _ | _⟩ := o <;> rfl

inductive Doubles (known : List String) : List Member → List Member → Prop
  | member {before after key name} (t : Tree) (mem : name ∈ known) (text : Piece.text? key = some name.toList)
      (already : valuesOf name (before ++ after) ≠ []) :
      Doubles known (before ++ after) (before ++ (key, t) :: after)

inductive Doubled : Tree → Tree → Prop
  | group {ms ms'} (doubles : Doubles (groups.map (·.1)) ms ms') : Doubled (.object ms) (.object ms')
  | field {before after key group field inner inner'} (mem : (group, field) ∈ groups)
      (text : Piece.text? key = some group.toList) (doubles : Doubles [field] inner inner') :
      Doubled (.object (before ++ (key, .object inner) :: after))
        (.object (before ++ (key, .object inner') :: after))

theorem Doubles.refused {known : List String} (distinct : known.Nodup) {ms ms' : List Member}
    (doubles : Doubles known ms ms') : given known (.object ms') = none := by
  cases doubles with
  | @member before after key name t mem text already =>
    refine Option.eq_none_iff_forall_ne_some.mpr fun g taken => ?_
    have once := givenOnce distinct taken mem
    have more := List.length_pos_iff.mpr already
    rw [valuesAppend, valuesCons, valuesNamed text, List.length_append, List.length_append] at once
    rw [valuesAppend, List.length_append] at more
    rw [List.length_singleton] at once
    omega

theorem spoiledField {α : Type} {known : List String} {ms : List Member} {g : Given} {name : String} {u : Tree}
    {read : Tree → Option α} (distinct : known.Nodup) (taken : given known (.object ms) = some g) (i : Nat)
    (at' : known[i]? = some name) (mem : u ∈ valuesOf name ms) (spoiled : read u = none) (default : α) :
    fieldOr default read g i = none := by
  have held := givenOf distinct taken i at'
  rw [← held, Option.mem_toList] at mem
  rw [fieldHolding, mem]
  exact spoiled

theorem doubledTree {t t' : Tree} (doubled : Doubled t t') : ofTree t' = none := by
  cases doubled with
  | @group ms ms' doubles =>
    rw [ofTreeGiven, doubles.refused groupsDistinct]
    rfl
  | @field before after key group field inner inner' mem text doubles =>
    -- The group is not read, and the document reads each of its groups, whichever comes first.
    have refused := doubles.refused (List.nodup_singleton field)
    have held : Tree.object inner' ∈ valuesOf group (before ++ (key, .object inner') :: after) :=
      List.mem_map.mpr ⟨(key, .object inner'), List.mem_filter.mpr ⟨by simp, by simpa using text⟩, rfl⟩
    generalize before ++ (key, Tree.object inner') :: after = ms' at held
    rw [ofTreeGiven]
    refine Option.bind_eq_none_iff.mpr fun g taken => ofGroupsNone ?_
    simp only [groups, List.mem_cons, List.not_mem_nil, or_false, Prod.mk.injEq] at mem
    rcases mem with ⟨rfl, rfl⟩ | ⟨rfl, rfl⟩ | ⟨rfl, rfl⟩
    · refine Or.inl (spoiledField groupsDistinct taken 0 rfl held ?_ _)
      rw [readDurability, refused]
      rfl
    · refine Or.inr (Or.inl (spoiledField groupsDistinct taken 1 rfl held ?_ _))
      rw [readCommitFlow, refused]
      rfl
    · refine Or.inr (Or.inr (spoiledField groupsDistinct taken 2 rfl held ?_ _))
      rw [readLocking, refused]
      rfl

theorem readSpelled {t : Tree} {text : String} (spells : Spells text.toList t) :
    read text = match ofTree t with
      | some p => .ok p
      | none => .error .einval := by
  rw [read, (Json.Reader.readExact _ _).mpr spells]
  rfl

theorem documentRead {o : Overlay} {t : Tree} (document : Document o t) :
    (∀ text : String, Spells text.toList t → read text = .ok o.policy) ∧
      ∀ t' (text : String), Doubled t t' → Spells text.toList t' → read text = .error .einval := by
  refine ⟨fun text spells => ?_, fun t' text doubled spells => ?_⟩
  · rw [readSpelled spells, documentTree document]
  · rw [readSpelled spells, doubledTree doubled]

theorem timeoutRead :
    let key (name : String) : List Piece := name.toList.map .char
    let inner : List Member := [(key "x", .array [.array [], .null]), (key "timeout_ms", .number ['7'])]
    let first : List Member := [(key "x", .number "-1.5e3".toList), (key "locking", .object inner)]
    let text := "\t\x7b\"x\":-1.5e3, \"locking\" :\x7b\"x\":[ [] ,null],\"timeout\\u005fms\":7\x7d ,\"x\":\x7b\x7d\x7d "
    let doubled := "\x7b\"x\":-1.5e3,\"locking\":\x7b\"x\":[[],null],\"timeout_ms\":7\x7d,\"locking\":0,\"x\":\x7b\x7d\x7d"
    Spells text.toList (.object (first ++ [(key "x", .object [])])) ∧
      read text = .ok { locking := { timeoutMs := 7 } } ∧
      Spells doubled.toList (.object (first ++ (key "locking", .number ['0']) :: [(key "x", .object [])])) ∧
      read doubled = .error .einval := by
  intro key inner first text doubled
  have legible : Legible inner ∧ Legible (first ++ [(key "x", .object [])]) := by
    constructor <;> simp [Legible, inner, first, key, Piece.text?]
  have seven : SaysWord 7 (.number ['7']) := by
    rw [SaysWord, Json.Decimal.digits]
    rfl
  have document : Document { locking := some (some 7) } (.object (first ++ [(key "x", .object [])])) :=
    .object legible.2 (.absent rfl) (.absent rfl) (.given rfl (.object legible.1 (.given rfl seven)))
  have spells : Spells text.toList (.object (first ++ [(key "x", .object [])])) :=
    (Json.Reader.readExact _ _).mp (by simp only [text, first, inner, key, String.reduceToList]; rfl)
  have twice : Spells doubled.toList (.object (first ++ (key "locking", .number ['0']) :: [(key "x", .object [])])) :=
    (Json.Reader.readExact _ _).mp (by simp only [doubled, first, inner, key, String.reduceToList]; rfl)
  have known : "locking" ∈ groups.map (·.1) := by decide
  have again : Doubled (.object (first ++ [(key "x", .object [])]))
      (.object (first ++ (key "locking", .number ['0']) :: [(key "x", .object [])])) :=
    .group (.member _ known rfl (List.cons_ne_nil _ _))
  obtain ⟨reads, refuses⟩ := documentRead document
  exact ⟨spells, reads text spells, twice, refuses _ doubled again twice⟩

end AtomicUpdate.Policy
