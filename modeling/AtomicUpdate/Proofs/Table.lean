import AtomicUpdate.Table

/-! Tables by their entries. A key that is absent is set at the end, and where no key stands twice an
entry is what its key finds. Of several values set under one key the last one stays. -/
namespace AtomicUpdate.Table
variable {α β : Type} [DecidableEq α]

def Keyed (t : Table α β) : Prop := (t.entries.map (·.1)).Nodup

theorem findMem {k : α} {v : β} {entries : List (α × β)} (found : findIn k entries = some v) :
    (k, v) ∈ entries := by
  induction entries with
  | nil => cases found
  | cons e rest ih =>
    obtain ⟨a, b⟩ := e
    rw [findIn] at found
    split at found
    · rename_i same
      cases found
      rw [same]
      exact List.mem_cons_self
    · exact List.mem_cons_of_mem _ (ih found)

theorem memOfGet {t : Table α β} {k : α} {v : β} (found : t.get? k = some v) : (k, v) ∈ t.entries :=
  findMem found

theorem findOfMem {k : α} {v : β} {entries : List (α × β)} (keyed : (entries.map (·.1)).Nodup)
    (mem : (k, v) ∈ entries) : findIn k entries = some v := by
  induction entries with
  | nil => cases mem
  | cons e rest ih =>
    obtain ⟨a, b⟩ := e
    rw [List.map_cons, List.nodup_cons] at keyed
    rw [findIn]
    rcases List.mem_cons.mp mem with here | later
    · cases here
      rw [if_pos rfl]
    · have other : a ≠ k := by
        intro same
        exact keyed.1 (List.mem_map.mpr ⟨(k, v), later, same.symm⟩)
      rw [if_neg other]
      exact ih keyed.2 later

theorem getOfMem {t : Table α β} {k : α} {v : β} (keyed : t.Keyed) (mem : (k, v) ∈ t.entries) :
    t.get? k = some v := findOfMem keyed mem

theorem putAbsent {k : α} {entries : List (α × β)} (absent : findIn k entries = none) (v : β) :
    putIn k v entries = entries ++ [(k, v)] := by
  induction entries with
  | nil => rfl
  | cons e rest ih =>
    obtain ⟨a, b⟩ := e
    rw [findIn] at absent
    split at absent
    · cases absent
    · rename_i other
      rw [putIn, if_neg other, ih absent, List.cons_append]

theorem setAbsent {t : Table α β} {k : α} (absent : t.get? k = none) (v : β) :
    (t.set k v).entries = t.entries ++ [(k, v)] := putAbsent absent v

theorem absentKey {k : α} {entries : List (α × β)} (absent : findIn k entries = none) :
    k ∉ entries.map (·.1) := by
  induction entries with
  | nil => exact List.not_mem_nil
  | cons e rest ih =>
    obtain ⟨a, b⟩ := e
    rw [findIn] at absent
    split at absent
    · cases absent
    · rename_i other
      rw [List.map_cons, List.mem_cons, not_or]
      exact ⟨fun same => other same.symm, ih absent⟩

theorem findNone {k : α} {entries : List (α × β)} : findIn k entries = none ↔ k ∉ entries.map (·.1) := by
  refine ⟨absentKey, fun absent => ?_⟩
  cases found : findIn k entries with
  | none => rfl
  | some v => exact absurd (List.mem_map.mpr ⟨_, findMem found, rfl⟩) absent

theorem findAppend (k : α) (first second : List (α × β)) :
    findIn k (first ++ second) = (findIn k first).or (findIn k second) := by
  induction first with
  | nil => rfl
  | cons e rest ih =>
    obtain ⟨a, b⟩ := e
    by_cases same : a = k <;> simp [findIn, same, ih]

theorem putPresent {k : α} {v u : β} {entries : List (α × β)} (found : findIn k entries = some u) :
    (putIn k v entries).map (·.1) = entries.map (·.1) := by
  induction entries with
  | nil => cases found
  | cons e rest ih =>
    obtain ⟨a, b⟩ := e
    by_cases same : a = k
    · simp [putIn, same]
    · rw [findIn, if_neg same] at found
      simp [putIn, same, ih found]

theorem memErase {t : Table α β} {k : α} {e : α × β} :
    e ∈ (t.erase k).entries ↔ e ∈ t.entries ∧ e.1 ≠ k := by
  rw [erase, List.mem_filter, decide_eq_true_eq]

theorem keyedErase {t : Table α β} (keyed : t.Keyed) (k : α) : (t.erase k).Keyed :=
  keyed.sublist (List.filter_sublist.map _)

theorem keyedSetAbsent {t : Table α β} {k : α} (keyed : t.Keyed) (absent : t.get? k = none) (v : β) :
    (t.set k v).Keyed := by
  have fresh := absentKey absent
  rw [Keyed, setAbsent absent, List.map_append, List.nodup_append]
  refine ⟨keyed, by simp, ?_⟩
  intro a mem c last same
  simp only [List.map_cons, List.map_nil, List.mem_singleton] at last
  exact fresh (last ▸ same ▸ mem)

theorem keyedSet {t : Table α β} (keyed : t.Keyed) (k : α) (v : β) : (t.set k v).Keyed := by
  cases found : t.get? k with
  | none => exact keyedSetAbsent keyed found v
  | some u => exact (congrArg List.Nodup (putPresent found)).mpr keyed

theorem keyedSetDefault {t : Table α β} (keyed : t.Keyed) (k : α) (v : β) : (t.setDefault k v).Keyed := by
  unfold setDefault
  split
  · exact keyed
  · exact keyedSet keyed k v

def setAll (t : Table α β) (writes : List (α × β)) : Table α β :=
  writes.foldl (fun t e => t.set e.1 e.2) t

theorem setAllAppend (t : Table α β) (first second : List (α × β)) :
    t.setAll (first ++ second) = (t.setAll first).setAll second := List.foldl_append

theorem getSetAll (t : Table α β) (writes : List (α × β)) (k : α) :
    (t.setAll writes).get? k = (findIn k writes.reverse).or (t.get? k) := by
  induction writes generalizing t with
  | nil => rfl
  | cons e rest ih =>
    rw [setAll, List.foldl_cons, ← setAll, ih, getSet, List.reverse_cons, findAppend, Option.or_assoc]
    by_cases same : k = e.1
    · simp [findIn, same]
    · simp [findIn, same, Ne.symm same]

theorem keyedSetAll {t : Table α β} (keyed : t.Keyed) (writes : List (α × β)) : (t.setAll writes).Keyed := by
  induction writes generalizing t with
  | nil => exact keyed
  | cons e rest ih => exact ih (keyedSet keyed e.1 e.2)

theorem getErased (t : Table α β) (k : α) : (t.erase k).get? k = none := by
  rw [getErase, if_pos rfl]

@[simp] theorem getSetDefault (t : Table α β) (k j : α) (v : β) :
    (t.setDefault k v).get? j = (t.get? j).or (if j = k then some v else none) := by
  unfold setDefault contains
  cases found : t.get? k with
  | none =>
    by_cases same : j = k
    · subst same
      simp [found]
    · simp [same]
  | some u =>
    by_cases same : j = k
    · subst same
      simp [found]
    · simp [same]

end AtomicUpdate.Table
