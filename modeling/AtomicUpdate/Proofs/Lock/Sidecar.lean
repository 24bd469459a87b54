import AtomicUpdate.Proofs.Fs.Calls
import AtomicUpdate.Proofs.Fs.Route
import AtomicUpdate.Proofs.Handle.Outcome

/-! Calls that stay clear of one file. A file keeps its place and its bytes as long as no name on the way
to it is erased or moved and nothing is written into it. -/
namespace AtomicUpdate
namespace Fs

def file? (fs : Fs) (p : Path) : Option Ino :=
  match fs.locate .creating p with
  | .ok ⟨.entry _ _ i, _⟩ => if fs.isDir i then none else some i
  | _ => none

def entryAt (fs : Fs) (p : Path) : List (Ino × Name) :=
  match fs.locate .never p with
  | .ok ⟨.entry d n _, _⟩ => [(d, n)]
  | _ => []

variable {fs fs' fs'' : Fs} {p : Path} {k : Ino}

theorem fileExact (led : fs.file? p = some k) :
    fs.isDir k = false ∧ ∃ d n s, fs.locate .creating p = .ok ⟨.entry d n k, s⟩ := by
  unfold file? at led
  split at led
  · rename_i d n i s located
    split at led
    · cases led
    · rename_i outer
      cases led
      exact ⟨by simpa using outer, d, n, s, located⟩
  · cases led

theorem fileOf {d : Ino} {n : Name} {s : Bool} (outer : fs.isDir k = false)
    (located : fs.locate .creating p = .ok ⟨.entry d n k, s⟩) : fs.file? p = some k := by
  rw [file?, located]
  dsimp only
  rw [outer, if_neg Bool.false_ne_true]

theorem entryAtOf {d i : Ino} {n : Name} {s : Bool}
    (located : fs.locate .never p = .ok ⟨.entry d n i, s⟩) : fs.entryAt p = [(d, n)] := by
  rw [entryAt, located]

theorem entryAtExact {v : Ino × Name} (mem : v ∈ fs.entryAt p) :
    ∃ i s, fs.locate .never p = .ok ⟨.entry v.1 v.2 i, s⟩ := by
  unfold entryAt at mem
  split at mem
  · rename_i d n i s located
    cases List.mem_singleton.mp mem
    exact ⟨i, s, located⟩
  · cases mem

def Solid (kept : Ino → Prop) (fs : Fs) : Prop :=
  ∀ {k}, kept k → ∃ node, fs.node? k = some node ∧ node.isDir = false

theorem fileSolid (tidy : fs.Tidy) (p : Path) : fs.Solid (fun k => fs.file? p = some k) := by
  intro k led
  obtain ⟨outer, d, n, s, located⟩ := fileExact led
  have bound := tidy.entryBound (entryTaken located).2
  have there : fs.node? k = some fs.nodes[k] := Array.getElem?_eq_getElem bound
  rw [isDir, there] at outer
  exact ⟨_, there, outer⟩

structure Heeds (touched : Ino → Name → Prop) (kept : Ino → Prop) (fs fs' : Fs) : Prop where
  retains : Retains touched fs fs'
  still : ∀ {k}, kept k → fs'.node? k = fs.node? k
  tidy : fs'.Tidy

namespace Heeds
variable {touched : Ino → Name → Prop} {kept : Ino → Prop}

theorem refl (tidy : fs.Tidy) : Heeds touched kept fs fs := ⟨Retains.refl touched fs, fun _ => rfl, tidy⟩

theorem trans (first : Heeds touched kept fs fs') (second : Heeds touched kept fs' fs'') :
    Heeds touched kept fs fs'' :=
  ⟨first.retains.trans second.retains, fun keep => (second.still keep).trans (first.still keep),
    second.tidy⟩

theorem solid (heeds : Heeds touched kept fs fs') (solid : fs.Solid kept) : fs'.Solid kept := by
  intro k keep
  obtain ⟨node, is, outer⟩ := solid keep
  exact ⟨node, (heeds.still keep).trans is, outer⟩

theorem stillUpdateDir (solid : fs.Solid kept) (keep : kept k) (d : Ino)
    (change : Table Name Ino → Table Name Ino) : (fs.updateDir d change).node? k = fs.node? k := by
  obtain ⟨node, is, outer⟩ := solid keep
  rw [nodeUpdateDir]
  split
  · rename_i same
    rw [← same, is]
    cases node with
    | dir es up m => cases outer
    | file b m => rfl
    | link t => rfl
    | device k => rfl
  · rfl

theorem born (tidy : fs.Tidy) (solid : fs.Solid kept) {d : Ino} {n : Name}
    (free : fs.named? d n = none) (mode : Nat) : Heeds touched kept fs (fs.born d n mode) where
  retains := Retains.ofKeeps tidy (keepsBorn _ free mode) (evolvesBorn tidy free mode).more
  still := by
    intro k keep
    obtain ⟨node, is, outer⟩ := solid keep
    have added : (fs.add (.file [] mode)).2.node? k = fs.node? k := by
      rw [nodeAdd, if_neg (Nat.ne_of_lt (nodeBound is))]
    have solid' : (fs.add (.file [] mode)).2.Solid (fun j => j = k) := by
      rintro j rfl
      exact ⟨node, added.trans is, outer⟩
    exact (stillUpdateDir solid' rfl d _).trans added
  tidy := (evolvesBorn tidy free mode).tidy

theorem poured (tidy : fs.Tidy) {j : Ino} (poured : Poured j fs fs') (other : ¬ kept j) :
    Heeds touched kept fs fs' where
  retains := Retains.ofKeeps tidy poured.alike.keeps (Nat.le_of_eq poured.only.size.symm)
  still := fun keep => poured.only.others _ fun same => other (same ▸ keep)
  tidy := poured.tidy tidy

theorem erase (tidy : fs.Tidy) (solid : fs.Solid kept) {d i : Ino} {n : Name}
    (entry : fs.named? d n = some i) (outer : fs.isDir i = false) (may : touched d n) :
    Heeds touched kept fs (fs.updateDir d (·.erase n)) where
  retains := Retains.erase tidy entry outer may
  still := fun keep => stillUpdateDir solid keep d _
  tidy := tidy.erase d n

theorem move (tidy : fs.Tidy) (solid : fs.Solid kept) {d i : Ino} {old new : Name}
    (entry : fs.named? d old = some i)
    (may : ∀ j, fs.named? d new = some j → fs.mayReplace i j = .ok ())
    (mayOld : touched d old) (mayNew : touched d new) :
    Heeds touched kept fs (fs.updateDir d (fun es => supplant new i (es.erase old))) where
  retains := by
    refine Retains.move tidy entry (fun j taken dir => ?_) mayOld mayNew
    have allowed := may j taken
    rw [mayReplace, dir] at allowed
    split at allowed
    · rw [Bool.not_true, if_neg Bool.false_ne_true] at allowed
      split at allowed
      · assumption
      · cases allowed
    · rw [if_pos rfl] at allowed
      cases allowed
  still := fun keep => stillUpdateDir solid keep d _
  tidy := tidy.move d old new (tidy.entryBound entry)

end Heeds

structure Minds (p : Path) (fs fs' : Fs) : Prop where
  leads : ∀ {k}, fs.file? p = some k → fs'.file? p = some k
  still : ∀ {k}, fs.file? p = some k → fs'.node? k = fs.node? k
  tidy : fs'.Tidy

theorem Minds.refl (p : Path) (tidy : fs.Tidy) : Minds p fs fs := ⟨id, fun _ => rfl, tidy⟩

theorem Minds.trans (first : Minds p fs fs') (second : Minds p fs' fs'') : Minds p fs fs'' :=
  ⟨fun led => second.leads (first.leads led),
    fun led => (second.still (first.leads led)).trans (first.still led), second.tidy⟩

theorem Heeds.minds {touched : Ino → Name → Prop} (tidy : fs.Tidy)
    (heeds : Heeds touched (fun k => fs.file? p = some k) fs fs')
    (free : ∀ v ∈ fs.route p, ¬ touched v.1 v.2) : Minds p fs fs' where
  leads := by
    intro k led
    obtain ⟨outer, d, n, s, located⟩ := fileExact led
    refine fileOf ?_ (locateRetained tidy heeds.retains located rfl free)
    rw [isDir, heeds.still led]
    exact outer
  still := heeds.still
  tidy := heeds.tidy

theorem openCreateLeads {uses : List Access} {mode : Nat} (ok : fs.openCreate uses mode p = .ok (k, fs')) :
    fs'.file? p = some k := by
  rcases openCreateExact ok with ⟨rfl, outer, d, n, s, located⟩ | ⟨rfl, d, n, s, located, rfl⟩
  · exact fileOf outer located
  · obtain ⟨dir, free⟩ := vacantFree located
    have outer := notInner (fileNotInner (bornFile fs dir n mode))
    have taken : (fs.born d n mode).named? d n = some fs.nodes.size := by
      rw [bornEntry dir, if_pos ⟨rfl, rfl⟩]
    exact fileOf outer.1 (locateFilled (keepsBorn _ free mode) located taken outer.2)

theorem openCreateMinds (tidy : fs.Tidy) {uses : List Access} {mode : Nat}
    (ok : fs.openCreate uses mode p = .ok (k, fs')) : Minds p fs fs' ∧ fs'.file? p = some k := by
  refine ⟨?_, openCreateLeads ok⟩
  rcases openCreateExact ok with ⟨rfl, _⟩ | ⟨_, d, n, s, located, rfl⟩
  · exact Minds.refl p tidy
  · have none : ∀ {k}, fs.file? p ≠ some k := by
      intro k led
      obtain ⟨_, _, _, _, located'⟩ := fileExact led
      cases located.symm.trans located'
    exact ⟨fun led => absurd led none, fun led => absurd led none,
      (evolvesBorn tidy (vacantFree located).2 mode).tidy⟩

theorem entryAtBefore (keeps : Keeps (fun _ => True) fs' fs) {v : Ino × Name}
    (mem : v ∈ fs'.entryAt p) : v ∈ fs.entryAt p := by
  obtain ⟨i, s, located⟩ := entryAtExact mem
  rw [entryAtOf (locateKept keeps located rfl (Or.inr trivial))]
  exact List.mem_singleton_self v

theorem Walked.never {links : Nat} {d : Ino} {ns : List Name} {slash : Bool} {place : Place}
    (walked : fs.Walked .always links d ns slash place) (there : place.spot.ino?.isSome = true) :
    ∃ place', fs.Walked .never links d ns slash place' ∧ place'.spot.ino?.isSome = true := by
  induction walked with
  | arrived way => exact ⟨_, .arrived way, there⟩
  | stopped way stops => cases stops
  | @onward links d ns slash dir n i target rest place way goes more ih =>
    by_cases last : rest = []
    · subst last
      exact ⟨_, .stopped way rfl, rfl⟩
    · obtain ⟨place', on, named⟩ := ih there
      exact ⟨place', .onward way (fun both => last both.1) on, named⟩

theorem entryAtSame (tidy : fs.Tidy) (retains : Retains (fun _ _ => False) fs fs') {i : Ino}
    (found : fs.lookup p = .ok i) : fs'.entryAt p = fs.entryAt p := by
  obtain ⟨place, located, there, _⟩ := lookupExact found
  obtain ⟨short, way⟩ := locateExact located
  obtain ⟨place', on, named⟩ := (walked way).never (by rw [there]; rfl)
  have located' : fs.locate .never p = .ok place' := (locateOf .never short).trans on.ok
  have after := locateRetained tidy retains located' named fun _ _ => id
  rw [entryAt, entryAt, located', after]

end Fs

namespace Files
open Fs (Heeds Solid)

variable {fs fs' : Fs} {touched : Ino → Name → Prop} {kept : Ino → Prop}

theorem removeHeeds (tidy : fs.Tidy) (solid : fs.Solid kept) {p : Path} (ok : remove fs p = .ok fs')
    (may : ∀ v ∈ fs.entryAt p, touched v.1 v.2) : Heeds touched kept fs fs' := by
  obtain ⟨d, n, i, located, outer, rfl⟩ := removeExact ok
  refine Heeds.erase tidy solid (Fs.entryTaken located).2 outer (may (d, n) ?_)
  rw [Fs.entryAtOf located]
  exact List.mem_singleton_self _

theorem removeBefore {p : Path} (ok : remove fs p = .ok fs') : Fs.Keeps (fun _ => True) fs' fs := by
  obtain ⟨d, n, i, located, outer, rfl⟩ := removeExact ok
  exact Fs.keepsOfErase d n

theorem openBothExact {source target : Path} {i j : Ino} {mode : Nat}
    (ok : openBoth fs source target = .ok (i, mode, j, fs')) :
    fs.openRead source = .ok i ∧ (∃ c, fs.node? i = some (.file c mode)) ∧ 0 ∉ target ∧
      ∃ m, fs.openCreate [.write] m target = .ok (j, fs') := by
  obtain ⟨_, _, ok⟩ := bindOk ok
  obtain ⟨_, opened, ok⟩ := bindOk ok
  split at ok
  · rename_i file
    obtain ⟨_, clean, ok⟩ := bindOk ok
    obtain ⟨_, made, ok⟩ := bindOk ok
    cases ok
    exact ⟨opened, ⟨_, file⟩, Path.noneForbidden clean, _, made⟩
  · cases ok

theorem openCreateHeeds (touched : Ino → Name → Prop) (tidy : fs.Tidy) (solid : fs.Solid kept) {uses : List Access} {mode : Nat}
    {p : Path} {j : Ino} (ok : fs.openCreate uses mode p = .ok (j, fs')) :
    Heeds touched kept fs fs' ∧ (fs.file? p = some j ∨ j = fs.nodes.size) := by
  rcases Fs.openCreateExact ok with ⟨rfl, outer, d, n, s, located⟩ | ⟨fresh, d, n, s, located, rfl⟩
  · exact ⟨Heeds.refl tidy, Or.inl (Fs.fileOf outer located)⟩
  · exact ⟨Heeds.born tidy solid (Fs.vacantFree located).2 mode, Or.inr fresh⟩

theorem pourPoured {i j : Ino} {fs₁ fs₂ : Fs} (poured : Fs.Poured j fs₁ fs₂) :
    Fs.Poured j fs₁ (match fs₂.readRest i 0 with
      | .error e => (fs₂, Except.error e)
      | .ok bytes => match fs₂.writeAt j 0 bytes with
        | .error e => (fs₂, .error e)
        | .ok fs => (fs, .ok ())).1 := by
  split
  · exact poured
  · split
    · exact poured
    · rename_i wrote
      exact poured.trans (Fs.writePoured wrote)

theorem copyPoured {source target : Path} {i j : Ino} {mode : Nat} {fs₁ : Fs}
    (opened : openBoth fs source target = .ok (i, mode, j, fs₁)) :
    Fs.Poured j fs₁ (copy fs source target).1 := by
  have emptied := Fs.truncatePoured fs₁ j
  unfold copy
  rw [opened]
  refine pourPoured ?_
  split
  · rename_i file
    exact emptied.trans (.replace file _ _)
  · exact emptied

theorem copyHeeds (tidy : fs.Tidy) (solid : fs.Solid kept) (source target : Path)
    (other : ∀ j, fs.file? target = some j → ¬ kept j) :
    Heeds touched kept fs (copy fs source target).1 := by
  cases opened : openBoth fs source target with
  | error e =>
    rw [copyUnopened opened]
    exact Heeds.refl tidy
  | ok made =>
    obtain ⟨i, mode, j, fs₁⟩ := made
    obtain ⟨_, _, _, m, created⟩ := openBothExact opened
    obtain ⟨first, origin⟩ := openCreateHeeds touched tidy solid created
    have notKept : ¬ kept j := by
      intro keep
      rcases origin with led | fresh
      · exact other j led keep
      · obtain ⟨node, is, _⟩ := solid keep
        exact Nat.ne_of_lt (Fs.nodeBound is) fresh
    exact first.trans (Heeds.poured first.tidy (copyPoured opened) notKept)

end Files

namespace Commit
open Fs (Heeds Solid)

variable {w w' : World} {temp base : Path} {touched : Ino → Name → Prop} {kept : Ino → Prop}

def owned (fs : Fs) (temp base : Path) : List (Ino × Name) :=
  fs.entryAt temp ++
    match prepare fs temp base with
    | .ok (t, b, d) => [(d, t), (d, b)]
    | .error _ => []

theorem copyOverHeeds (tidy : w.fs.Tidy) (solid : w.fs.Solid kept)
    (may : ∀ v ∈ w.fs.entryAt temp, touched v.1 v.2)
    (other : ∀ j, w.fs.file? base = some j → ¬ kept j) :
    ∃ fs', (copyOver temp base w).2 = w.withFs fs' ∧ Heeds touched kept w.fs fs' := by
  have first : ∀ touched, Heeds touched kept w.fs (Files.copy w.fs temp base).1 :=
    fun _ => Files.copyHeeds tidy solid temp base other
  have ended := copying temp base w
  generalize copyOver temp base w = r at ended
  cases ended with
  | broken | unflushed | unremoved => exact ⟨_, rfl, first touched⟩
  | done copied flushed removed =>
    obtain ⟨i, led⟩ : ∃ i, w.fs.lookup temp = .ok i := by
      unfold Files.copy at copied
      split at copied
      · cases copied
      · rename_i opened
        obtain ⟨i, led, _⟩ := bindOk (Files.openBothExact opened).1
        exact ⟨i, led⟩
    have same := Fs.entryAtSame tidy (first fun _ _ => False).retains led
    exact ⟨_, rfl, (first touched).trans
      (Files.removeHeeds (first touched).tidy ((first touched).solid solid) removed
        fun v mem => may v (same ▸ mem))⟩

theorem runHeeds (tidy : w.fs.Tidy) (solid : w.fs.Solid kept) (allowCopy : Bool)
    (force : Option Bool) (may : ∀ v ∈ owned w.fs temp base, touched v.1 v.2)
    (other : allowCopy = true → ∀ j, w.fs.file? base = some j → ¬ kept j) :
    ∃ fs' events, (run temp base allowCopy force w).2 = { w with fs := fs', events } ∧
      Heeds touched kept w.fs fs' := by
  have stays : ∃ fs' events, w = { w with fs := fs', events } ∧ Heeds touched kept w.fs fs' :=
    ⟨w.fs, w.events, rfl, Heeds.refl tidy⟩
  have copies : allowCopy = true → ∃ fs', (copyOver temp base (warned base w)).2 = (warned base w).withFs fs' ∧
      Heeds touched kept w.fs fs' := fun allowed =>
    copyOverHeeds (w := warned base w) tidy solid (fun v mem => may v (List.mem_append_left _ mem)) (other allowed)
  have ended := running temp base allowCopy force w
  generalize run temp base allowCopy force w = r at ended
  cases ended with
  | unready | refused | barred => exact stays
  | @renamed t b d _ ready free moved =>
    rw [owned, ready] at may
    refine ⟨_, w.events, rfl, ?_⟩
    rcases Fs.renameExact moved with ⟨rfl, _⟩ | ⟨i, entry, _, allowed, rfl⟩
    · exact Heeds.refl tidy
    · exact Heeds.move tidy solid entry allowed (may (d, t) (by simp)) (may (d, b) (by simp))
  | broken _ _ allowed ended | copied _ _ allowed ended =>
    obtain ⟨fs', left, heeds⟩ := copies allowed
    rw [ended] at left
    exact ⟨fs', (warned base w).events, left, heeds⟩

end Commit
end AtomicUpdate
