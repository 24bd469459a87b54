import AtomicUpdate.Proofs.Fs.Recede
import AtomicUpdate.Proofs.Fs.Route
import AtomicUpdate.Proofs.Fs.Sibling
import AtomicUpdate.Proofs.Handle.Begin

/-! Deleting the file of a handle, wherever its base is. What a delete takes away are the entries of the
two paths that it goes by, and it succeeds where each of them leads to nothing or to no directory. Outside
a cycle the second path is the template, and what a delete does by that is not the handle's business. -/
namespace AtomicUpdate
namespace Fs

def Targets (fs : Fs) (p : Path) (d : Ino) (n : Name) : Prop :=
  ∃ i, fs.locate .never p = .ok ⟨.entry d n i, false⟩ ∧ fs.isDir i = false

structure Sheds (may : Ino → Name → Prop) (fs fs' : Fs) : Prop where
  root : fs'.root = fs.root
  cwd : fs'.cwd = fs.cwd
  size : fs'.nodes.size = fs.nodes.size
  nodes : ∀ {i}, fs.isDir i = false → fs'.node? i = fs.node? i
  dirs : ∀ {d es up m}, fs.node? d = some (.dir es up m) → ∃ es', fs'.node? d = some (.dir es' up m) ∧
    ∀ n, es'.get? n = es.get? n ∨ es'.get? n = none ∧ may d n
  tidy : fs.Tidy → fs'.Tidy ∧ Retains may fs fs'

variable {may : Ino → Name → Prop} {fs fs' fs'' : Fs} {p : Path}

theorem Targets.back (thins : Thins fs fs') {d : Ino} {n : Name} (targets : fs'.Targets p d n) :
    fs.Targets p d n := by
  obtain ⟨i, there, outer⟩ := targets
  exact ⟨i, locateKept thins there rfl (Or.inr trivial), (thins.isDir i).symm.trans outer⟩

namespace Sheds

theorem refl (may : Ino → Name → Prop) (fs : Fs) : Sheds may fs fs where
  root := rfl
  cwd := rfl
  size := rfl
  nodes := fun _ => rfl
  dirs := fun node => ⟨_, node, fun _ => Or.inl rfl⟩
  tidy := fun tidy => ⟨tidy, .refl may fs⟩

theorem trans (first : Sheds may fs fs') (second : Sheds may fs' fs'') : Sheds may fs fs'' where
  root := second.root.trans first.root
  cwd := second.cwd.trans first.cwd
  size := second.size.trans first.size
  nodes := by
    intro i outer
    have outer' : fs'.isDir i = false := by rw [isDir, first.nodes outer]; exact outer
    exact (second.nodes outer').trans (first.nodes outer)
  dirs := by
    intro d es up m node
    obtain ⟨es', node', entries⟩ := first.dirs node
    obtain ⟨es'', node'', entries'⟩ := second.dirs node'
    refine ⟨es'', node'', fun n => ?_⟩
    rcases entries' n with same | gone
    · rw [same]
      exact entries n
    · exact Or.inr gone
  tidy := by
    intro tidy
    obtain ⟨tidy', retains⟩ := first.tidy tidy
    obtain ⟨tidy'', retains'⟩ := second.tidy tidy'
    exact ⟨tidy'', retains.trans retains'⟩

theorem erase {d i : Ino} {n : Name} (entry : fs.named? d n = some i) (outer : fs.isDir i = false)
    (mine : may d n) : Sheds may fs (fs.updateDir d (·.erase n)) where
  root := (rootUpdateDir fs d _).1
  cwd := (rootUpdateDir fs d _).2
  size := sizeUpdateDir fs d _
  nodes := by
    intro j outer
    obtain ⟨es, up, m, node, _⟩ := entryNode entry
    have other : j ≠ d := fun same => by
      rw [same, isDirOf node] at outer
      cases outer
    rw [nodeUpdateDir, if_neg other]
  dirs := by
    intro e es up m node
    rw [nodeUpdateDir]
    by_cases same : e = d
    · subst same
      rw [if_pos rfl, node]
      refine ⟨es.erase n, rfl, fun k => ?_⟩
      by_cases this : k = n
      · exact Or.inr ⟨by simp [this], this ▸ mine⟩
      · exact Or.inl (by simp [this])
    · rw [if_neg same]
      exact ⟨es, node, fun _ => Or.inl rfl⟩
  tidy := fun tidy => ⟨tidy.erase d n, .erase tidy entry outer mine⟩

end Sheds
end Fs

namespace Handle
open Fs (Targets Sheds Thins Privileged Absent Removable)

variable {base : String} {h : Handle} {w : World}

theorem Over.stagingTemp {names : Names} (built : Over base names) {temp : String}
    (open' : names.temp? = some temp) : names.staging = temp := by
  cases built with
  | live => cases open'
  | writing s =>
    cases open'
    rfl
  | retired => cases open'

theorem removeTargetSheds {may : Ino → Name → Prop} (target : String) (w : World)
    (mine : ∀ {d n}, w.fs.Targets (Path.ofString target) d n → may d n) :
    w.fs.Thins (removeTarget target w).2.fs ∧ w.fs.Sheds may (removeTarget target w).2.fs := by
  have ended := removing target w
  generalize removeTarget target w = r at ended
  cases ended with
  | absent absent => exact ⟨.refl _, .refl may _⟩
  | refused e => exact ⟨.refl _, .refl may _⟩
  | removed present removed =>
    obtain ⟨d, n, i, there, outer, rfl⟩ := Files.removeExact removed
    exact ⟨.erase _ d n, .erase (Fs.entryTaken there).2 outer (mine ⟨i, there, outer⟩)⟩

theorem retireFs (h : Handle) (w : World) : (h.retire w).world.fs =
    (removeTarget h.names.base (removeTarget h.names.staging w).2).2.fs := by
  have ended := h.retiring w
  generalize h.retire w = r at ended
  cases ended with
  | kept first second failure => rw [first, second]
  | @retired w₁ w₂ first second =>
    obtain ⟨locks, events, released⟩ := h.releaseGuardWorld w₂
    rw [first, second, released]

theorem retireSheds {may : Ino → Name → Prop} (h : Handle) (w : World)
    (based : ∀ {d n}, w.fs.Targets h.names.basePath d n → may d n)
    (staged : ∀ {d n}, w.fs.Targets h.names.stagingPath d n → may d n) :
    w.fs.Sheds may (h.retire w).world.fs := by
  obtain ⟨thins, first⟩ := removeTargetSheds h.names.staging w staged
  have second := (removeTargetSheds h.names.base (removeTarget h.names.staging w).2
    fun targets => based (targets.back thins)).2
  rw [retireFs]
  exact first.trans second

theorem deleteTold (h : Handle) (w : World) : h.Told (h.retire w).world.fs (h.delete w).world.fs :=
  (reportTold (h.retireSink w) _ _ _ _ _).2

def owns (h : Handle) (fs : Fs) (d : Ino) (n : Name) : Prop :=
  fs.Targets h.names.basePath d n ∨ ∃ temp, h.names.temp? = some temp ∧ fs.Targets (Path.ofString temp) d n

def takes (h : Handle) (fs : Fs) (d : Ino) (n : Name) : Prop :=
  h.owns fs d n ∨ h.isPending = false ∧ fs.Targets h.names.stagingPath d n

theorem stagingOwned (built : Over base h.names) {fs : Fs} {d : Ino} {n : Name}
    (targets : fs.Targets h.names.stagingPath d n) : h.takes fs d n := by
  cases open' : h.names.temp? with
  | none => exact Or.inr ⟨by rw [isPending, open']; rfl, targets⟩
  | some temp => exact Or.inl (Or.inr ⟨temp, open', built.stagingTemp open' ▸ targets⟩)

/-- However a delete ends, it takes away what belongs to the handle or is at the template while no cycle
is open, and nothing else. Where nothing is at the template then, all other entries stay, with what they
lead to, and so does every path whose lookup reads none that belongs to the handle. -/
theorem deleteTakesOwn {first : Handle} {past : Past} (built : first.names = .ofBase base)
    (run : Run first past h) (w : World) :
    ∃ fs, h.Told fs (h.delete w).world.fs ∧ w.fs.Sheds (h.takes w.fs) fs ∧
      ((h.isPending = false → ∀ d n, ¬ w.fs.Targets h.names.stagingPath d n) →
        w.fs.Sheds (h.owns w.fs) fs ∧
          (w.fs.Tidy → ∀ follow p place, w.fs.locate follow p = .ok place →
            place.spot.ino?.isSome = true → (∀ v ∈ w.fs.route p, ¬ h.owns w.fs v.1 v.2) →
              fs.locate follow p = .ok place)) := by
  have named := run.over built
  refine ⟨_, h.deleteTold w, retireSheds h w (fun based => Or.inl (Or.inl based)) (stagingOwned named),
    fun blank => ?_⟩
  have sheds : w.fs.Sheds (h.owns w.fs) (h.retire w).world.fs := by
    refine retireSheds h w Or.inl fun {d n} staged => ?_
    rcases stagingOwned named staged with owned | ⟨idle, targets⟩
    · exact owned
    · exact absurd targets (blank idle d n)
  exact ⟨sheds, fun tidy follow p place led occupied free =>
    Fs.locateRetained tidy (sheds.tidy tidy).2 led occupied free⟩

def shared : Fs where
  nodes := #[.dir ⟨[(Path.ofString "f", 1), (Path.ofString "f_XXXXXX", 2)]⟩ 0 0o755, .file [1] 0o644,
    .file [2] 0o644]
  root := 0
  cwd := 0

theorem deleteOfOpenCycle :
    let opened := Call.startWrite.perform (.ofBase "f") { fs := shared }
    let deleted := opened.handle.delete opened.world
    opened.handle.isPending = true ∧ deleted.result = .ok () ∧
      deleted.world.fs.contents? (Path.ofString "f_XXXXXX") = some [2] ∧
      ∃ fs, opened.handle.Told fs deleted.world.fs ∧
        opened.world.fs.Sheds (opened.handle.owns opened.world.fs) fs := by
  intro opened deleted
  have pending : opened.handle.isPending = true := by decide +kernel
  have built : (Handle.ofBase "f").names = .ofBase "f" := rfl
  have run : Run (.ofBase "f") [(.startWrite, opened.result)] opened.handle :=
    .call .start .startWrite { fs := shared }
  obtain ⟨fs, told, _, owned⟩ := deleteTakesOwn built run opened.world
  refine ⟨pending, by decide +kernel, by decide +kernel, fs, told, (owned fun idle => ?_).1⟩
  rw [pending] at idle
  cases idle

theorem deleteTakesBlank :
    let h := Handle.ofBase "f"
    let deleted := h.delete { fs := shared }
    h.isPending = false ∧ shared.contents? (Path.ofString "f_XXXXXX") = some [2] ∧
      deleted.result = .ok () ∧
      deleted.world.fs.lookupEntry (Path.ofString "f_XXXXXX") = .error .enoent := by
  decide +kernel

theorem removeTargetClears {target : String} {w : World} (privileged : w.fs.Privileged)
    (clean : 0 ∉ Path.ofString target) (removable : w.fs.Removable (Path.ofString target)) :
    ∃ fs, removeTarget target w = (.ok (), w.withFs fs) ∧ w.fs.Thins fs ∧
      fs.Absent (Path.ofString target) := by
  cases removable with
  | absent gone =>
    obtain ⟨e, failed, lacking⟩ := gone
    exact ⟨w.fs, removeTargetAbsent (Fs.notPresent clean failed lacking), .refl _, e, failed, lacking⟩
  | @entry d n i there outer =>
    have found : w.fs.lookupEntry (Path.ofString target) = .ok i := by
      rw [Fs.lookupEntry, there]
      rfl
    have removed : Files.remove w.fs (Path.ofString target) = .ok (w.fs.updateDir d (·.erase n)) := by
      rw [Files.remove, Path.forbidNone _ clean]
      exact Fs.unlinkEntry privileged there outer
    exact ⟨_, by rw [removeTargetPresent (Fs.isPresent clean found), removed], .erase _ d n,
      Fs.erasedAbsent there⟩

theorem retireDone (privileged : w.fs.Privileged) (cleanStaging : 0 ∉ h.names.stagingPath)
    (cleanBase : 0 ∉ h.names.basePath) (staging : w.fs.Removable h.names.stagingPath)
    (based : w.fs.Removable h.names.basePath) :
    ∃ fs, fs.Absent h.names.stagingPath ∧ fs.Absent h.names.basePath ∧
      h.retire w = ⟨.ok (), { h with names := .retired, guard := none }, h.releaseGuard (w.withFs fs)⟩ := by
  obtain ⟨fs₁, first, thins, gone⟩ := removeTargetClears privileged cleanStaging staging
  obtain ⟨fs₂, second, thins', gone'⟩ := removeTargetClears (w := w.withFs fs₁)
    (thins.privileged privileged) cleanBase (thins.removable based)
  refine ⟨fs₂, thins'.absent gone, gone', ?_⟩
  unfold retire
  rw [first]
  dsimp only
  rw [second]
  rfl

theorem Over.clean {names : Names} (built : Over base names) (clean : 0 ∉ Path.ofString base) :
    0 ∉ names.basePath ∧ 0 ∉ names.stagingPath := by
  cases built with
  | live =>
    refine ⟨clean, ?_⟩
    change 0 ∉ Path.ofString (base ++ Limits.tempSuffix)
    rw [Path.ofStringAppend, List.mem_append, not_or]
    exact ⟨clean, by decide⟩
  | writing s =>
    refine ⟨clean, ?_⟩
    change 0 ∉ Path.ofString (Template.fill (Template.stemOf base) s)
    rw [Template.fillBytes, Suffix.after, List.mem_append, List.mem_cons, not_or, not_or]
    exact ⟨clean, by decide, fun mem => (s.bytesPlain mem).1 rfl⟩
  | retired => exact ⟨by decide, by decide⟩

structure Tolerated (fs : Fs) (base : String) : Prop where
  short : (blankOf base).length ≤ Limits.nameMax
  within : base.utf8ByteSize + 7 < Limits.pathMax
  plain : ∀ i, fs.lookupEntry (Path.ofString (Template.ofBase base)) = .ok i → fs.isDir i = false

theorem Tolerated.removable {fs : Fs} (tolerated : Tolerated fs base) (privileged : fs.Privileged)
    (based : fs.Removable (Path.ofString base)) :
    fs.Removable (Path.ofString (Template.ofBase base)) := by
  have plain := blankPlain base
  have within : (folderOf base ++ blankOf base).length < Limits.pathMax := by
    rw [← blankPath, Path.ofStringLength, Template.ofBase, String.utf8ByteSize_append]
    exact tolerated.within
  have outer := tolerated.plain
  rw [basePath] at based
  rw [blankPath] at outer ⊢
  cases found : fs.lookupEntry (folderOf base ++ blankOf base) with
  | error e =>
    exact .absent ⟨e, found, Fs.siblingLacks privileged (folderEnds base) (Path.afterNoSlash _) based plain
      tolerated.short within found⟩
  | ok i =>
    obtain ⟨place, located, there, _⟩ := Fs.lookupEntryExact found
    obtain ⟨d, _, _, ⟨rfl, _⟩ | ⟨j, rfl, _⟩⟩ := Fs.homeOfPlace (folderEnds base) plain rfl located
    · cases there
    · cases there
      exact .entry located (outer i found)

structure Deleted (h : Handle) (w : World) (r : Ran Unit) : Prop where
  ok : r.result = .ok ()
  handle : r.handle = { h with names := .retired, guard := none }
  files : ∃ fs, fs.Absent h.names.basePath ∧
    (∀ temp, h.names.temp? = some temp → fs.Absent (Path.ofString temp)) ∧
    r.world = h.sink.report .delete h.names.base
      (.object [("base_path", .string h.names.base), ("temp_path", .string h.names.staging)])
      (.ok () : Except Errno Unit) (h.releaseGuard (w.withFs fs))

/-- A delete succeeds where the base and the temp file of an open cycle each lead to nothing or to no
directory. With no cycle open the template has to be such that a lookup of it is no failure of its own. -/
theorem deleteTotal {first : Handle} {past : Past} (built : first.names = .ofBase base)
    (run : Run first past h) (privileged : w.fs.Privileged) (clean : 0 ∉ Path.ofString base)
    (based : w.fs.Removable h.names.basePath)
    (temp : ∀ temp, h.names.temp? = some temp → w.fs.Removable (Path.ofString temp))
    (template : h.names = .ofBase base → Tolerated w.fs base) : Deleted h w (h.delete w) := by
  have named := run.over built
  have staging : w.fs.Removable h.names.stagingPath := by
    generalize h.names = names at named based temp template
    -- Only outside a cycle is the second path one that nobody vouches for.
    cases named with
    | live => exact (template rfl).removable privileged based
    | writing s => exact temp _ rfl
    | retired => exact .absent ⟨.enoent, rfl, Or.inl rfl⟩
  obtain ⟨fs, gone, gone', ran⟩ := retireDone privileged (named.clean clean).2 (named.clean clean).1 staging
    based
  refine ⟨congrArg Ran.result ran, congrArg Ran.handle ran, fs, gone', ?_, ?_⟩
  · intro t open'
    rw [← named.stagingTemp open']
    exact gone
  · unfold delete
    rw [ran]
    rfl

def longest : String := String.ofList (List.replicate 248 'n')

theorem deleteOfLongest :
    let h := Handle.ofBase longest
    Deleted h { fs := .bare } (h.delete { fs := .bare }) := by
  intro h
  have absent : Fs.bare.Absent h.names.basePath := ⟨.enoent, by decide +kernel, Or.inl rfl⟩
  have tolerated : Tolerated .bare longest := ⟨by decide +kernel, by decide +kernel, by
    intro i found
    have none : Fs.bare.lookupEntry (Path.ofString (Template.ofBase longest)) = .error .enoent := by
      decide +kernel
    cases none.symm.trans found⟩
  exact deleteTotal rfl .start (by decide +kernel) (by decide +kernel) (.absent absent) nofun
    fun _ => tolerated

theorem deleteOfLonger :
    let h := Handle.ofBase (longest.push 'n')
    let deleted := h.delete { fs := .bare }
    h.names.basePath.length ≤ Limits.nameMax ∧ 0 ∉ h.names.basePath ∧
      Fs.bare.lookupEntry h.names.basePath = .error .enoent ∧
      deleted.result = .error .enametoolong ∧ deleted.handle.names = h.names := by
  decide +kernel

end Handle
end AtomicUpdate
