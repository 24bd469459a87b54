import AtomicUpdate.Proofs.Commit.Pairing
import AtomicUpdate.Proofs.Staged.Aging

/-! Where the staged bytes are after a commit, whatever names and links the files have. A commit that fails has
left them in the temp file, and one that succeeds has them in the base. Neither is so where the commit is to copy
and the base leads to the temp file itself: the file is emptied before anything is copied. -/
namespace AtomicUpdate
open Path (Plain Proper)

namespace Fs
variable {fs fs' : Fs} {j : Ino}

theorem truncateUnfiled (other : ∀ b m, fs.node? j ≠ some (.file b m)) : fs.truncate j = fs := by
  unfold truncate
  split
  · rename_i node is
    cases node with
    | file b m => exact absurd is (other b m)
    | dir es up m => exact replaceSame is
    | link t => exact replaceSame is
    | device kind => exact replaceSame is
  · rfl

theorem writeUnfiled {pos : Nat} {data : Bytes} (other : ∀ b m, fs.node? j ≠ some (.file b m))
    (wrote : fs.writeAt j pos data = .ok fs') : fs' = fs ∧ ∃ kind, fs.node? j = some (.device kind) := by
  unfold writeAt at wrote
  split at wrote
  · rename_i file
    exact absurd file (other _ _)
  · rename_i device
    cases wrote
    exact ⟨rfl, _, device⟩
  · rename_i device
    split at wrote
    · cases wrote
      exact ⟨rfl, _, device⟩
    · cases wrote
  · cases wrote

end Fs

namespace Files
variable {fs fs₁ : Fs} {source target : Path} {i k j : Ino} {c : Bytes} {m mode : Nat}

theorem copyOpens (tidy : fs.Tidy) (led : fs.lookup source = .ok i) (file : fs.node? i = some (.file c m))
    (opened : openBoth fs source target = .ok (k, mode, j, fs₁)) :
    k = i ∧ mode = m ∧ fs.openRead source = .ok i ∧ Fs.Gains fs fs₁ ∧ fs₁.lookup target = .ok j ∧
      (fs.lookup target = .ok i ↔ j = i) := by
  obtain ⟨read, ⟨c', file'⟩, _, mode', created⟩ := openBothExact opened
  have read' := read
  obtain ⟨k', led', same⟩ := bindOk read
  obtain ⟨_, _, same⟩ := bindOk same
  cases same
  cases led.symm.trans led'
  cases file.symm.trans file'
  have gains := Fs.openCreateGains created
  have firm : fs.Firm (fun _ => True) i := Or.inr trivial
  obtain ⟨_, _, _, _, located⟩ := Fs.fileExact (Fs.openCreateMinds tidy created).2
  have there := Fs.lookupCreated located
  refine ⟨rfl, rfl, read', gains, there, fun self => ?_, ?_⟩
  · exact Except.ok.inj (there.symm.trans (Fs.lookupKept (gains.keeps _) self firm))
  · rintro rfl
    rcases Fs.openCreateExact created with ⟨rfl, _⟩ | ⟨fresh, _⟩
    · exact there
    · exact absurd fresh (Nat.ne_of_lt (Fs.nodeBound file))

theorem copySpares (tidy : fs.Tidy) (led : fs.lookup source = .ok i) (file : fs.node? i = some (.file c m))
    (apart : fs.lookup target ≠ .ok i) :
    (copy fs source target).1.lookup source = .ok i ∧
      (copy fs source target).1.node? i = some (.file c m) := by
  cases opened : openBoth fs source target with
  | error e =>
    rw [copyUnopened opened]
    exact ⟨led, file⟩
  | ok made =>
    obtain ⟨k, mode, j, fs₁⟩ := made
    obtain ⟨rfl, rfl, _, gains, _, self⟩ := copyOpens tidy led file opened
    have poured := copyPoured opened
    have led₁ := Fs.lookupKept (gains.keeps fun _ => True) led (Or.inr trivial)
    exact ⟨(poured.alike.lookup _).trans led₁,
      (poured.only.others k fun same => apart (self.mpr same.symm)).trans (gains.file file)⟩

theorem copyUnfiled {fs₂ : Fs} (opened : openBoth fs source target = .ok (i, mode, j, fs₁))
    (other : ∀ b m, fs₁.node? j ≠ some (.file b m)) (copied : copy fs source target = (fs₂, .ok ())) :
    fs₂ = fs₁ ∧ ∃ kind, fs₁.node? j = some (.device kind) := by
  unfold copy at copied
  rw [opened] at copied
  dsimp only at copied
  rw [Fs.truncateUnfiled other] at copied
  split at copied
  · cases copied
  split at copied
  · cases copied
  · rename_i wrote
    cases copied
    split at wrote
    · rename_i file
      exact absurd file (other _ _)
    · exact Fs.writeUnfiled other wrote

end Files

namespace Commit
variable {w w' : World} {temp base : Path} {i : Ino} {c : Bytes} {m : Nat}

theorem copyOverSpares {e : Errno} (broke : copyOver temp base w = (.error e, w')) (tidy : w.fs.Tidy)
    (led : w.fs.lookup temp = .ok i) (file : w.fs.node? i = some (.file c m))
    (apart : w.fs.lookup base ≠ .ok i) : w'.fs.contents? temp = some c := by
  rw [copyOverBroke broke]
  obtain ⟨led', file'⟩ := Files.copySpares tidy led file apart
  exact Fs.contentsOf led' file'

theorem copyOverDelivers {pre t : Path} {d : Ino} (done : copyOver (pre ++ t) base w = (.ok (), w'))
    (tidy : w.fs.Tidy) (home : w.fs.Home pre d) (proper : Proper pre t) (held : w.fs.Holds d t i c m)
    (apart : w.fs.lookup base ≠ .ok i) : w'.fs.contents? base = some c := by
  obtain ⟨fs₂, fs₃, copied, flushed, removed, rfl⟩ := copyOverDone done
  have led := home.lookup proper held.entry (Fs.notInner held.outer).2
  cases opened : Files.openBoth w.fs (pre ++ t) base with
  | error e =>
    rw [Files.copyUnopened opened] at copied
    cases copied
  | ok made =>
    obtain ⟨k, mode, j, fs₁⟩ := made
    obtain ⟨rfl, rfl, read, gains, led₁, self⟩ := Files.copyOpens tidy led held.file opened
    have apart' : k ≠ j := fun same => apart (self.mpr same.symm)
    have poured := Files.copyPoured opened
    rw [copied] at poured
    have alike := poured.alike
    have led₂ : fs₂.lookup base = .ok j := (alike.lookup _).trans led₁
    have filled : ∃ mode, fs₂.node? j = some (.file c mode) := by
      by_cases filed : ∃ b m, fs₁.node? j = some (.file b m)
      · obtain ⟨b, m, there⟩ := filed
        obtain ⟨fs', mode, copied', _, filled, _⟩ :=
          Files.copyPours opened (gains.file held.file) there apart'
        cases copied.symm.trans copied'
        exact ⟨mode, filled⟩
      · -- A device takes the bytes, but it cannot be flushed.
        obtain ⟨rfl, kind, device⟩ := Files.copyUnfiled opened (fun b m is => filed ⟨b, m, is⟩) copied
        obtain ⟨_, _, flushed⟩ := bindOk flushed
        obtain ⟨j', read', synced⟩ := bindOk flushed
        obtain ⟨_, led', same⟩ := bindOk read'
        obtain ⟨_, _, same⟩ := bindOk same
        cases same
        cases led₁.symm.trans led'
        rw [Fs.sync, device] at synced
        cases synced
    obtain ⟨mode', filled⟩ := filled
    have still : Fs.Keeps (fun _ => False) fs₁ fs₂ := alike.keeps
    have home₂ := (home.kept (gains.keeps fun _ => False)).kept still
    have entry₂ : fs₂.named? d t = some k := (alike.entry d t).trans (gains.entry held.entry)
    have outer₂ : fs₂.isInner k = false :=
      Fs.fileNotInner ((poured.only.others k apart').trans (gains.file held.file))
    rw [home₂.remove proper entry₂ (Fs.notInner outer₂).1] at removed
    split at removed
    · cases removed
      -- The temp file is not what the base leads to, so it may go.
      have keeps : Fs.Keeps (fun x => x = j) fs₂ (fs₂.updateDir d (·.erase t)) := by
        refine Fs.keepsErase (poured.tidy (gains.tidy tidy)) fun x entry firm => ?_
        cases entry₂.symm.trans entry
        rcases firm with inner | rfl
        · cases outer₂.symm.trans inner
        · exact apart' rfl
      exact Fs.contentsOf (Fs.lookupKept keeps led₂ (Or.inr rfl)) (Fs.fileUpdateDir _ filled)
    · cases removed

theorem copyOverEmpties (done : copyOver temp base w = (.ok (), w')) (tidy : w.fs.Tidy)
    (led : w.fs.lookup temp = .ok i) (file : w.fs.node? i = some (.file c m))
    (self : w.fs.lookup base = .ok i) : w'.fs.node? i = some (.file [] m) := by
  obtain ⟨fs₂, fs₃, copied, _, removed, rfl⟩ := copyOverDone done
  cases opened : Files.openBoth w.fs temp base with
  | error e =>
    rw [Files.copyUnopened opened] at copied
    cases copied
  | ok made =>
    obtain ⟨k, mode, j, fs₁⟩ := made
    obtain ⟨rfl, rfl, _, gains, _, same⟩ := Files.copyOpens tidy led file opened
    obtain rfl := same.mp self
    have emptied := (Files.copySelf opened (gains.file file)).2
    rw [copied] at emptied
    obtain ⟨_, _, _, _, _, rfl⟩ := Files.removeExact removed
    exact Fs.fileUpdateDir _ emptied

end Commit

structure Direct (base : String) (fs : Fs) : Prop where
  plain : Plain (leafOf base)
  off : ∀ d, fs.lookup (Path.ofString base).folder = .ok d → (d, leafOf base) ∉ fs.route (folderOf base)

section Renamed
variable {base : String} {s : Suffix} {fs fs' : Fs} {d e i : Ino} {t b : Name} {c : Bytes} {m : Nat}

theorem renamedTo (plain : Plain (leafOf base)) (tidy : fs.Tidy)
    (temp : Proper (folderOf base) (s.after (leafOf base))) (home : fs.Home (folderOf base) d)
    (held : fs.Holds d (s.after (leafOf base)) i c m)
    (ready : Commit.prepare fs (Handle.tempOf base s) (Path.ofString base) = .ok (t, b, e))
    (renamed : fs.renameIn e t b = .ok fs') : fs.lookup (Path.ofString base).folder = .ok d ∧
      fs'.Holds d (leafOf base) i c m ∧ (Direct base fs → fs'.contents? (Path.ofString base) = some c) := by
  have leaf := temp.shorter plain
  have folder := home.folder leaf
  rw [Handle.tempOf, tempPath, basePath] at ready
  obtain ⟨rfl, rfl, led⟩ := Commit.prepared plain temp.plain ready
  cases folder.symm.trans led
  rw [← basePath] at folder
  rcases Fs.renameExact renamed with ⟨rfl, j, first, second⟩ | ⟨j, first, _, may, rfl⟩
  · cases first.symm.trans held.entry
    have placed : fs'.Holds d (leafOf base) i c m := ⟨second, held.file⟩
    exact ⟨folder, placed, fun _ => by rw [basePath]; exact home.contents leaf placed⟩
  · cases first.symm.trans held.entry
    have loose : ∀ k, fs.named? d (leafOf base) = some k → fs.isDir k = false := by
      intro k taken
      have allowed := may k taken
      rw [Fs.mayReplace, (Fs.notInner held.outer).1, if_neg Bool.false_ne_true] at allowed
      split at allowed
      · cases allowed
      · rename_i outer
        exact Bool.eq_false_iff.mpr outer
    have placed : (fs.updateDir d fun es => Fs.supplant (leafOf base) i (es.erase (s.after (leafOf base)))).Holds
        d (leafOf base) i c m :=
      ⟨by rw [Fs.entryMove home.dir, if_pos rfl, if_pos rfl], Fs.fileUpdateDir _ held.file⟩
    refine ⟨folder, placed, fun apart => ?_⟩
    rw [basePath]
    exact (home.movedApart tidy held.entry held.outer loose (apart.off d folder)).contents leaf placed

end Renamed

-- The base has the bytes, and the path by which they were to be read leads through the link that they replaced.
example :
    let started := (Handle.ofBase "l/../l").startWrite { fs := Handle.linkedFolder }
    let staged := started.world.fs.writeWhole (Path.ofString started.handle.names.staging) [7, 8]
    let finished := started.handle.finishWrite { started.world with fs := staged.fs }
    finished.result = .ok () ∧ finished.world.fs.contents? (Path.ofString "l") = some [7, 8] ∧
      finished.world.fs.lookup (Path.ofString "l/../l") = .error .enotdir := by
  decide +kernel

open Handle (Over)

section Spelling
variable {base : String} {s : Suffix} {h : Handle}

theorem Call.spelled {w : World} (built : Over base h.names) (c : Call)
    (names : (c.perform h w).handle.names = .writing base s) :
    h.names = .writing base s ∨ Proper (folderOf base) (s.after (leafOf base)) := by
  have begins : (h.openCycle w).handle.names = .writing base s →
      h.names = .writing base s ∨ Proper (folderOf base) (s.after (leafOf base)) := by
    intro names
    have begun : Handle.Begun base h w (h.openCycle w) := Handle.openCycleBegun built
    generalize h.openCycle w = r at begun names
    cases begun with
    | refused error same => exact Or.inl (same.symm.trans names)
    | opened s' idle ok names' sink gains home proper =>
      cases Names.writingInjective (names'.symm.trans names)
      exact Or.inr proper
  have ends : ∀ {h' w'}, Handle.Ends h w h' w' → h'.names = .writing base s → h.names = .writing base s := by
    intro h' w' ending names
    cases ending with
    | still => exact names
    | closed aside idle =>
      rw [Handle.isPending, names] at idle
      cases idle
  cases c with
  | startWrite => exact begins names
  | startWriteStream => exact begins ((congrArg Handle.names (h.startWriteStreamHandle w)).symm.trans names)
  | finishWrite => exact Or.inl (ends (h.commitCycleEnding w) names)
  | failWrite => exact Or.inl (ends (h.rollBackEnding w) names)
  | delete => exact Or.inl (ends (h.retireEnding w) names)
  | getBaseFile => exact Or.inl names
  | readFully => exact Or.inl names
  | openRead => exact Or.inl names

theorem Run.spelled {first : Handle} {past : Past} (run : Run first past h) (built : first.names = .ofBase base)
    (names : h.names = .writing base s) : Proper (folderOf base) (s.after (leafOf base)) := by
  induction run with
  | start =>
    have idle : first.names.temp? = none := by rw [built]; rfl
    rw [names] at idle
    cases idle
  | call before c w ih =>
    rcases c.spelled (before.over built) names with same | proper
    · exact ih same
    · exact proper

end Spelling

namespace Handle
variable {base : String} {h : Handle} {w : World} {i : Ino} {c : Bytes} {m : Nat}

def SelfCopies (h : Handle) (w : World) (i : Ino) : Prop :=
  h.forced w = true ∧ h.allowsCopy = true ∧ w.fs.lookup h.names.basePath = .ok i

inductive Spares {α : Type} (h : Handle) (w : World) (temp base : String) (i : Ino) (c : Bytes) (m : Nat) :
    Except Errno α → Fs → Prop where
  | kept {e fs} (kept : ¬ h.SelfCopies w i → fs.contents? (Path.ofString temp) = some c) :
      Spares h w temp base i c m (.error e) fs
  | done {a fs}
      (placed : h.forced w = false → Plain (leafOf base) → ∃ d,
        w.fs.lookup (Path.ofString base).folder = .ok d ∧ fs.Holds d (leafOf base) i c m)
      (delivered : ¬ h.SelfCopies w i → h.forced w = true ∨ Direct base w.fs →
        fs.contents? (Path.ofString base) = some c)
      (emptied : h.SelfCopies w i → fs.node? i = some (.file [] m)) : Spares h w temp base i c m (.ok a) fs

theorem sparesMap {α β : Type} {f : α → β} {temp : String} {result : Except Errno α} {fs : Fs} :
    Spares h w temp base i c m (result.map f) fs ↔ Spares h w temp base i c m result fs := by
  cases result with
  | error e =>
    constructor
    all_goals
      rintro ⟨kept⟩
      exact .kept kept
  | ok a =>
    constructor
    all_goals
      intro spares
      cases spares with
      | done placed delivered emptied => exact .done placed delivered emptied

section Ends
variable {s : Suffix} {d : Ino} (names : h.names = .writing base s) (tidy : w.fs.Tidy)
  (temp : Proper (folderOf base) (s.after (leafOf base))) (home : w.fs.Home (folderOf base) d)
  (held : w.fs.Holds d (s.after (leafOf base)) i c m)
include temp home held

theorem refusedSpares {α : Type} (e : Errno) : Spares h w (Template.fill (Template.stemOf base) s) base i c m
    (.error e : Except Errno α) w.fs := by
  refine .kept fun _ => ?_
  rw [tempPath]
  exact home.contents temp held

include names tidy

theorem commitToSpares : Spares h w (Template.fill (Template.stemOf base) s) base i c m
    (h.commitTo (Template.fill (Template.stemOf base) s) w).1
    (h.commitTo (Template.fill (Template.stemOf base) s) w).2.fs := by
  have based : h.names.basePath = Path.ofString base := by rw [names]; rfl
  have led : w.fs.lookup (tempOf base s) = .ok i := by
    rw [tempOf, tempPath]
    exact home.lookup temp held.entry (Fs.notInner held.outer).2
  have apart : h.forced w = true → h.allowsCopy = true → ¬ h.SelfCopies w i →
      w.fs.lookup (Path.ofString base) ≠ .ok i :=
    fun crosses allowed other self => other ⟨crosses, allowed, based ▸ self⟩
  have ended := h.commitRunning (Template.fill (Template.stemOf base) s) w
  rw [based] at ended
  generalize h.commitTo (Template.fill (Template.stemOf base) s) w = r at ended
  cases ended with
  | unready | refused | barred => exact refusedSpares temp home held _
  | renamed ready free renamed =>
    refine .done (fun _ plain => ?_) (fun _ direct => ?_) fun self => ?_
    · obtain ⟨folder, placed, _⟩ := renamedTo plain tidy temp home held ready renamed
      exact ⟨d, folder, placed⟩
    · rcases direct with crossed | apart
      · cases free.symm.trans crossed
      · exact (renamedTo apart.plain tidy temp home held ready renamed).2.2 apart
    · cases free.symm.trans self.1
  | broken _ crosses allowed broke =>
    exact .kept fun other => Commit.copyOverSpares broke tidy led held.file (apart crosses allowed other)
  | copied _ crosses allowed copied =>
    refine .done (fun unforced => ?_) (fun other _ => ?_) fun self => ?_
    · cases crosses.symm.trans unforced
    · rw [tempPath] at copied
      exact Commit.copyOverDelivers copied tidy home temp held (apart crosses allowed other)
    · exact Commit.copyOverEmpties copied tidy led held.file (based ▸ self.2.2)

theorem commitCycleSpares : Spares h w (Template.fill (Template.stemOf base) s) base i c m
    (h.commitCycle w).result (h.commitCycle w).world.fs := by
  have pending : h.names.temp? = some (Template.fill (Template.stemOf base) s) := by rw [names]; rfl
  have ran := commitToSpares names tidy temp home held
  have ended := h.committing w
  generalize h.commitCycle w = r at ended
  cases ended with
  | idle idle => cases pending.symm.trans idle
  | unflushed pending' refused => exact refusedSpares temp home held _
  | failed pending' _ refused =>
    cases pending.symm.trans pending'
    rw [refused] at ran
    exact ran
  | done pending' _ committed =>
    cases pending.symm.trans pending'
    rw [committed] at ran
    dsimp only
    rw [endCycleFs]
    exact ran

end Ends

/-- A commit that does not copy the temp file over itself loses no byte of it. Where it fails, the bytes are in the
temp file and the cycle is still open; where it succeeds, they are in the base. -/
theorem commitSpares {first : Handle} {past : Past} {temp : String} (built : first.names = .ofBase base)
    (run : Run first past h) (tidy : w.fs.Tidy) (pending : h.names.temp? = some temp)
    (staged : w.fs.lookupEntry (Path.ofString temp) = .ok i) (file : w.fs.node? i = some (.file c m)) :
    (∃ fs, h.Told fs (h.finishWrite w).world.fs ∧ Spares h w temp base i c m (h.finishWrite w).result fs) ∧
      ((h.finishWrite w).result ≠ .ok () → (h.finishWrite w).handle = h) := by
  have named := run.over built
  obtain ⟨s, rfl, names⟩ : ∃ s, temp = Template.fill (Template.stemOf base) s ∧ h.names = .writing base s := by
    generalize h.names = n at named pending
    cases named with
    | live => cases pending
    | retired => cases pending
    | writing s =>
      cases pending
      exact ⟨s, rfl, rfl⟩
  have proper := run.spelled built names
  rw [tempPath] at staged
  obtain ⟨d, home, entry, _⟩ := Fs.entryHome (folderEnds base) proper.plain staged
  have spares := commitCycleSpares names tidy proper home ⟨entry, file⟩
  rw [finishWriteResult]
  refine ⟨⟨_, h.finishWriteTold w, sparesMap.mpr spares⟩, fun failed => ?_⟩
  cases result : (h.commitCycle w).result with
  | error e => exact (commitCycleUndone result).1
  | ok done =>
    rw [result] at failed
    exact absurd rfl failed

def besideTemp (link : Fs → Path → Except Errno Fs) : Handle × World :=
  let h : Handle := { Handle.ofBase "f" with policy := .relaxed, forceExdev := some true }
  let started := h.startWrite { fs := .bare }
  let temp := Path.ofString started.handle.names.staging
  let staged := (started.world.fs.writeWhole temp [7, 8]).fs
  (started.handle, { started.world with fs := (Fs.Change.ofExcept staged (link staged temp)).fs })

theorem linkDelivered :
    let b := besideTemp fun fs _ => fs.symlink (Path.ofString "f") (Path.ofString "g")
    (b.1.finishWrite b.2).result = .ok () ∧
      (b.1.finishWrite b.2).world.fs.contents? (Path.ofString "f") = some [7, 8] := by
  intro b
  have run : Run { Handle.ofBase "f" with policy := .relaxed, forceExdev := some true } _ b.1 :=
    .call .start .startWrite { fs := .bare }
  have kept : ∀ node ∈ b.2.fs.nodes.toList, node.WellKept b.2.fs.nodes.size := by decide +kernel
  have staged : b.2.fs.lookupEntry (Path.ofString b.1.names.staging) = .ok 4 := by decide +kernel
  have done : (b.1.finishWrite b.2).result = .ok () := by decide +kernel
  have crosses : b.1.forced b.2 = true := by decide +kernel
  have other : ¬ b.1.SelfCopies b.2 4 := by
    rintro ⟨_, _, self⟩
    have none : b.2.fs.lookup b.1.names.basePath = .error .enoent := by decide +kernel
    cases none.symm.trans self
  have built : ({ Handle.ofBase "f" with policy := .relaxed, forceExdev := some true } : Handle).names = .ofBase "f" :=
    rfl
  obtain ⟨⟨fs, told, spares⟩, _⟩ := commitSpares built run (Fs.tidyOf kept).1 rfl staged
    (c := [7, 8]) (m := 0o600) (by decide +kernel)
  have sink : b.1.sink = {} := Call.performSink .startWrite _ _
  have same : (b.1.finishWrite b.2).world.fs = fs := by
    rw [Told, sink] at told
    rcases told with same | ⟨_, same⟩ <;> exact same
  refine ⟨done, ?_⟩
  rw [done] at spares
  rw [same]
  cases spares with
  | done _ delivered => exact delivered other (Or.inl crosses)

theorem aliasEmptied :
    let b := besideTemp fun fs temp => fs.hardLink (Path.ofString "f") temp
    b.2.fs.contents? (Path.ofString b.1.names.staging) = some [7, 8] ∧
      b.2.fs.contents? (Path.ofString "f") = some [7, 8] ∧ (b.1.finishWrite b.2).result = .ok () ∧
      (b.1.finishWrite b.2).world.fs.contents? (Path.ofString "f") = some [] := by
  decide +kernel

end Handle
end AtomicUpdate
