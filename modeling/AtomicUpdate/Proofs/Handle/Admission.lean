import AtomicUpdate.Proofs.Commit.Fallback
import AtomicUpdate.Proofs.Fs.Absence
import AtomicUpdate.Proofs.Fs.Resolved
import AtomicUpdate.Proofs.Handle.Begin
import AtomicUpdate.Proofs.Handle.Retired

/-! Which starts succeed. What a start asks of the files is asked of its template: how long the template and
its last segment are, and where the part up to the last slash leads. Whether the folder exists is seen on the
path's parent, and the file is made by the text as it is; the two see the same, whatever the base ends in. -/
namespace AtomicUpdate
open Path (Plain Proper)

namespace Path

theorem cutThrough {pre n : Path} (ends : pre = [] ∨ ∃ a, pre = a ++ [slash]) (single : slash ∉ n) :
    throughSlash (pre ++ n) = pre ∧ afterSlash (pre ++ n) = n := by
  have passed : ∀ c ∈ n.reverse, decide (c ≠ slash) = true := by
    intro c member
    exact decide_eq_true fun same => single (same ▸ List.mem_reverse.mp member)
  rw [throughSlash, afterSlash, List.reverse_append, List.dropWhile_append_of_pos passed,
    List.takeWhile_append_of_pos passed]
  rcases ends with rfl | ⟨a, rfl⟩ <;> simp

end Path

namespace Fs
variable {fs : Fs} {pre n : Path} {d : Ino}

theorem Home.ahead (home : fs.Home pre d) (proper : Proper pre n) : fs.lookup (ahead pre) = .ok d := by
  rcases home.ends with rfl | ⟨a, same⟩
  · have bare := home.folder proper
    rwa [List.nil_append, Path.folderBare proper.plain] at bare
  · have some' : pre ≠ [] := by simp [same]
    have within : pre.length < Limits.pathMax := by
      have whole := proper.within
      rw [List.length_append] at whole
      exact Nat.lt_of_add_right_lt whole
    obtain ⟨slash, place, goes, there⟩ := home.led
    obtain ⟨p, goes', same'⟩ := walkFlag goes pre.endsInSlash
    rw [Fs.ahead, if_neg some', Fs.lookup, locateOf .always (checkFits some' within), goes']
    exact nodeAtDir (same' ▸ there) home.dir

/-- A file can be made of a template. No call takes a path that is too long or has a NUL byte, and a
directory that has been removed takes no entry. -/
structure Receptive (fs : Fs) (template : Path) (d : Ino) : Prop where
  noNul : 0 ∉ template
  within : template.length < Limits.pathMax
  short : (Path.afterSlash template).length ≤ Limits.nameMax
  led : fs.lookup (ahead (Path.throughSlash template)) = .ok d
  dir : fs.isDir d = true
  here : fs.isGone d = false

theorem receptiveExact (privileged : fs.Privileged) (ends : pre = [] ∨ ∃ a, pre = a ++ [Path.slash])
    (plain : Plain n) : fs.Receptive (pre ++ n) d ↔ fs.Home pre d ∧ Proper pre n := by
  obtain ⟨through, after⟩ := Path.cutThrough ends plain.noSlash
  constructor
  · intro receptive
    have led := receptive.led
    have short := receptive.short
    rw [through] at led
    rw [after] at short
    exact ⟨⟨ends, ledAhead ends led, receptive.dir, receptive.here, privileged d .search receptive.dir⟩,
      plain, short, receptive.within, receptive.noNul⟩
  · rintro ⟨home, proper⟩
    exact ⟨proper.noNul, proper.within, after.symm ▸ proper.short, through.symm ▸ home.ahead proper, home.dir,
      home.here⟩

structure Adds (fs : Fs) (p : Path) (fs' : Fs) (d : Ino) (n : Name) (i : Ino) : Prop where
  free : fs.named? d n = none
  unused : fs.node? i = none
  holds : fs'.Holds d n i [] 0o600
  found : fs'.lookupEntry p = .ok i
  rest : ButFor d n i fs fs'
  stays : ∀ follow q place, fs.locate follow q = .ok place → place.spot.ino?.isSome = true →
    fs'.locate follow q = .ok place

theorem Adds.born (home : fs.Home pre d) (proper : Proper pre n) (free : fs.named? d n = none) :
    fs.Adds (pre ++ n) (fs.born d n 0o600) d n fs.nodes.size := by
  have keeps := keepsBorn (fun _ => True) free 0o600
  have holds := bornHolds home.dir n 0o600
  refine ⟨free, Array.getElem?_eq_none (Nat.le_refl _), holds, (home.kept keeps).lookupEntry proper holds.entry,
    { root := keeps.root, cwd := keeps.cwd, entries := ?_, nodes := ?_ }, ?_⟩
  · intro e k elsewhere
    rw [bornEntry home.dir, if_neg elsewhere]
  · exact fun k old => outlineBorn fs d n 0o600 old
  · intro follow q place located occupied
    obtain ⟨i, there⟩ := Option.isSome_iff_exists.mp occupied
    exact locateKept keeps located there (Or.inr trivial)

end Fs

namespace Handle
variable {base : String} {h : Handle} {w : World}

theorem properDrawn (base : String) (s : Suffix) :
    Proper (folderOf base) (s.after (leafOf base)) ↔ Proper (folderOf base) (blankOf base) := by
  have size : (s.after (leafOf base)).length = (blankOf base).length := by
    rw [Suffix.after, blankOf, blankTail, List.length_append, List.length_append, List.length_cons,
      List.length_cons, s.bytesLength]
    rfl
  have clean : 0 ∉ folderOf base ++ s.after (leafOf base) ↔ 0 ∉ folderOf base ++ blankOf base := by
    have drawn : 0 ∉ 95 :: s.bytes := by
      rw [List.mem_cons, not_or]
      exact ⟨by decide, fun mem => (s.bytesPlain mem).1 rfl⟩
    have blank : 0 ∉ Path.ofString Limits.tempSuffix := by decide
    simp only [Suffix.after, blankOf, List.mem_append, drawn, blank, or_false]
  constructor
  · rintro ⟨_, short, within, noNul⟩
    rw [List.length_append, size] at within
    exact ⟨blankPlain base, size ▸ short, by rwa [List.length_append], clean.mp noNul⟩
  · rintro ⟨_, short, within, noNul⟩
    rw [List.length_append, ← size] at within
    exact ⟨afterPlain base s, size ▸ short, by rwa [List.length_append], clean.mpr noNul⟩

theorem createTempMakes {d : Ino} {s : Suffix} (live : h.names = .ofBase base)
    (drawn : w.draws (w.drawn + 0) = s) (home : w.fs.Home (folderOf base) d)
    (proper : Proper (folderOf base) (s.after (leafOf base))) (write : w.fs.permits d .write = true)
    (free : w.fs.named? d (s.after (leafOf base)) = none) :
    h.createTemp w = (.ok (Template.fill (Template.stemOf base) s),
      { w with fs := w.fs.born d (s.after (leafOf base)) 0o600, drawn := w.drawn + 1 }) := by
  -- The folder is looked for by the template and the file is made by the drawn name.
  have blank := (properDrawn base s).mp proper
  have folder : h.names.folder = (folderOf base ++ blankOf base).folder := by
    rw [live, ← blankPath]
    rfl
  have exists' : Files.checkExists w.fs h.names.folder = .ok () := by
    rw [folder, Files.checkExists, Path.forbidNone _ (home.folderNoNul blank)]
    change (w.fs.lookup _ >>= fun _ => Except.ok ()) = _
    rw [home.folder blank]
    rfl
  have template : Template.stem? h.names.staging = some (Template.stemOf base) := by
    rw [live]
    exact Template.stemOfBase base
  have name : Files.drawName (Template.stemOf base) w 0 = Template.fill (Template.stemOf base) s := by
    rw [Files.drawName, drawn]
  have made : Files.tryName w.fs (Template.fill (Template.stemOf base) s) =
      .ok (w.fs.nodes.size, w.fs.born d (s.after (leafOf base)) 0o600) := by
    rw [Files.tryName, tempPath, Path.forbidNone _ proper.noNul]
    change w.fs.createNew 0o600 _ = _
    rw [Fs.createNew, home.vacant proper free]
    change w.fs.enter d (s.after (leafOf base)) (.file [] 0o600) = _
    rw [Fs.enterFile, if_pos write]
  rw [createTemp, exists']
  dsimp only
  rw [Files.createFrom, template]
  dsimp only
  rw [Limits.attempts, Files.createUniqueTry, name, made]

def startRefusal (h : Handle) (w : World) : Errno := if h.isPending then .ebusy else h.refusal w

theorem refusedAs {e : Errno} (failed : (h.startWrite w).result = .error e) : e = h.startRefusal w := by
  replace failed : (h.openCycle w).result = .error e := failed
  have ended := h.opening w
  generalize h.openCycle w = r at ended failed
  have closed : h.names.temp? = none → h.isPending = false := fun idle => by
    rw [isPending, idle]
    rfl
  unfold startRefusal
  cases ended with
  | busy pending =>
    cases failed
    rw [isPending, pending]
    rfl
  | locked idle refused =>
    cases failed
    rw [closed idle, if_neg Bool.false_ne_true, (h.takeGuardAnswer w).1 _ refused]
  | failed idle granted refused =>
    rw [closed idle, if_neg Bool.false_ne_true, (h.takeGuardAnswer w).2.1 _ granted]
    cases failed
    rcases (h.takeGuard w).handle.createTempExact (h.takeGuard w).world with
      ⟨drawn, events, ended⟩ | ⟨_, _, _, _, _, _, _, _, _, _, ended⟩
    · cases refused.symm.trans ended
      rfl
    · cases refused.symm.trans ended
  | opened idle granted created => cases failed

section
variable {first : Handle} {past : Past}

theorem liveNow (built : first.names = .ofBase base) (run : Run first past h) (idle : h.isPending = false) :
    h.names = .ofBase base ↔ ¬ past.Deleted := by
  obtain ⟨now, gone⟩ := run.names (Or.inr (built ▸ Names.liveOfBase base))
  have named := run.over built
  constructor
  · intro live deleted
    exact (live ▸ Names.liveOfBase base).notGone (gone deleted)
  · intro kept
    have use := now kept
    rw [isPending] at idle
    generalize h.names = names at named use idle
    cases named with
    | live => rfl
    | writing s => cases idle
    | retired => exact absurd Names.goneRetired use.notGone

theorem roomExact (privileged : w.fs.Privileged) (base : String) (s : Suffix) (d : Ino) :
    w.fs.Receptive (Path.ofString (Template.ofBase base)) d ↔
      w.fs.Home (folderOf base) d ∧ Proper (folderOf base) (s.after (leafOf base)) := by
  rw [blankPath, Fs.receptiveExact privileged (folderEnds base) (blankPlain base), properDrawn]

theorem admittedOnly (built : first.names = .ofBase base) (run : Run first past h)
    (privileged : w.fs.Privileged) {temp : String} (started : (h.startWrite w).result = .ok temp) :
    h.isPending = false ∧ ¬ past.Deleted ∧ (∃ g, (h.takeGuard w).result = .ok g) ∧
      ∃ d, w.fs.Receptive (Path.ofString (Template.ofBase base)) d := by
  obtain ⟨g, idle, granted, created⟩ := openedBy started
  have names := h.takeGuardNames w
  have closed : h.isPending = false := by
    rw [isPending, idle]
    rfl
  obtain ⟨s, d, live, _, home, proper, _⟩ := createdIn (names ▸ run.over built) (names ▸ idle) created
  exact ⟨closed, (liveNow built run closed).mp (names ▸ live), ⟨g, granted⟩, d,
    (roomExact privileged base s d).mpr ⟨(h.takeGuardSided w).gains.recedes.home home, proper⟩⟩

theorem admitted (built : first.names = .ofBase base) (run : Run first past h) (privileged : w.fs.Privileged)
    (fresh : ∀ i, (h.takeGuard w).world.fs.lookupEntry
      (Path.ofString (Files.drawName (Template.stemOf base) (h.takeGuard w).world 0)) ≠ .ok i)
    (closed : h.isPending = false) (kept : ¬ past.Deleted) {g : Option Guard}
    (granted : (h.takeGuard w).result = .ok g) {d : Ino}
    (receptive : w.fs.Receptive (Path.ofString (Template.ofBase base)) d) :
    ∃ temp, (h.startWrite w).result = .ok temp := by
  have live := (h.takeGuardNames w).trans ((liveNow built run closed).mpr kept)
  generalize drawn : (h.takeGuard w).world.draws ((h.takeGuard w).world.drawn + 0) = s at *
  obtain ⟨home, proper⟩ := (roomExact privileged base s d).mp receptive
  -- A lock file may have been made by now; it takes no folder away, nor a right to write in one.
  have keeps := (h.takeGuardSided w).gains.keeps fun _ => False
  have home' := home.kept keeps
  have write := (keeps.permits home.dir .write).trans (privileged d .write home.dir)
  have free : (h.takeGuard w).world.fs.named? d (s.after (leafOf base)) = none := by
    rw [Option.eq_none_iff_forall_not_mem]
    intro i entry
    refine fresh i ?_
    rw [Files.drawName, drawn, tempPath]
    exact home'.lookupEntry proper entry
  have made := createTempMakes live drawn home' proper write free
  have ended := h.opening w
  change ∃ temp, (h.openCycle w).result = .ok temp
  generalize h.openCycle w = r at ended
  cases ended with
  | busy pending =>
    rw [isPending, pending] at closed
    cases closed
  | locked idle refused => cases granted.symm.trans refused
  | failed idle _ refused => cases made.symm.trans refused
  | opened idle _ created => exact ⟨_, rfl⟩

theorem startAdds (built : Over base h.names) {temp : String} (started : (h.startWrite w).result = .ok temp) :
    ∃ fs fs' d n i, Sided w.fs h.lock fs ∧ fs.Adds (Path.ofString temp) fs' d n i ∧
      h.Told fs' (h.startWrite w).world.fs := by
  obtain ⟨g, idle, _, created⟩ := openedBy started
  have names := h.takeGuardNames w
  obtain ⟨s, d, _, rfl, home, proper, free, _, made⟩ := createdIn (names ▸ built) (names ▸ idle) created
  have adds := Fs.Adds.born home proper free
  rw [← made, ← tempPath] at adds
  exact ⟨_, _, d, _, _, h.takeGuardSided w, adds, h.startWriteTold w⟩

/-- With a name drawn that nothing has, and for somebody who may do everything in directories, a start succeeds
if and only if no cycle is open, nothing was deleted, the lock is granted and a file can be made of the template.
It is then the only entry that is new, that of a lock file apart. -/
theorem startAdmits (built : first.names = .ofBase base) (run : Run first past h)
    (privileged : w.fs.Privileged)
    (fresh : ∀ i, (h.takeGuard w).world.fs.lookupEntry
      (Path.ofString (Files.drawName (Template.stemOf base) (h.takeGuard w).world 0)) ≠ .ok i) :
    ((∃ temp, (h.startWrite w).result = .ok temp) ↔
      h.isPending = false ∧ ¬ past.Deleted ∧ (∃ g, (h.takeGuard w).result = .ok g) ∧
        ∃ d, w.fs.Receptive (Path.ofString (Template.ofBase base)) d) ∧
    (∀ e, (h.startWrite w).result = .error e → e = h.startRefusal w) ∧
    ∀ temp, (h.startWrite w).result = .ok temp → ∃ fs fs' d n i, Sided w.fs h.lock fs ∧
      fs.Adds (Path.ofString temp) fs' d n i ∧ h.Told fs' (h.startWrite w).world.fs := by
  refine ⟨⟨?_, ?_⟩, fun e => refusedAs, fun temp => startAdds (run.over built)⟩
  · rintro ⟨temp, started⟩
    exact admittedOnly built run privileged started
  · rintro ⟨closed, kept, ⟨g, granted⟩, d, receptive⟩
    exact admitted built run privileged fresh closed kept granted receptive

end

theorem startAfterSlash :
    let h : Handle := { Handle.ofBase "dev/" with lock := some (.sidecar (Path.ofString "dev/.lock")) }
    let w : World := { fs := .bare }
    let named := Path.ofString (Files.drawName (Template.stemOf "dev/") (h.takeGuard w).world 0)
    w.fs.Privileged ∧ (h.takeGuard w).world.fs.lookupEntry named = .error .enoent ∧
      w.fs.Receptive (Path.ofString (Template.ofBase "dev/")) 1 ∧
      ∃ temp, (h.startWrite w).result = .ok temp ∧ ∃ fs fs' d n i, Sided w.fs h.lock fs ∧
        fs.Adds (Path.ofString temp) fs' d n i ∧ h.Told fs' (h.startWrite w).world.fs := by
  intro h w named
  have privileged : w.fs.Privileged := by decide +kernel
  have absent : (h.takeGuard w).world.fs.lookupEntry named = .error .enoent := by decide +kernel
  have receptive : w.fs.Receptive (Path.ofString (Template.ofBase "dev/")) 1 :=
    ⟨by decide +kernel, by decide +kernel, by decide +kernel, by decide +kernel, by decide +kernel,
      by decide +kernel⟩
  have built : h.names = .ofBase "dev/" := rfl
  obtain ⟨admitted, _, added⟩ := startAdmits built .start privileged fun i found => by
    cases absent.symm.trans found
  have granted : (h.takeGuard w).result = .ok (some (.sidecar 0)) := by decide +kernel
  obtain ⟨temp, started⟩ := admitted.mpr ⟨rfl, by rintro ⟨⟩, ⟨_, granted⟩, 1, receptive⟩
  exact ⟨privileged, absent, receptive, temp, started, added temp started⟩

end Handle
end AtomicUpdate
