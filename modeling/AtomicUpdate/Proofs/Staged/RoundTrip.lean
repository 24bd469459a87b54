import AtomicUpdate.Proofs.Commit.Agreement
import AtomicUpdate.Proofs.Handle.Reading
import AtomicUpdate.Proofs.Staged.Feed

/-! From a stream to the readers of the base. What is written into the stream, in pieces of any sizes, is what
the base has once the cycle is committed, and until then nobody who reads the base notices. -/
namespace AtomicUpdate
open Commit (Awaits)
open Fs (Reworks)
open Path (Plain Proper)

namespace Fs
variable {base : String} {fs fs' : Fs} {p : Path} {j : Ino}

/-- What lookups rely on in a tree. -/
structure Sane (fs : Fs) : Prop where
  tidy : fs.Tidy
  upright : fs.Upright
  legible : fs.Legible
  root : fs.isDir fs.root = true

theorem saneOf (kept : ∀ node ∈ fs.nodes.toList, node.WellKept fs.nodes.size)
    (placed : ∀ d < fs.nodes.size, ∀ node ∈ fs.node? d, fs.WellPlaced d node)
    (legible : ∀ node ∈ fs.nodes.toList, node.Legible) (root : fs.isDir fs.root = true) : fs.Sane where
  tidy := (tidyOf kept).1
  upright := uprightOf placed (tidyOf kept).2
  legible := legibleOf legible
  root := root

theorem Recedes.sane (recedes : Recedes fs fs') (tidy : fs'.Tidy) (sane : fs.Sane) : fs'.Sane where
  tidy := tidy
  upright := recedes.upright sane.upright
  legible := recedes.legible sane.legible
  root := recedes.back.root ▸ recedes.dirs sane.root

def Replaceable (base : String) (fs : Fs) : Prop :=
  (∀ k, fs.lookupEntry (Path.ofString base) ≠ .ok k) ∨
    ∃ j old m, fs.lookup (Path.ofString base) = .ok j ∧ fs.node? j = some (.file old m)

def Apart (base : String) (i : Ino) (fs : Fs) : Prop :=
  (∀ k, fs.lookupEntry (Path.ofString base) ≠ .ok k) ∨
    ∃ j old m, fs.lookup (Path.ofString base) = .ok j ∧ fs.node? j = some (.file old m) ∧ j ≠ i

theorem Recedes.entryBack (recedes : Recedes fs fs') (proper : Proper (folderOf base) (leafOf base)) {k : Ino}
    (old : ∀ {d}, fs'.named? d (leafOf base) = some k → fs.named? d (leafOf base) = some k)
    (ok : fs'.lookupEntry (Path.ofString base) = .ok k) : fs.lookupEntry (Path.ofString base) = .ok k := by
  rw [basePath] at ok ⊢
  obtain ⟨d, home, entry, _⟩ := entryHome (folderEnds base) proper.plain ok
  exact (recedes.home home).lookupEntry proper (old entry)

namespace Replaceable

theorem gains (replaceable : fs.Replaceable base) (proper : Proper (folderOf base) (leafOf base))
    (gains : Gains fs fs') : fs'.Replaceable base := by
  rcases replaceable with absent | ⟨j, old, m, led, file⟩
  · cases gains with
    | none => exact Or.inl absent
    | @born d n mode dir free =>
      by_cases new : ∃ k, (fs.born d n mode).lookupEntry (Path.ofString base) = .ok k
      · -- Then it is the new file that has come to be the base.
        obtain ⟨k, found⟩ := new
        have taken := found
        rw [basePath] at taken
        obtain ⟨e, home, entry, _⟩ := entryHome (folderEnds base) proper.plain taken
        have moved := entry
        rw [bornEntry dir] at moved
        split at moved
        · cases moved
          have file := bornFile fs dir n mode
          have led := home.lookup proper entry (notInner (fileNotInner file)).2
          exact Or.inr ⟨_, [], mode, basePath base ▸ led, file⟩
        · have before := ((Recedes.born free mode).home home).lookupEntry proper moved
          rw [← basePath] at before
          exact absurd before (absent k)
      · exact Or.inl fun k found => new ⟨k, found⟩
  · exact Or.inr ⟨j, old, m, lookupKept (gains.keeps fun k => k = j) led (Or.inr rfl), gains.file file⟩

theorem born (replaceable : fs.Replaceable base) (proper : Proper (folderOf base) (leafOf base)) {s : Suffix}
    {d : Ino} (dir : fs.isDir d = true) (free : fs.named? d (s.after (leafOf base)) = none) (mode : Nat) :
    Apart base fs.nodes.size (fs.born d (s.after (leafOf base)) mode) := by
  rcases replaceable with absent | ⟨j, old, m, led, file⟩
  · refine Or.inl fun k found => absent k ((Recedes.born free mode).entryBack proper ?_ found)
    intro e entry
    rwa [bornEntry dir, if_neg fun both => afterNotLeaf base s both.2.symm] at entry
  · exact Or.inr ⟨j, old, m, lookupKept (keepsBorn (fun k => k = j) free mode) led (Or.inr rfl),
      bornOther file _ mode, Nat.ne_of_lt (nodeBound file)⟩

end Replaceable

namespace Apart

theorem reworked {i : Ino} (apart : Apart base i fs) (proper : Proper (folderOf base) (leafOf base))
    {change : Bytes → Bytes} (reworks : Reworks i change fs fs') : Apart base i fs' := by
  have alike := reworks.poured.alike
  rcases apart with absent | ⟨j, old, m, led, file, other⟩
  · refine Or.inl fun k found => absent k ((Recedes.ofAlike alike).entryBack proper ?_ found)
    intro d entry
    exact (alike.entry d _).symm.trans entry
  · exact Or.inr ⟨j, old, m, (alike.lookup _).trans led, (reworks.poured.only.others j other).trans file, other⟩

theorem elsewhere {i d : Ino} (apart : Apart base i fs) (sane : fs.Sane) (home : fs.Home (folderOf base) d)
    (proper : Proper (folderOf base) (leafOf base)) : fs.Elsewhere base (some i) := by
  rintro k reached ⟨⟩
  rcases apart with absent | ⟨j, old, m, led, file, other⟩
  · have free : fs.named? d (leafOf base) = none := by
      cases taken : fs.named? d (leafOf base) with
      | none => rfl
      | some k =>
        have found := home.lookupEntry proper taken
        rw [← basePath] at found
        exact absurd found (absent k)
    rcases reached with led | ⟨q, resolved, _⟩
    · rw [basePath, home.lookupNone proper free] at led
      cases led
    · obtain ⟨_, _, canonical⟩ := bindOk resolved
      have vacant := home.vacant proper free .always
      rw [← basePath] at vacant
      exact canonicalVacant sane.tidy sane.upright vacant canonical
  · rcases reached with led' | ⟨q, resolved, led'⟩
    · cases led.symm.trans led'
      exact other rfl
    · obtain ⟨_, _, canonical⟩ := bindOk resolved
      exact other (canonicalLeads sane.tidy sane.upright canonical led led')

end Apart

theorem Reworks.worded {i : Ino} {change : Bytes → Bytes} {b : Bytes} {m : Nat}
    (reworks : Reworks i change fs fs') (file : fs.node? i = some (.file b m)) : Worded (some i) fs fs' where
  likens := by
    obtain ⟨m', file', rights⟩ := reworks.file file
    refine ⟨reworks.poured.alike, fun k a => ?_⟩
    by_cases here : k = i
    · rw [here, permits, permits, file, file']
      exact rights _ _ a
    · rw [permits, permits, reworks.poured.only.others k here]
  size := reworks.poured.only.size
  others := fun k other => reworks.poured.only.others k fun same => other (congrArg some same.symm)

end Fs

inductive Writer.Ended (wr : Writer) (w : World) (feeds : List Feed) : World → Prop where
  | closed : Ended wr w feeds ((wr.fed w.fs feeds).writer.close (w.withFs (wr.fed w.fs feeds).fs)).2
  | dropped : Ended wr w feeds ((wr.fed w.fs feeds).writer.drop (w.withFs (wr.fed w.fs feeds).fs))

namespace Handle
variable {base : String} {s : Suffix} {d i : Ino} {c : Bytes} {h : Handle} {w : World} {wr : Writer}

structure Underway (base : String) (s : Suffix) (d i : Ino) (c : Bytes) (h : Handle) (fs : Fs) : Prop where
  names : h.names = .writing base s
  quiet : h.Quiet
  plain : Plain (leafOf base)
  sane : fs.Sane
  staged : ∃ m, Fs.Intact base s d i c m fs
  apart : fs.Apart base i

theorem openTempBlank {temp : String} (opened : (openTemp temp w).1 = .ok wr) :
    wr.file.pos = 0 ∧ wr.buffer = [] := by
  unfold openTemp at opened
  dsimp only at opened
  split at opened
  · cases opened
  · cases opened
    exact ⟨rfl, rfl⟩

theorem startUnderway (built : Over base h.names) (quiet : h.Quiet) (plain : Plain (leafOf base))
    (sane : w.fs.Sane) (replaceable : w.fs.Replaceable base) (opened : (h.startWriteStream w).result = .ok wr) :
    ∃ s d i, Underway base s d i [] (h.startWriteStream w).handle (h.startWriteStream w).world.fs ∧
      wr.Carries i (h.startWriteStream w).world.fs [] (h.startWriteStream w).world.fs ∧ wr.buffer = [] := by
  have begun : Begun base h w (h.openCycle w) := openCycleBegun built
  have started := startWriteFs quiet w
  have result : (h.startWrite w).result = (h.openCycle w).result := rfl
  have handle : (h.startWrite w).handle = (h.openCycle w).handle := rfl
  generalize h.openCycle w = r at begun started result handle
  cases begun with
  | refused error names sink gains =>
    rw [startWriteStreamRefused (result.trans error)] at opened
    cases opened
  | @opened s fs d idle ok names sink gains home proper free write made =>
    rw [startWriteStreamOpens (result.trans ok)] at opened ⊢
    rw [made] at started
    have leaf := proper.shorter plain
    have intact := Fs.Intact.born home proper free write
    have tidy := (Fs.evolvesBorn (gains.tidy sane.tidy) free 0o600).tidy
    have apart := (replaceable.gains leaf gains).born leaf home.dir free 0o600
    have recedes := gains.recedes.trans (.born free 0o600)
    rw [← started] at intact tidy apart recedes
    rcases openTempIntact intact with ⟨e, failed, _⟩ | ⟨wr', opened', ino, reworks⟩
    · cases opened.symm.trans failed
    · cases opened.symm.trans opened'
      obtain ⟨m, intact'⟩ := intact.reworked reworks
      obtain ⟨pos, buffer⟩ := openTempBlank opened
      refine ⟨s, d, _, {
        names := (congrArg Handle.names handle).trans names
        quiet := quiet.same ((congrArg Handle.sink handle).trans sink)
        plain := plain
        sane := (recedes.trans (.ofAlike reworks.poured.alike)).sane (reworks.poured.tidy tidy) sane
        staged := ⟨m, intact'⟩
        apart := apart.reworked leaf reworks }, ⟨ino, ?_, pos, ?_⟩, buffer⟩
      · exact .ofFile (.refl _ _) intact'.holds.file intact'.holds.file fun _ _ _ => rfl
      · rw [buffer]
        exact Nat.zero_le _

theorem commitReads (home : w.fs.Home (folderOf base) d)
    (temp : Proper (folderOf base) (s.after (leafOf base))) (leaf : Proper (folderOf base) (leafOf base))
    (names : h.names = .writing base s) {done : Committed} {w' : World}
    (committed : h.commitTo (Template.fill (Template.stemOf base) s) w = (.ok done, w')) :
    w.fs.permits d .read = true := by
  cases read : w.fs.permits d .read with
  | true => rfl
  | false =>
    have path : h.names.basePath = folderOf base ++ leafOf base := by rw [← basePath, names]; rfl
    have unready := Commit.preparedHome home temp leaf
    rw [read, if_neg Bool.false_ne_true] at unready
    rw [commitTo, path, tempPath, Commit.runUnready unready] at committed
    cases committed

section
variable {m : Nat} (awaits : Awaits w.fs (folderOf base) d (s.after (leafOf base)) (leafOf base) i c m)
  (names : h.names = .writing base s) {done : Committed} {w' : World}
  (committed : h.commitTo (Template.fill (Template.stemOf base) s) w = (.ok done, w'))
include awaits names committed

theorem commitDelivers : ∃ mode, w'.fs.Delivered (tempOf base s) (Path.ofString base) c mode ∧
    (∀ x y a, (Node.file x mode).permits a = (Node.file y m).permits a) ∧ Fs.Recedes w.fs w'.fs ∧ w'.fs.Tidy := by
  have path : h.names.basePath = Path.ofString base := by rw [names]; rfl
  have ended := h.commitRunning (Template.fill (Template.stemOf base) s) w
  rw [committed, path] at ended
  cases ended with
  | renamed _ free _ =>
    obtain ⟨fs', moved, delivered, _, recedes, tidy⟩ := renamesStaged awaits names free
    cases moved.symm.trans committed
    exact ⟨m, delivered, fun _ _ _ => rfl, recedes, tidy⟩
  | copied _ crosses allowed copied =>
    have may : ∀ j, w.fs.lookup (Path.ofString base) = .ok j → w.fs.permits j .write = true := by
      intro j led
      cases open' : w.fs.permits j .write with
      | true => rfl
      | false =>
        rw [basePath] at led
        have barred := awaits.barred led open' (Commit.warned (Path.ofString base) w) rfl
        rw [← tempPath, ← basePath, copied] at barred
        cases barred
    obtain ⟨j, fs', mode, done, delivered, _, _, rights, _, recedes, tidy⟩ :=
      copiesStaged awaits h names may crosses allowed
    cases done.symm.trans committed
    exact ⟨mode, delivered, rights, recedes, tidy⟩

end

namespace Underway

theorem leaf {fs : Fs} (underway : Underway base s d i c h fs) : Proper (folderOf base) (leafOf base) := by
  obtain ⟨m, intact⟩ := underway.staged
  exact intact.proper.shorter underway.plain

theorem contents {fs : Fs} (underway : Underway base s d i c h fs) : fs.contents? (tempOf base s) = some c := by
  obtain ⟨m, intact⟩ := underway.staged
  exact Fs.contentsOf intact.lookup intact.holds.file

theorem reworked {fs fs' : Fs} (underway : Underway base s d i c h fs) {change : Bytes → Bytes}
    (reworks : Reworks i change fs fs') : Underway base s d i (change c) h fs' where
  names := underway.names
  quiet := underway.quiet
  plain := underway.plain
  sane := (Fs.Recedes.ofAlike reworks.poured.alike).sane (reworks.poured.tidy underway.sane.tidy) underway.sane
  staged := by
    obtain ⟨m, intact⟩ := underway.staged
    exact intact.reworked reworks
  apart := underway.apart.reworked underway.leaf reworks

theorem rereads {w' : World} (underway : Underway base s d i c h w.fs) {change : Bytes → Bytes}
    (reworks : Reworks i change w.fs w'.fs) : Rereads h w w' := by
  obtain ⟨m, intact⟩ := underway.staged
  have elsewhere := underway.apart.elsewhere underway.sane intact.home underway.leaf
  have based : h.names.base = base := by rw [underway.names]; rfl
  exact rereadsWorded underway.quiet (reworks.worded intact.holds.file) (based ▸ elsewhere)

theorem commits (underway : Underway base s d i c h w.fs) (done : (h.finishWrite w).result = .ok ()) :
    (h.finishWrite w).handle.names = .ofBase base ∧
      Gives (h.finishWrite w).handle (h.finishWrite w).world c := by
  obtain ⟨m, intact⟩ := underway.staged
  have leaf := underway.leaf
  have names := underway.names
  have temp : h.names.temp? = some (Template.fill (Template.stemOf base) s) := by rw [names]; rfl
  obtain ⟨_, done, w', pending, flushed, committed, _⟩ := committedBy done
  cases temp.symm.trans pending
  have poised : Poised base s i c m h.names w.fs := {
    names := names
    plain := underway.plain
    noNul := basePath base ▸ leaf.noNul
    tidy := underway.sane.tidy
    upright := underway.sane.upright
    root := underway.sane.root
    staged := intact.lookupEntry
    file := intact.holds.file
    committed := underway.apart }
  have folder : w.fs.lookup (Path.ofString base).folder = .ok d := basePath base ▸ intact.home.folder leaf
  have read := commitReads intact.home intact.proper leaf names committed
  obtain ⟨d', folder', awaits⟩ := poised.awaits (fun e led => by
    cases folder.symm.trans led
    exact ⟨read, intact.write⟩) intact.readable
  obtain ⟨mode, ⟨_, j, led, file⟩, rights, recedes, tidy⟩ := commitDelivers awaits names committed
  have sane := recedes.sane tidy underway.sane
  have ended := h.finishWriteDone underway.quiet pending flushed committed
  have files : (h.finishWrite w).world.fs = w'.fs := by rw [ended]
  have sink : (h.finishWrite w).handle.sink = h.sink := by rw [ended]
  have closed : (h.finishWrite w).handle.names = .ofBase base := by
    rw [ended, names]
    rfl
  have path : (h.finishWrite w).handle.names.basePath = Path.ofString base := by rw [closed]; rfl
  rw [← files] at sane led file
  refine ⟨closed, ?_⟩
  exact gives (underway.quiet.same sink) sane.tidy sane.upright sane.legible sane.root (path ▸ led) file
    ((rights _ _ _).trans intact.readable)

end Underway

/-- Bytes are written into a new stream, in whatever pieces and with whatever flushes. None of it fails; the
temp file always has what has been written but for an end of one buffer at most, and all of it after a flush;
and readers of the base are told the same as before. When the stream has been closed or dropped and a commit goes
through, be it by a rename or by a copy, they are given just those bytes wherever the base has a canonical path. -/
theorem streamedDelivered (built : Over base h.names) (quiet : h.Quiet) (plain : Plain (leafOf base))
    (sane : w.fs.Sane) (replaceable : w.fs.Replaceable base) (opened : (h.startWriteStream w).result = .ok wr) :
    let r := h.startWriteStream w
    ∃ s, r.handle.names = .writing base s ∧
      (∀ feeds,
        let fed := wr.fed r.world.fs feeds
        let now := r.world.withFs fed.fs
        fed.result = .ok () ∧ (fed.writer.close now).1 = .ok () ∧ Rereads r.handle r.world now ∧
        ∃ staged rest, now.fs.contents? (tempOf base s) = some staged ∧ staged ++ rest = Feed.all feeds ∧
          rest.length ≤ Limits.streamBuffer ∧ (feeds.getLast? = some .flush → rest = [])) ∧
      (∀ feeds ended, wr.Ended r.world feeds ended →
        let done := r.handle.finishWrite ended
        Rereads r.handle r.world ended ∧ ended.fs.contents? (tempOf base s) = some (Feed.all feeds) ∧
        (done.result = .ok () → done.handle.names = .ofBase base ∧
          Gives done.handle done.world (Feed.all feeds))) ∧
      ∀ feeds feeds' ended ended', Feed.all feeds = Feed.all feeds' →
        wr.Ended r.world feeds ended → wr.Ended r.world feeds' ended' →
        let done := r.handle.finishWrite ended
        let done' := r.handle.finishWrite ended'
        done.result = .ok () → done'.result = .ok () →
        done.world.fs.contents? (Path.ofString base) = done'.world.fs.contents? (Path.ofString base) := by
  intro r
  obtain ⟨s, d, i, underway, carries, blank⟩ := startUnderway built quiet plain sane replaceable opened
  obtain ⟨m, intact⟩ := underway.staged
  have start := intact.holds.file
  have carried := fun feeds => carries.feeds start feeds
  rw [blank] at carried
  have filled : ∀ {feeds ended}, wr.Ended r.world feeds ended →
      Reworks i (fun _ => Feed.all feeds) r.world.fs ended.fs := by
    intro feeds ended lets
    obtain ⟨_, staged, carries', whole, _⟩ := carried feeds
    obtain ⟨dropped, _, closed⟩ := Writer.Carries.ends start (w := r.world.withFs _) carries'
    rw [whole] at dropped closed
    cases lets with
    | closed => exact closed
    | dropped => exact dropped
  have delivers : ∀ {feeds ended}, wr.Ended r.world feeds ended → (r.handle.finishWrite ended).result = .ok () →
      (r.handle.finishWrite ended).handle.names = .ofBase base ∧
        Gives (r.handle.finishWrite ended).handle (r.handle.finishWrite ended).world (Feed.all feeds) :=
    fun lets done => (underway.reworked (filled lets)).commits done
  refine ⟨s, underway.names, fun feeds => ?_, fun feeds ended lets => ?_, ?_⟩
  · obtain ⟨ok, staged, carries', whole, flushed⟩ := carried feeds
    obtain ⟨_, closes, _⟩ := Writer.Carries.ends start (w := r.world.withFs _) carries'
    exact ⟨ok, closes, underway.rereads carries'.file, staged, _, (underway.reworked carries'.file).contents,
      whole, carries'.small, flushed⟩
  · exact ⟨underway.rereads (filled lets), (underway.reworked (filled lets)).contents, delivers lets⟩
  · intro feeds feeds' ended ended' same lets lets' done done' ok ok'
    obtain ⟨names, gives⟩ := delivers lets ok
    obtain ⟨names', gives'⟩ := delivers lets' ok'
    exact (gives.based names).trans (same ▸ gives'.based names').symm

def firstStream (base : String) (i : Ino) : Writer :=
  { file := { ino := i, owner := 0 }, path := tempOf base (Suffix.scattered 0) }

theorem streamedFound :
    let h : Handle := .ofBase "f"
    let r := h.startWriteStream { fs := .bare }
    let fed := (firstStream "f" 4).fed r.world.fs [.write [1, 2], .flush, .write [3]]
    let done := r.handle.finishWrite (fed.writer.close (r.world.withFs fed.fs)).2
    (r.result = .ok (firstStream "f" 4) ∧ fed.fs.contents? (tempOf "f" (Suffix.scattered 0)) = some [1, 2]) ∧
      done.result = .ok () ∧ (done.handle.readFully done.world).result = .ok [1, 2, 3] ∧
      openAnswer (done.handle.openRead done.world) = .ok [1, 2, 3] := by
  intro h r fed done
  have sane : Fs.bare.Sane := Fs.saneOf (by decide +kernel) (by decide +kernel) (by decide +kernel) rfl
  have none : ∀ k, Fs.bare.lookupEntry (Path.ofString "f") ≠ .ok k := by
    have missing : Fs.bare.lookupEntry (Path.ofString "f") = .error .enoent := by decide +kernel
    intro k found
    cases missing.symm.trans found
  have opened : r.result = .ok (firstStream "f" 4) := by decide +kernel
  have ok : done.result = .ok () := by decide +kernel
  have canonical : Files.canonical done.world.fs done.handle.names.basePath = .ok (Path.ofString "/f") := by
    decide +kernel
  have staged : fed.fs.contents? (tempOf "f" (Suffix.scattered 0)) = some [1, 2] := by decide +kernel
  have whole : wholeOf (some (Feed.all [.write [1, 2], .flush, .write [3]])) = .ok [1, 2, 3] := by
    decide +kernel
  obtain ⟨_, _, _, ends, _⟩ := streamedDelivered .live (fun _ _ => rfl) (by decide +kernel) sane (Or.inl none)
    opened
  have gives : Gives done.handle done.world _ := ((ends [.write [1, 2], .flush, .write [3]] _ .closed).2.2 ok).2
  exact ⟨⟨opened, staged⟩, ok, (gives.whole _ canonical).trans whole, gives.opened _ canonical⟩

def stranded : World where
  fs := {
    nodes := Fs.bare.nodes.push (.dir .empty 0 0o755)
    root := 0
    cwd := 4 }

theorem committedUnread :
    ¬ ∀ (base : String) (h : Handle) (w : World) (wr : Writer) (feeds : List Feed) (ended : World),
      h.names = .ofBase base → h.Quiet → Plain (leafOf base) → w.fs.Sane → w.fs.Replaceable base →
      (h.startWriteStream w).result = .ok wr → wr.Ended (h.startWriteStream w).world feeds ended →
      let done := (h.startWriteStream w).handle.finishWrite ended
      done.result = .ok () → (done.handle.readFully done.world).result = wholeOf (some (Feed.all feeds)) := by
  intro always
  have sane : stranded.fs.Sane := Fs.saneOf (by decide +kernel) (by decide +kernel) (by decide +kernel) rfl
  have none : ∀ k, stranded.fs.lookupEntry (Path.ofString "../b") ≠ .ok k := by
    have missing : stranded.fs.lookupEntry (Path.ofString "../b") = .error .enoent := by decide +kernel
    intro k found
    cases missing.symm.trans found
  have read := always "../b" (.ofBase "../b") stranded (firstStream "../b" 5) [.write [97, 98, 99]] _ rfl
    (fun _ _ => rfl) (by decide +kernel) sane (Or.inl none) (by decide +kernel) .closed (by decide +kernel)
  exact absurd read (by decide +kernel)

end Handle
end AtomicUpdate
