import AtomicUpdate.Proofs.Fs.Straight
import AtomicUpdate.Proofs.Snapshot.Session
import AtomicUpdate.Proofs.Staged.RoundTrip

/-! Three ways to read what is committed. Each of them resolves the base and opens what its canonical path leads
to, so all are refused for one reason or all reach one file; they differ only in how long a base they take and in
what they make of a file with nothing in it. -/
namespace AtomicUpdate

namespace Session

def run (fs : Fs) : List ReadCall → Session → Except Errno Session
  | [], x => .ok x
  | call :: calls, x => do
      let x ← x.call fs call
      run fs calls x

theorem Faithful.run {c : Bytes} {i : Ino} {m : Nat} {fs : Fs} {x : Session} (faithful : x.Faithful c i)
    (file : fs.node? i = some (.file c m)) (calls : List ReadCall) :
    ∃ x', run fs calls x = .ok x' ∧ x'.Faithful c i := by
  induction calls generalizing x with
  | nil => exact ⟨x, rfl, faithful⟩
  | cons call calls ih =>
    obtain ⟨x₁, called, faithful₁⟩ := faithful.call file call
    obtain ⟨x₂, ran, faithful₂⟩ := ih faithful₁
    refine ⟨x₂, ?_, faithful₂⟩
    rw [Session.run, called]
    exact ran

end Session

structure Source.Delivers (fs : Fs) (c : Bytes) (s : Source) : Prop where
  whole : (s.rest fs).map (·.1) = .ok c
  pieces : ∀ calls, ∃ x, Session.run fs calls ⟨s, [], false⟩ = .ok x ∧ x.delivered <+: c ∧
    (x.ended = true → x.delivered = c)

theorem Source.delivers {fs : Fs} {i : Ino} {c : Bytes} {m : Nat} {s : Source}
    (file : fs.node? i = some (.file c m)) (follows : s.Follows c i []) : s.Delivers fs c where
  whole := by
    obtain ⟨bytes, s', got, _, all⟩ := follows.rest file
    rw [got, ← all]
    rfl
  pieces := by
    intro calls
    have fresh : Session.Faithful c i ⟨s, [], false⟩ := ⟨follows, fun ended => by cases ended⟩
    obtain ⟨x, ran, faithful⟩ := fresh.run file calls
    exact ⟨x, ran, faithful.follows.within, faithful.whole⟩

namespace Fs

structure Settles (fs : Fs) (p q : Path) (i : Ino) : Prop where
  resolved : Files.canonical fs p = .ok q
  opens : Files.openReadOnly fs q = .ok i
  spelled : q = Path.slash :: Path.join q.names
  straight : fs.Straight fs.root q.names i
  itself : Files.canonical fs q = .ok q
  leads : fs.lookup q = .ok i
  same : ∀ j, fs.lookup p = .ok j → j = i

theorem Sane.settles {fs : Fs} (sane : fs.Sane) {p q : Path} {i : Ino}
    (resolved : Files.canonical fs p = .ok q) (opens : Files.openReadOnly fs q = .ok i) : fs.Settles p q i := by
  obtain ⟨_, _, canonical⟩ := bindOk resolved
  obtain ⟨_, allowed, _⟩ := bindOk opens
  have leads := openReadOnlyLed opens
  obtain ⟨top, rfl, traced⟩ := canonicalTrail sane.tidy sane.upright canonical
  have ends := traced.leads leads
  refine ⟨resolved, opens, ?_, ends ▸ traced.straight, ?_, leads,
    fun j named => canonicalLeads sane.tidy sane.upright canonical named leads⟩
  · rw [traced.names]
    exact pathSpelled top
  · rw [Files.canonical, Path.forbidNone _ (Path.noneForbidden allowed)]
    exact canonicalItself traced leads

theorem barsOrSettles {fs : Fs} (sane : fs.Sane) (p : Path) : (∃ e, fs.Bars p e) ∨ ∃ q i, fs.Settles p q i := by
  rcases fs.barsOrOpens p with bars | ⟨q, i, resolved, opens⟩
  · exact Or.inl bars
  · exact Or.inr ⟨q, i, sane.settles resolved opens⟩

end Fs

namespace Handle
variable {h : Handle} {w : World} {e : Errno} {q : Path} {i : Ino}

def Brief (h : Handle) : Prop := h.names.base.utf8ByteSize < Limits.pathMax

theorem openBaseBarred (brief : h.Brief) (bars : w.fs.Bars h.names.basePath e) :
    (h.openBase w).1 = .error e := by
  have barred := openResolvedBarred bars
  rw [openBase, if_neg (Nat.not_le.mpr brief)]
  generalize h.openResolved w = r at barred
  obtain ⟨result, w'⟩ := r
  cases barred
  rfl

structure Refused (h : Handle) (w : World) (e : Errno) : Prop where
  streamed : (h.openRead w).result = .error e
  whole : (h.readFully w).result = .error e
  opened : h.Brief → (h.getBaseFile w).result = .error e

theorem refused (bars : w.fs.Bars h.names.basePath e) : h.Refused w e where
  streamed := openReaderBarred bars
  whole := readContentsBarred bars
  opened := fun brief => openBaseBarred brief bars

def readerOn (w : World) (q : Path) (i : Ino) : Reader := { file := { ino := i, owner := w.owners }, path := q }

def fileOn (w : World) (q : Path) (i : Ino) : BaseFile := { file := { ino := i, owner := w.owners }, path := q }

/-- What readers are given of a base that they reach. To be read as a whole, what is there must have a size that
a buffer can be reserved for. A directory has such a size as well, but no bytes to read. -/
structure Reached (h : Handle) (w : World) (q : Path) (i : Ino) : Prop where
  streamed : (h.openRead w).result = .ok (readerOn w q i)
  opened : h.Brief → (h.getBaseFile w).result = .ok (fileOn w q i)
  pieces : ∀ c m, w.fs.node? i = some (.file c m) →
    Source.Delivers (h.openRead w).world.fs c (.buffered (readerOn w q i)) ∧
    Source.Delivers (h.getBaseFile w).world.fs c (.bare (fileOn w q i).file)
  whole : ∀ c m, w.fs.node? i = some (.file c m) → c ≠ [] → Files.reservable c.length = true →
    (h.readFully w).result = .ok c
  empty : ∀ m, w.fs.node? i = some (.file [] m) → (h.readFully w).result = .error .eio
  oversized : ∀ c m, w.fs.node? i = some (.file c m) → Files.reservable c.length = false →
    (h.readFully w).result = .error .enomem
  directory : w.fs.isDir i = true → Files.reservable (w.fs.size i) = true →
    (h.readFully w).result = .error .eio
  oversizedDir : w.fs.isDir i = true → Files.reservable (w.fs.size i) = false →
    (h.readFully w).result = .error .enomem

theorem readWhole (root : w.fs.isDir w.fs.root = true) (settles : w.fs.Settles h.names.basePath q i)
    {c : Bytes} {m : Nat} (file : w.fs.node? i = some (.file c m)) :
    (h.readFully w).result = wholeOf (some c) :=
  readFullyOpened (openResolvedOf settles.resolved settles.opens) file (Fs.sizeOf root file)

theorem readDirectory (settles : w.fs.Settles h.names.basePath q i) (dir : w.fs.isDir i = true)
    (reserved : Files.reservable (w.fs.size i) = true) : (h.readFully w).result = .error .eio := by
  change (h.readContents w).1 = _
  rw [readContents, openResolvedOf settles.resolved settles.opens]
  dsimp only
  split
  · rfl
  · rename_i some'
    -- The first read fails, whatever the size that the directory is said to have.
    obtain ⟨line, failed⟩ := Files.readSizedDir dir some' reserved
    rw [failed]

theorem readOversizedDir (settles : w.fs.Settles h.names.basePath q i)
    (oversized : Files.reservable (w.fs.size i) = false) : (h.readFully w).result = .error .enomem := by
  have some' : w.fs.size i ≠ 0 := by
    intro zero
    rw [zero] at oversized
    cases oversized
  change (h.readContents w).1 = _
  rw [readContents, openResolvedOf settles.resolved settles.opens]
  dsimp only
  rw [if_neg some', Files.readSizedTooLong w i oversized]

theorem reached (quiet : h.Quiet) (root : w.fs.isDir w.fs.root = true)
    (settles : w.fs.Settles h.names.basePath q i) : h.Reached w q i where
  streamed := congrArg Prod.fst (openReaderOf settles.resolved settles.opens)
  opened := by
    intro brief
    change (h.openBase w).1 = _
    rw [openBase, if_neg (Nat.not_le.mpr brief), openResolvedOf settles.resolved settles.opens]
    rfl
  pieces := by
    intro c m file
    obtain ⟨based, _, streamed⟩ := readFs quiet w
    exact ⟨Source.delivers (streamed ▸ file) ⟨rfl, rfl⟩, Source.delivers (based ▸ file) ⟨rfl, rfl⟩⟩
  whole c m file some' reserved := (readWhole root settles file).trans (wholeFits some' reserved)
  empty m file := readWhole root settles file
  oversized c m file oversized := (readWhole root settles file).trans (wholeOversized oversized)
  directory := readDirectory settles
  oversizedDir _ := readOversizedDir settles

def Passive {α : Type} (h : Handle) (w : World) (r : Ran α) : Prop :=
  r.handle = h ∧ ∃ owners events, r.world = { w with owners, events }

theorem readerPassive (quiet : h.Quiet) {w' : World} (looked : w.Looked w') {α : Type} (result : Except Errno α)
    (details : Json.Value) : Passive h w ((Ran.mk result h w').reported .read h.names.base details) := by
  obtain ⟨owners, lines, _, _, rfl⟩ := looked
  obtain ⟨events, told⟩ := reportWorld quiet .read h.names.base details result
    { w with owners, events := w.events ++ lines }
  exact ⟨rfl, owners, events, told⟩

/-- Either the base bars all readers for the same reason, or it has a canonical path that all of them open, and
each gives what is in the file there; only a file of so many bytes that no buffer can be reserved for them is
refused to the one that reads it as a whole. A base that is too long is refused to the one that opens it as a file,
in whatever tree. As no reader leaves anything changed, it does not matter in which order they come. -/
theorem readersAgree (quiet : h.Quiet) :
    (∀ w, Passive h w (h.openRead w) ∧ Passive h w (h.readFully w) ∧ Passive h w (h.getBaseFile w) ∧
      (¬ h.Brief → (h.getBaseFile w).result = .error .eperm)) ∧
    ∀ fs : Fs, fs.Sane →
      (∃ e, fs.Bars h.names.basePath e ∧ ∀ w : World, w.fs = fs → h.Refused w e) ∨
      ∃ q i, fs.Settles h.names.basePath q i ∧ ∀ w : World, w.fs = fs → h.Reached w q i := by
  refine ⟨fun w => ⟨?_, ?_, ?_, fun long => ?_⟩, fun fs sane => ?_⟩
  · exact readerPassive quiet (h.openReaderLooks w) _ _
  · exact readerPassive quiet (h.readContentsLooks w) _ _
  · exact readerPassive quiet (h.openBaseLooks w) _ _
  · change (h.openBase w).1 = _
    rw [openBase, if_pos (Nat.not_lt.mp long)]
  · rcases Fs.barsOrSettles sane h.names.basePath with ⟨e, bars⟩ | ⟨q, i, settles⟩
    · refine Or.inl ⟨e, bars, ?_⟩
      rintro w rfl
      exact refused bars
    · refine Or.inr ⟨q, i, settles, ?_⟩
      rintro w rfl
      exact reached quiet sane.root settles

def linkedFile : Fs where
  nodes := #[.dir ⟨[(Path.ofString "d", 1), (Path.ofString "l", 2)]⟩ 0 0o755,
    .dir ⟨[(Path.ofString "f", 3)]⟩ 0 0o755, .link (Path.ofString "d"), .file [1, 2, 3] 0o644]
  root := 0
  cwd := 0

theorem linkedFileRead :
    let h := Handle.ofBase "l/.//f"
    let w : World := { fs := linkedFile }
    (h.Quiet ∧ linkedFile.Sane) ∧ linkedFile.Settles (Path.ofString "l/.//f") (Path.ofString "/d/f") 3 ∧
      (h.openRead w).result = .ok (readerOn w (Path.ofString "/d/f") 3) ∧
      (h.getBaseFile w).result = .ok (fileOn w (Path.ofString "/d/f") 3) ∧
      (h.readFully w).result = .ok [1, 2, 3] := by
  intro h w
  have quiet : h.Quiet := fun _ _ => rfl
  have sane : linkedFile.Sane := Fs.saneOf (by decide +kernel) (by decide +kernel) (by decide +kernel) rfl
  have resolves : Files.canonical linkedFile h.names.basePath = .ok (Path.ofString "/d/f") := by decide +kernel
  have opens : Files.openReadOnly linkedFile (Path.ofString "/d/f") = .ok 3 := by decide +kernel
  rcases (readersAgree quiet).2 linkedFile sane with ⟨e, bars, _⟩ | ⟨q, i, settles, told⟩
  · rcases bars with unresolved | ⟨q, resolved, unopened⟩
    · cases resolves.symm.trans unresolved
    · cases resolves.symm.trans resolved
      cases opens.symm.trans unopened
  · cases resolves.symm.trans settles.resolved
    cases opens.symm.trans settles.opens
    have reached := told w rfl
    have brief : h.Brief := by unfold Brief; decide +kernel
    exact ⟨⟨quiet, sane⟩, settles, reached.streamed, reached.opened brief, reached.whole _ _ rfl (by decide) (by decide)⟩

end Handle
end AtomicUpdate
