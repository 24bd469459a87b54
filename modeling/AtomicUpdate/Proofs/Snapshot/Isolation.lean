import AtomicUpdate.Proofs.Snapshot.Scene
import AtomicUpdate.Proofs.Snapshot.Session

/-! Somebody who has opened the base reads from it while handles write. What is delivered is what the base
held when it was opened, from its beginning on, whatever is committed in the meantime. -/
namespace AtomicUpdate
open Handle (Over Quiet)
open Path (Plain Proper)

/-- A path of a file, that is, of no link and no directory. It ends in a name: in an upright tree there are
no others (`Fs.namedPlain`). -/
structure Fs.Regular (fs : Fs) (p : Path) (c : Bytes) : Prop where
  named : Plain p.afterSlash
  file : ∃ i m, fs.lookupEntry p = .ok i ∧ fs.node? i = some (.file c m)

namespace Handle

inductive Opens (h : Handle) (w : World) : Session → World → Prop where
  | stream {r} (ok : (h.openRead w).result = .ok r) :
      Opens h w { source := .buffered r } (h.openRead w).world
  | file {b} (ok : (h.getBaseFile w).result = .ok b) :
      Opens h w { source := .bare b.file } (h.getBaseFile w).world

variable {base : String} {h : Handle} {w w' : World} {x : Session}

structure Opened (h : Handle) (w : World) (x : Session) (w' : World) : Prop where
  fs : w'.fs = w.fs
  led : ∃ q i, Files.canonical w.fs h.names.basePath = .ok q ∧ w.fs.lookup q = .ok i ∧
    ∀ c, x.Faithful c i

theorem resolveExact {q : Path} (ok : h.resolve w = (.ok q, w')) :
    w' = w ∧ Files.canonical w.fs h.names.basePath = .ok q := by
  unfold resolve at ok
  split at ok
  · rename_i found
    cases ok
    exact ⟨rfl, found⟩
  · cases ok

theorem openReaderExact {r : Reader} (ok : h.openReader w = (.ok r, w')) :
    w'.fs = w.fs ∧ ∃ q i owner, Files.canonical w.fs h.names.basePath = .ok q ∧
      w.fs.lookup q = .ok i ∧ r = { file := ⟨i, owner, 0⟩, path := q } := by
  unfold openReader at ok
  split at ok
  · cases ok
  · rename_i path w₁ resolved
    obtain ⟨rfl, canonical⟩ := resolveExact resolved
    split at ok
    · cases ok
    · rename_i i opened
      cases ok
      exact ⟨rfl, path, i, _, canonical, Fs.openReadOnlyLed opened, rfl⟩

theorem openBaseExact {b : BaseFile} (ok : h.openBase w = (.ok b, w')) :
    w'.fs = w.fs ∧ ∃ q i owner, Files.canonical w.fs h.names.basePath = .ok q ∧
      w.fs.lookup q = .ok i ∧ b.file = ⟨i, owner, 0⟩ := by
  unfold openBase at ok
  split at ok
  · cases ok
  · split at ok
    · cases ok
    · rename_i i path w₁ found
      cases ok
      unfold openResolved at found
      split at found
      · cases found
      · rename_i path' w₂ resolved
        obtain ⟨rfl, canonical⟩ := resolveExact resolved
        split at found
        · rename_i j opened
          cases found
          exact ⟨rfl, path, i, _, canonical, Fs.openReadOnlyLed opened, rfl⟩
        · cases found

theorem Opens.opened (quiet : h.Quiet) (opens : h.Opens w x w') : h.Opened w x w' := by
  cases opens with
  | @stream r ok =>
    obtain ⟨events, world⟩ : ∃ events, (h.openRead w).world = { (h.openReader w).2 with events } :=
      reportWorld quiet .read h.names.base (readDetail "open_read") (h.openReader w).1 (h.openReader w).2
    have result : (h.openReader w).1 = .ok r := ok
    obtain ⟨same, q, i, owner, canonical, led, rfl⟩ := openReaderExact (Prod.ext result rfl)
    refine ⟨?_, q, i, canonical, led, fun c => ⟨⟨rfl, rfl⟩, fun ended => by cases ended⟩⟩
    rw [world]
    exact same
  | @file b ok =>
    obtain ⟨events, world⟩ : ∃ events, (h.getBaseFile w).world = { (h.openBase w).2 with events } :=
      reportWorld quiet .read h.names.base (readDetail "get_base_file") (h.openBase w).1 (h.openBase w).2
    have result : (h.openBase w).1 = .ok b := ok
    obtain ⟨same, q, i, owner, canonical, led, file⟩ := openBaseExact (Prod.ext result rfl)
    refine ⟨?_, q, i, canonical, led, fun c => ⟨⟨?_, ?_⟩, fun ended => by cases ended⟩⟩
    · rw [world]
      exact same
    · change b.file.ino = i
      rw [file]
    · change [] ++ [] = c.take b.file.pos
      rw [file]
      rfl

end Handle

namespace Scene

inductive Watched {ι : Type} [DecidableEq ι] : Scene ι → Session → Scene ι → Session → Prop where
  | refl (s x) : Watched s x s x
  | move {s x s' x'} (run : Watched s x s' x') (m : Move ι) (allowed : s'.Allowed m) :
      Watched s x (s'.move m) x'
  | call {s x s' x' x''} (run : Watched s x s' x') (call : ReadCall)
      (done : x'.call s'.world.fs call = .ok x'') : Watched s x s' x''

variable {ι : Type} {base : String} {c : Bytes} {s₀ s s' : Scene ι} {x x' : Session} {w : World}

theorem openedBase (sound : Sound base (fun _ => False) s)
    (regular : s.world.fs.Regular (Path.ofString base) c)
    {h : ι} (opens : (s.handles h).Opens s.world x w) :
    ∃ i m, w.fs.node? i = some (.file c m) ∧ x.Faithful c i ∧
      Sound base (fun j => False ∨ j = i) { s with world := w } := by
  obtain ⟨files, q, i, canonical, led, faithful⟩ := opens.opened (sound.quiet h)
  have based : (s.handles h).names.basePath = Path.ofString base := by
    have built := sound.built h
    generalize (s.handles h).names = names at built canonical
    cases built with
    | live => rfl
    | writing t => rfl
    | retired => cases canonical
  rw [based] at canonical
  obtain ⟨_, checked, canonical⟩ := bindOk canonical
  obtain ⟨j, m, named, file⟩ := regular.file
  have plain : Plain (leafOf base) := regular.named
  rw [basePath] at named
  obtain ⟨d, home, entry, short⟩ := Fs.entryHome (folderEnds base) plain named
  have outer := Fs.fileNotInner file
  have proper : Proper (folderOf base) (leafOf base) := by
    obtain ⟨place, found, _⟩ := Fs.lookupEntryExact named
    refine ⟨plain, short, Path.lengthFits (Fs.locateExact found).1, ?_⟩
    rw [← basePath]
    exact Path.noneForbidden checked
  have leads := home.lookup proper entry (Fs.notInner outer).2
  rw [← basePath] at leads
  have same := Fs.canonicalLeads sound.sheltered.tidy sound.sheltered.upright canonical leads led
  subst same
  refine ⟨j, m, files ▸ file, faithful c, ?_, sound.built, sound.quiet⟩
  change Sheltered base _ _ w.fs
  rw [files]
  exact sound.sheltered.read home ⟨entry, file⟩

theorem Sound.watched [DecidableEq ι] {kept : Ino → Prop} {i : Ino} {m : Nat} (sound : Sound base kept s)
    (plain : Plain (leafOf base)) (keep : kept i) (file : s.world.fs.node? i = some (.file c m))
    (faithful : x.Faithful c i) (run : Watched s x s' x') :
    Sound base kept s' ∧ s'.world.fs.node? i = some (.file c m) ∧ x'.Faithful c i := by
  induction run with
  | refl => exact ⟨sound, file, faithful⟩
  | move run m allowed ih =>
    obtain ⟨sound', file', faithful'⟩ := ih
    have spared := sound'.move plain allowed
    exact ⟨spared.sound, (spared.same keep).trans file', faithful'⟩
  | call run call done ih =>
    obtain ⟨sound', file', faithful'⟩ := ih
    obtain ⟨x₂, done', faithful''⟩ := faithful'.call file' call
    rw [done] at done'
    cases done'
    exact ⟨sound', file', faithful''⟩

theorem readersIsolated [DecidableEq ι] (fresh : s₀.Fresh base) (before : Run s₀ s)
    (regular : s.world.fs.Regular (Path.ofString base) c) {h : ι}
    (opens : (s.handles h).Opens s.world x w) (after : Watched { s with world := w } x s' x') :
    x'.delivered <+: c ∧ (x'.ended = true → x'.delivered = c) ∧
      ∀ call, ∃ x'', x'.call s'.world.fs call = .ok x'' := by
  have plain : Plain (leafOf base) := regular.named
  have sound := (fresh.sound.run plain before).sound
  obtain ⟨i, m, file, faithful, sound'⟩ := openedBase sound regular opens
  obtain ⟨_, file', faithful'⟩ := sound'.watched plain (Or.inr rfl) file faithful after
  refine ⟨faithful'.follows.within, faithful'.whole, fun call => ?_⟩
  obtain ⟨x'', done, _⟩ := faithful'.call file' call
  exact ⟨x'', done⟩

def shelf : Scene Bool where
  handles _ := .ofBase "f"
  streams := []
  world := {
    fs := {
      nodes := #[.dir ⟨[(Path.ofString "f", 1)]⟩ 0 0o755, .file [1, 2, 3] 0o644]
      root := 0
      cwd := 0 }
    draws := fun k => .ofNats k 0 0 0 0 0 }

theorem shelfFresh : shelf.Fresh "f" := by
  have kept : ∀ node ∈ shelf.world.fs.nodes.toList, node.WellKept shelf.world.fs.nodes.size := by
    decide +kernel
  obtain ⟨tidy, spelled⟩ := Fs.tidyOf kept
  have placed : ∀ d < shelf.world.fs.nodes.size, ∀ node ∈ shelf.world.fs.node? d,
      shelf.world.fs.WellPlaced d node := by decide +kernel
  exact ⟨tidy, Fs.uprightOf placed spelled, fun _ => rfl, fun _ _ _ => rfl, rfl⟩

theorem readsOn :
    let s := (shelf.move (.startWrite true)).move (.edit true (.put 0 [4]))
    let r : Reader := { file := ⟨1, 0, 0⟩, path := Path.ofString "/f" }
    let s₁ : Scene Bool := { s with world := ((s.handles false).openRead s.world).world }
    let s₂ := (s₁.move (.finishWrite true)).move (.startWriteStream false)
    let s₃ := (s₂.move (.stream 0 (.write [5, 6]))).move (.stream 0 .close)
    let s₄ := s₃.move (.finishWrite false)
    let x₂ : Session := ⟨.buffered { r with file.pos := 3 }, [1, 2, 3], true⟩
    s₂.world.fs.contents? (Path.ofString "f") = some [4] ∧
      s₄.world.fs.contents? (Path.ofString "f") = some [5, 6] ∧
      x₂.delivered <+: [1, 2, 3] ∧ (x₂.ended = true → x₂.delivered = [1, 2, 3]) ∧
      ∀ call, ∃ x, x₂.call s₄.world.fs call = .ok x := by
  intro s r s₁ s₂ s₃ s₄ x₂
  let x₁ : Session := ⟨.buffered { r with file.pos := 3, buffer := [3] }, [1, 2], false⟩
  have before : Run shelf s := ((Run.refl shelf).move (.startWrite true) trivial).move
    (.edit true (.put 0 [4])) trivial
  have regular : s.world.fs.Regular (Path.ofString "f") [1, 2, 3] :=
    ⟨by decide +kernel, 1, 0o644, by decide +kernel, by decide +kernel⟩
  have opens : (s.handles false).Opens s.world { source := .buffered r }
      ((s.handles false).openRead s.world).world := .stream (by decide +kernel)
  have first : s₁.Allowed (.finishWrite true) :=
    ⟨Handle.unforced (by decide +kernel), fun _ _ wr mem => absurd mem (by
      have none : s₁.streams = [] := by decide +kernel
      rw [none]
      exact List.not_mem_nil)⟩
  have second : s₃.Allowed (.finishWrite false) :=
    ⟨Handle.unforced (by decide +kernel), fun _ _ wr mem => absurd mem (by
      have none : s₃.streams = [] := by decide +kernel
      rw [none]
      exact List.not_mem_nil)⟩
  have one : Watched s₁ { source := .buffered r } s₁ x₁ :=
    (Watched.refl s₁ _).call (.read 2) (by decide +kernel)
  have two : Watched s₁ { source := .buffered r } s₃ x₁ :=
    (((one.move (.finishWrite true) first).move (.startWriteStream false) trivial).move
      (.stream 0 (.write [5, 6])) trivial).move (.stream 0 .close) trivial
  have three : Watched s₁ { source := .buffered r } s₄ x₂ :=
    (two.move (.finishWrite false) second).call .rest (by decide +kernel)
  exact ⟨by decide +kernel, by decide +kernel, readersIsolated shelfFresh before regular opens three⟩

end Scene
end AtomicUpdate
