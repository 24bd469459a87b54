import AtomicUpdate.Proofs.Sized
import AtomicUpdate.Proofs.Store.Undo

/-! Reading the base on its ground, and what a caller does to its own temp file. Reading gives the bytes
of the file that has the base's name, or says why there are none. -/
namespace AtomicUpdate

inductive Edit
  | clear
  | put (pos : Nat) (data : Bytes)
  deriving DecidableEq, Repr

namespace Edit

def apply : Edit → Bytes → Bytes
  | .clear, _ => []
  | .put pos data, old => if data = [] then old else Fs.overwrite old pos data

def perform (e : Edit) (p : Path) (fs : Fs) : Fs :=
  match fs.lookup p with
  | .error _ => fs
  | .ok i =>
      match e with
      | .clear => fs.truncate i
      | .put pos data =>
          match fs.writeAt i pos data with
          | .ok fs => fs
          | .error _ => fs

theorem performed (e : Edit) {p : Path} {fs : Fs} {i : Ino} {c : Bytes} {m : Nat}
    (found : fs.lookup p = .ok i) (file : fs.node? i = some (.file c m)) :
    ∃ m', Fs.OnlyAt i fs (e.perform p fs) ∧ (e.perform p fs).node? i = some (.file (e.apply c) m') ∧
      ∀ b b' a, (Node.file b m').permits a = (Node.file b' m).permits a := by
  unfold perform
  rw [found]
  cases e with
  | clear =>
    obtain ⟨only, emptied⟩ := Fs.truncateFile file
    exact ⟨_, only, emptied, fun _ b' a => Node.permitsWithdrawn _ b' m a⟩
  | put pos data =>
    obtain ⟨fs', m', wrote, only, there, rights, _⟩ := Fs.writeFile file pos data
    dsimp only
    rw [wrote]
    exact ⟨m', only, there, rights⟩

end Edit

/-- What a reader of a whole file is told. It reads nothing where nothing is in the file, and where no buffer
can be reserved for all that is in it. -/
def wholeOf : Option Bytes → Except Errno Bytes
  | none => .error .enoent
  | some bytes =>
      if bytes = [] then .error .eio
      else if Files.reservable bytes.length then .ok bytes
      else .error .enomem

theorem wholeFits {c : Bytes} (some' : c ≠ []) (fits : Files.reservable c.length = true) :
    wholeOf (some c) = .ok c := by
  rw [wholeOf, if_neg some', if_pos fits]

theorem wholeOversized {c : Bytes} (oversized : Files.reservable c.length = false) :
    wholeOf (some c) = .error .enomem := by
  have some' : c ≠ [] := by
    rintro rfl
    cases oversized
  rw [wholeOf, if_neg some', oversized, if_neg Bool.false_ne_true]

def openedOf : Option Bytes → Except Errno Bytes
  | none => .error .enoent
  | some bytes => .ok bytes

theorem Fs.sizeOf {fs : Fs} {i : Ino} {c : Bytes} {m : Nat} (root : fs.isDir fs.root = true)
    (file : fs.node? i = some (.file c m)) : fs.size i = c.length := by
  have other : i ≠ fs.root := by
    rintro rfl
    rw [(Fs.notInner (Fs.fileNotInner file)).1] at root
    cases root
  rw [Fs.size, if_neg other, file]
  rfl

namespace Handle
variable {first : Fs} {base : String} {q : Path} {d : Ino} {h : Handle} {w : World} {s : Suffix}
  {i : Ino} {c : Bytes} {m : Nat}

theorem editEnds (ground : Ground first base q d) (evolves : first.Evolves w.fs)
    (staging : Staging base d h w.fs s i c m) (e : Edit) :
    ∃ fs' m', e.perform (folderOf base ++ s.after (leafOf base)) w.fs = fs' ∧
      Fs.OnlyAt i w.fs fs' ∧ fs'.node? i = some (.file (e.apply c) m') ∧
      ∀ b b' a, (Node.file b m').permits a = (Node.file b' m).permits a := by
  have found := (ground.home evolves).lookup (ground.temp s) staging.holds.entry
    (Fs.notInner staging.holds.outer).2
  obtain ⟨m', only, there, rights⟩ := e.performed found staging.holds.file
  exact ⟨_, m', rfl, only, there, rights⟩

theorem rootDir (ground : Ground first base q d) : first.isDir first.root = true := by
  obtain ⟨place, found, there, _⟩ := Fs.lookupExact ground.stands.back
  have goes := (Fs.locateExact found).2
  rw [Fs.startOf, ground.stands.absolute, if_pos rfl, Fs.walk] at goes
  cases way : first.advance (Follow.always.creates && q.endsInSlash) first.root q.names with
  | error e => rw [way] at goes; cases goes
  | ok halt =>
    by_cases none : q.names = []
    · rw [none] at way
      cases way
      rw [none] at goes
      cases goes
      cases there
      exact ground.stands.dir
    · exact (Fs.advanced way).fromDir none

theorem sizeFile (ground : Ground first base q d) (evolves : first.Evolves w.fs)
    (file : w.fs.node? i = some (.file c m)) : w.fs.size i = c.length :=
  Fs.sizeOf (evolves.keeps.root.symm ▸ evolves.keeps.dir (rootDir ground)) file

theorem readOpened {path : Path} (opened : h.openResolved w = (.ok (i, path), w))
    (file : w.fs.node? i = some (.file c m)) (size : w.fs.size i = c.length) :
    ∃ events, h.readContents w = (wholeOf (some c), { w with events }) := by
  unfold readContents
  rw [opened]
  dsimp only
  rw [size]
  by_cases none : c = []
  · subst none
    exact ⟨_, rfl⟩
  · have long : c.length ≠ 0 := fun zero => none (List.eq_nil_of_length_eq_zero zero)
    rw [if_neg long]
    cases reserved : Files.reservable c.length with
    | true =>
      rw [Files.readSizedFile file reserved, List.take_length, wholeFits none reserved]
      exact ⟨w.events, rfl⟩
    | false =>
      rw [Files.readSizedTooLong w i reserved, wholeOversized reserved]
      exact ⟨w.events, rfl⟩

theorem readFullyOpened {path : Path} (opened : h.openResolved w = (.ok (i, path), w))
    (file : w.fs.node? i = some (.file c m)) (size : w.fs.size i = c.length) :
    (h.readFully w).result = wholeOf (some c) := by
  obtain ⟨events, read⟩ := readOpened opened file size
  exact congrArg Prod.fst read

def Readable (base : String) (d : Ino) (fs : Fs) : Prop :=
  fs.named? d (leafOf base) = none ∨ ∃ i c m, fs.Holds d (leafOf base) i c m ∧
    (Node.file c m).permits .read = true

theorem openResolvedEnds (ground : Ground first base q d) (evolves : first.Evolves w.fs)
    (based : h.names.base = base) (readable : Readable base d w.fs) :
    (w.fs.contents? (Path.ofString base) = none ∧
        ∃ events, h.openResolved w = (.error .enoent, { w with events })) ∨
      ∃ i c m, w.fs.node? i = some (.file c m) ∧ w.fs.contents? (Path.ofString base) = some c ∧
        h.openResolved w = (.ok (i, Fs.below q (leafOf base)), w) := by
  have home := ground.home evolves
  have path : h.names.basePath = Path.ofString base := by rw [Names.basePath, based]
  rcases readable with free | ⟨i, c, m, holds, may⟩
  · left
    rw [openResolvedUnresolved (path ▸ ground.unresolved evolves free)]
    refine ⟨?_, _, rfl⟩
    rw [basePath]
    exact home.contentsNone ground.leaf free
  · right
    refine ⟨i, c, m, holds.file, ?_, ?_⟩
    · rw [basePath]
      exact home.contents ground.leaf holds
    · exact openResolvedOf (path ▸ ground.resolved evolves holds) (ground.reopened evolves holds may)

theorem readContentsEnds (ground : Ground first base q d) (evolves : first.Evolves w.fs)
    (based : h.names.base = base) (readable : Readable base d w.fs) :
    ∃ events, h.readContents w =
      (wholeOf (w.fs.contents? (Path.ofString base)), { w with events }) := by
  rcases openResolvedEnds ground evolves based readable with
    ⟨bytes, events, opened⟩ | ⟨i, c, m, file, bytes, opened⟩
  · rw [readContents, opened, bytes]
    exact ⟨events, rfl⟩
  · rw [bytes]
    exact readOpened opened file (sizeFile ground evolves file)

theorem readFullyEnds (ground : Ground first base q d) (evolves : first.Evolves w.fs) (quiet : h.Quiet)
    (unsided : h.Unsided) (based : h.names.base = base) (readable : Readable base d w.fs) :
    (h.readFully w).result = wholeOf (w.fs.contents? (Path.ofString base)) ∧
      (h.readFully w).handle = h ∧ (h.readFully w).world.fs = w.fs ∧
      Steady h w h (h.readFully w).world := by
  obtain ⟨events, read⟩ := readContentsEnds ground evolves based readable
  have told := fun details => reportWorld quiet .read h.names.base details (h.readContents w).1
    (h.readContents w).2
  obtain ⟨events', world⟩ : ∃ events, (h.readFully w).world = { (h.readContents w).2 with events } :=
    told _
  refine ⟨?_, rfl, ?_, ?_⟩
  · change (h.readContents w).1 = _
    rw [read]
  · rw [world, read]
  · rw [world, read]
    exact ⟨rfl, rfl, rfl, unsided, rfl, rfl⟩

def openAnswer (r : Ran Reader) : Except Errno Bytes :=
  r.result >>= fun reader => (reader.readAll r.world.fs).map (·.1)

theorem openAnswerFile {r : Ran Reader} {owner : Owner} {path : Path}
    (opened : r.result = .ok { file := { ino := i, owner }, path })
    (file : r.world.fs.node? i = some (.file c m)) : openAnswer r = .ok c := by
  rw [openAnswer, opened]
  change (Reader.readAll _ r.world.fs).map (·.1) = .ok c
  simp only [Reader.readAll, OpenFile.readAll, Fs.readRest, file]
  rfl

theorem openReaderEnds (ground : Ground first base q d) (evolves : first.Evolves w.fs)
    (based : h.names.base = base) (readable : Readable base d w.fs) :
    (w.fs.contents? (Path.ofString base) = none ∧
        ∃ events, h.openReader w = (.error .enoent, { w with events })) ∨
      ∃ i c m path, w.fs.node? i = some (.file c m) ∧ w.fs.contents? (Path.ofString base) = some c ∧
        h.openReader w = (.ok { file := { ino := i, owner := w.owners }, path },
          { w with owners := w.owners + 1 }) := by
  have home := ground.home evolves
  have path : h.names.basePath = Path.ofString base := by rw [Names.basePath, based]
  rcases readable with free | ⟨i, c, m, holds, may⟩
  · left
    rw [openReaderUnresolved (path ▸ ground.unresolved evolves free)]
    refine ⟨?_, _, rfl⟩
    rw [basePath]
    exact home.contentsNone ground.leaf free
  · right
    refine ⟨i, c, m, Fs.below q (leafOf base), holds.file, ?_, ?_⟩
    · rw [basePath]
      exact home.contents ground.leaf holds
    · exact openReaderOf (path ▸ ground.resolved evolves holds) (ground.reopened evolves holds may)

theorem openReadEnds (ground : Ground first base q d) (evolves : first.Evolves w.fs) (quiet : h.Quiet)
    (unsided : h.Unsided) (based : h.names.base = base) (readable : Readable base d w.fs) :
    openAnswer (h.openRead w) = openedOf (w.fs.contents? (Path.ofString base)) ∧
      (h.openRead w).handle = h ∧ (h.openRead w).world.fs = w.fs ∧
      Steady h w h (h.openRead w).world := by
  obtain ⟨events', world⟩ : ∃ events, (h.openRead w).world = { (h.openReader w).2 with events } :=
    reportWorld quiet .read h.names.base (readDetail "open_read") (h.openReader w).1 (h.openReader w).2
  have result : (h.openRead w).result = (h.openReader w).1 := rfl
  refine ⟨?_, rfl, ?_, ?_⟩
  · rcases openReaderEnds ground evolves based readable with
      ⟨bytes, events, opened⟩ | ⟨i, c, m, path, file, bytes, opened⟩
    · rw [openAnswer, result, opened, bytes]
      rfl
    · have there : (h.openRead w).world.fs.node? i = some (.file c m) := by
        rw [world, opened]
        exact file
      rw [bytes]
      exact openAnswerFile (result.trans (congrArg Prod.fst opened)) there
  · rw [world]
    rcases openReaderEnds ground evolves based readable with
      ⟨bytes, events, opened⟩ | ⟨i, c, m, path, file, bytes, opened⟩ <;> rw [opened]
  · rw [world]
    rcases openReaderEnds ground evolves based readable with
      ⟨bytes, events, opened⟩ | ⟨i, c, m, path, file, bytes, opened⟩ <;>
    · rw [opened]
      exact ⟨rfl, rfl, rfl, unsided, rfl, rfl⟩

theorem readGone (quiet : h.Quiet) (unsided : h.Unsided) (gone : h.names = .retired) (w : World) :
    ((h.readFully w).result = .error .enoent ∧ (h.readFully w).handle = h ∧
      (h.readFully w).world.fs = w.fs ∧ Steady h w h (h.readFully w).world) ∧
      openAnswer (h.openRead w) = .error .enoent ∧ (h.openRead w).handle = h ∧
      (h.openRead w).world.fs = w.fs ∧ Steady h w h (h.openRead w).world := by
  have read := readContentsGone (gone ▸ Names.goneRetired : h.names.Gone) w
  have opened := openReaderGone (gone ▸ Names.goneRetired : h.names.Gone) w
  have told := fun details => reportWorld quiet .read h.names.base details (h.readContents w).1
    (h.readContents w).2
  obtain ⟨events, world⟩ : ∃ events, (h.readFully w).world = { (h.readContents w).2 with events } :=
    told _
  obtain ⟨events', world'⟩ : ∃ events, (h.openRead w).world = { (h.openReader w).2 with events } :=
    reportWorld quiet .read h.names.base (readDetail "open_read") (h.openReader w).1 (h.openReader w).2
  have result : (h.openRead w).result = (h.openReader w).1 := rfl
  refine ⟨⟨?_, rfl, ?_, ?_⟩, ?_, rfl, ?_, ?_⟩
  · change (h.readContents w).1 = _
    rw [read]
  · rw [world, read]
    rfl
  · rw [world, read]
    exact ⟨rfl, rfl, rfl, unsided, rfl, rfl⟩
  · rw [openAnswer, result, opened]
    rfl
  · rw [world', opened]
    rfl
  · rw [world', opened]
    exact ⟨rfl, rfl, rfl, unsided, rfl, rfl⟩

end Handle
end AtomicUpdate
