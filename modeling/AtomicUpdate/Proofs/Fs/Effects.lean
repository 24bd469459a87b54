import AtomicUpdate.Proofs.Fs.Resolved

/-! What each call does to a file of a known directory, and that lookups of directories do not notice
it. A file whose bytes change keeps the rights that its owner has. -/
namespace AtomicUpdate

namespace Node

theorem withdrawnBit (mode : Nat) (a : Access) : withdrawn mode &&& a.bit = mode &&& a.bit := by
  unfold withdrawn
  rw [Nat.and_assoc]
  congr 1
  split <;> cases a <;> decide

theorem permitsWithdrawn (b b' : Bytes) (m : Nat) (a : Access) :
    (Node.file b (withdrawn m)).permits a = (Node.file b' m).permits a := by
  change decide (withdrawn m &&& a.bit ≠ 0) = decide (m &&& a.bit ≠ 0)
  rw [withdrawnBit]

end Node

namespace Fs
open Path (Proper)

variable {fs fs' fs'' : Fs}

structure Evolves (fs fs' : Fs) : Prop where
  keeps : Keeps (fun _ => False) fs fs'
  traces : Traces fs fs'
  more : fs.nodes.size ≤ fs'.nodes.size
  tidy : fs'.Tidy

namespace Evolves

theorem refl (tidy : fs.Tidy) : Evolves fs fs :=
  ⟨Keeps.refl _ fs, Traces.refl fs, Nat.le_refl _, tidy⟩

theorem trans (first : Evolves fs fs') (second : Evolves fs' fs'') : Evolves fs fs'' :=
  ⟨first.keeps.trans second.keeps, first.traces.trans second.traces,
    Nat.le_trans first.more second.more, second.tidy⟩

theorem erase (tidy : fs.Tidy) {d : Ino} {n : Name}
    (loose : ∀ i, fs.named? d n = some i → fs.isInner i = false) :
    Evolves fs (fs.updateDir d (·.erase n)) where
  keeps := keepsErase tidy fun i entry firm => by
    rcases firm with inner | spare
    · rw [loose i entry] at inner
      cases inner
    · exact spare
  traces := Traces.erase tidy fun i entry => (notInner (loose i entry)).1
  more := Nat.le_of_eq (sizeUpdateDir fs d _).symm
  tidy := tidy.erase d n

theorem move (tidy : fs.Tidy) {d i : Ino} {old new : Name} (entry : fs.named? d old = some i)
    (looseOld : fs.isInner i = false)
    (looseNew : ∀ j, fs.named? d new = some j → fs.isInner j = false) :
    Evolves fs (fs.updateDir d (fun es => supplant new i (es.erase old))) := by
  have loose : ∀ {j}, fs.isInner j = false → ¬ fs.Firm (fun _ => False) j := by
    rintro j outer (inner | spare)
    · rw [outer] at inner
      cases inner
    · exact spare
  have only : ∀ j, fs.named? d old = some j → fs.isInner j = false := by
    intro j entry'
    rw [entry] at entry'
    cases entry'
    exact looseOld
  exact {
    keeps := keepsMove tidy (fun j entry => loose (only j entry)) (fun j entry => loose (looseNew j entry))
    traces := Traces.move tidy (fun j entry => (notInner (only j entry)).1)
      (fun j entry => (notInner (looseNew j entry)).1)
    more := Nat.le_of_eq (sizeUpdateDir fs d _).symm
    tidy := tidy.move d old new (tidy.entryBound entry) }

theorem ofAlike (tidy : fs.Tidy) (alike : Alike fs fs') (more : fs.nodes.size ≤ fs'.nodes.size) :
    Evolves fs fs' :=
  ⟨alike.keeps, Traces.ofAlike alike, more, alike.tidy more tidy⟩

theorem set (tidy : fs.Tidy) {d i : Ino} {n : Name} (free : fs.named? d n = none)
    (bound : i < fs.nodes.size) : Evolves fs (fs.updateDir d (·.set n i)) where
  keeps := keepsSet free i
  traces := Traces.set free i
  more := Nat.le_of_eq (sizeUpdateDir fs d _).symm
  tidy := tidy.set free bound

end Evolves

def born (fs : Fs) (d : Ino) (n : Name) (mode : Nat) : Fs :=
  (fs.add (.file [] mode)).2.updateDir d (·.set n fs.nodes.size)

theorem enterFile (fs : Fs) (d : Ino) (n : Name) (mode : Nat) :
    fs.enter d n (.file [] mode) =
      if fs.permits d .write then .ok (fs.nodes.size, fs.born d n mode) else .error .eacces := by
  rw [enter, demand]
  split <;> rfl

theorem sizeAdd (fs : Fs) (node : Node) : (fs.add node).2.nodes.size = fs.nodes.size + 1 :=
  Array.size_push node

theorem keepsBorn (spared : Ino → Prop) {d : Ino} {n : Name} (free : fs.named? d n = none)
    (mode : Nat) : Keeps spared fs (fs.born d n mode) := by
  have alike := alikeAdd fs [] mode
  exact alike.keeps.trans (keepsSet ((alike.entry d n).trans free) fs.nodes.size)

theorem evolvesBorn (tidy : fs.Tidy) {d : Ino} {n : Name} (free : fs.named? d n = none) (mode : Nat) :
    Evolves fs (fs.born d n mode) := by
  have alike := alikeAdd fs [] mode
  have added : Evolves fs (fs.add (.file [] mode)).2 :=
    Evolves.ofAlike tidy alike (by rw [sizeAdd]; exact Nat.le_succ _)
  refine added.trans (Evolves.set added.tidy ((alike.entry d n).trans free) ?_)
  rw [sizeAdd]
  exact Nat.lt_succ_self _

theorem bornEntry {d : Ino} (dir : fs.isDir d = true) (n : Name) (mode : Nat) (e : Ino) (k : Name) :
    (fs.born d n mode).named? e k = if e = d ∧ k = n then some fs.nodes.size else fs.named? e k := by
  have alike := alikeAdd fs [] mode
  have keeps : Keeps (fun _ => False) fs (fs.add (.file [] mode)).2 := alike.keeps
  rw [born, entrySet (keeps.dir dir), alike.entry]

theorem innerBorn (fs : Fs) (d : Ino) (n : Name) (mode : Nat) (j : Ino) :
    (fs.born d n mode).isInner j = fs.isInner j := by
  rw [born, innerUpdateDir, (alikeAdd fs [] mode).inner]

theorem bornFile (fs : Fs) {d : Ino} (dir : fs.isDir d = true) (n : Name) (mode : Nat) :
    (fs.born d n mode).node? fs.nodes.size = some (.file [] mode) := by
  have other : fs.nodes.size ≠ d := by
    obtain ⟨es, up, m, node⟩ := isDirExact dir
    exact Nat.ne_of_gt (nodeBound node)
  rw [born, nodeUpdateDir, if_neg other, nodeAdd, if_pos rfl]

theorem bornOther {d i : Ino} {b : Bytes} {m : Nat} (file : fs.node? i = some (.file b m)) (n : Name)
    (mode : Nat) : (fs.born d n mode).node? i = some (.file b m) := by
  have bound := nodeBound file
  exact fileUpdateDir _ (by rw [nodeAdd, if_neg (Nat.ne_of_lt bound)]; exact file)

structure Holds (fs : Fs) (d : Ino) (n : Name) (i : Ino) (b : Bytes) (m : Nat) : Prop where
  entry : fs.named? d n = some i
  file : fs.node? i = some (.file b m)

theorem bornHolds {d : Ino} (dir : fs.isDir d = true) (n : Name) (mode : Nat) :
    (fs.born d n mode).Holds d n fs.nodes.size [] mode where
  entry := by rw [bornEntry dir, if_pos ⟨rfl, rfl⟩]
  file := bornFile fs dir n mode

theorem Holds.outer {d i : Ino} {n : Name} {b : Bytes} {m : Nat} (holds : fs.Holds d n i b m) :
    fs.isInner i = false := fileNotInner holds.file

theorem Holds.demand {d i : Ino} {n : Name} {b : Bytes} {m : Nat} (holds : fs.Holds d n i b m)
    {a : Access} (may : (Node.file b m).permits a = true) : fs.demand i a = .ok () := by
  rw [Fs.demand, permits, holds.file, Option.any_some, may, if_pos rfl]

theorem openReadOf {p : Path} {i : Ino} (led : fs.lookup p = .ok i) (may : fs.demand i .read = .ok ()) :
    fs.openRead p = .ok i := by
  rw [openRead, led]
  change (fs.demand i .read >>= fun _ => .ok i) = _
  rw [may]
  rfl

theorem openReadOnlyLed {p : Path} {i : Ino} (ok : Files.openReadOnly fs p = .ok i) : fs.lookup p = .ok i := by
  obtain ⟨_, _, opened⟩ := bindOk ok
  obtain ⟨j, led, rest⟩ := bindOk opened
  obtain ⟨_, _, same⟩ := bindOk rest
  cases same
  exact led

theorem flushOf {p : Path} {i : Ino} {b : Bytes} {m : Nat} (noNul : 0 ∉ p) (opened : fs.openRead p = .ok i)
    (file : fs.node? i = some (.file b m)) : Files.flush fs p = .ok () := by
  rw [Files.flush, Path.forbidNone _ noNul]
  change (fs.openRead p >>= fun i => fs.sync i) = _
  rw [opened]
  change fs.sync i = _
  rw [sync, file]

theorem notPresent {p : Path} (noNul : 0 ∉ p) {e : Errno} (failed : fs.lookupEntry p = .error e)
    (lacking : e = .enoent ∨ e = .enotdir) : Files.isPresent fs p = .ok false := by
  rw [Files.isPresent, Path.forbidNone _ noNul]
  dsimp only [bind, Except.bind]
  rw [failed]
  exact if_pos lacking

theorem isPresent {p : Path} (noNul : 0 ∉ p) {i : Ino} (found : fs.lookupEntry p = .ok i) :
    Files.isPresent fs p = .ok true := by
  rw [Files.isPresent, Path.forbidNone _ noNul]
  dsimp only [bind, Except.bind]
  rw [found]

namespace Home
variable {pre n : Path} {d i : Ino} {b : Bytes} {m : Nat}

theorem remove (home : fs.Home pre d) (proper : Proper pre n) (taken : fs.named? d n = some i)
    (outer : fs.isDir i = false) : Files.remove fs (pre ++ n) =
      if fs.permits d .write then .ok (fs.updateDir d (·.erase n)) else .error .eacces := by
  rw [Files.remove, Path.forbidNone _ proper.noNul]
  change fs.unlink (pre ++ n) = _
  rw [unlink, home.occupied proper taken (Or.inr rfl)]
  change (fs.demand d .write >>= fun _ =>
    if fs.isDir i then .error .eisdir else .ok (fs.updateDir d (·.erase n))) = _
  rw [Fs.demand, outer, if_neg Bool.false_ne_true]
  split <;> rfl

theorem absent (home : fs.Home pre d) (proper : Proper pre n) (free : fs.named? d n = none) :
    Files.isPresent fs (pre ++ n) = .ok false :=
  notPresent proper.noNul (home.lookupEntryNone proper free) (Or.inl rfl)

theorem present (home : fs.Home pre d) (proper : Proper pre n) (taken : fs.named? d n = some i) :
    Files.isPresent fs (pre ++ n) = .ok true :=
  isPresent proper.noNul (home.lookupEntry proper taken)

theorem folderNoNul (home : fs.Home pre d) (proper : Proper pre n) : 0 ∉ (pre ++ n).folder := by
  rcases Path.folderPrefix home.ends proper.plain with part | dot
  · exact fun nul => proper.noNul (part.subset nul)
  · rw [dot]
    decide

theorem openFolder (home : fs.Home pre d) (proper : Proper pre n) :
    Files.openDir fs (pre ++ n).folder = if fs.permits d .read then .ok d else .error .eacces := by
  rw [Files.openDir, Path.forbidNone _ (home.folderNoNul proper)]
  change fs.openDir (pre ++ n).folder = _
  rw [Fs.openDir, home.folder proper]
  change (if !fs.isDir d then .error .enotdir else (fs.demand d .read >>= fun _ => .ok d)) = _
  rw [home.dir, Bool.not_true, if_neg Bool.false_ne_true, Fs.demand]
  split <;> rfl

theorem openFile (home : fs.Home pre d) (proper : Proper pre n) (holds : fs.Holds d n i b m)
    (may : (Node.file b m).permits .read = true) : fs.openRead (pre ++ n) = .ok i :=
  openReadOf (home.lookup proper holds.entry (notInner holds.outer).2) (holds.demand may)

theorem flush (home : fs.Home pre d) (proper : Proper pre n) (holds : fs.Holds d n i b m)
    (may : (Node.file b m).permits .read = true) : Files.flush fs (pre ++ n) = .ok () :=
  flushOf proper.noNul (home.openFile proper holds may) holds.file

theorem contents (home : fs.Home pre d) (proper : Proper pre n) (holds : fs.Holds d n i b m) :
    fs.contents? (pre ++ n) = some b :=
  contentsOf (home.lookup proper holds.entry (notInner holds.outer).2) holds.file

theorem contentsNone (home : fs.Home pre d) (proper : Proper pre n) (free : fs.named? d n = none) :
    fs.contents? (pre ++ n) = none := by
  rw [contents?, home.lookupNone proper free]

end Home
end Fs
end AtomicUpdate
