import AtomicUpdate.Proofs.Commit.Outcome
import AtomicUpdate.Proofs.Fs.Likeness

/-! Commits where base and temp file are files of one directory. A rename moves the entry of the temp
file; a copy leaves the same bytes in the base and no temp file either. -/
namespace AtomicUpdate
namespace Files
open Path (Proper)

variable {fs : Fs} {pre t b : Path} {d i j : Ino} {c old : Bytes} {m m' : Nat}

theorem openBothRegular (source : fs.openRead t = .ok i) (noNul : 0 ∉ t) (noNul' : 0 ∉ b)
    (file : fs.node? i = some (.file c m)) :
    openBoth fs t b = (fs.openCreate [.write] (m &&& (0o7777 ^^^ Fs.umask)) b).map
      fun target => (i, m, target.1, target.2) := by
  unfold openBoth
  rw [Path.forbidNone _ noNul, Path.forbidNone _ noNul', source]
  dsimp only [bind, Except.bind]
  rw [file]
  dsimp only
  cases fs.openCreate [.write] (m &&& (0o7777 ^^^ Fs.umask)) b with
  | error e => rfl
  | ok target => rfl

theorem copyPours {fs₁ : Fs} (opened : openBoth fs t b = .ok (i, m, j, fs₁))
    (file : fs₁.node? i = some (.file c m)) (there : fs₁.node? j = some (.file old m')) (apart : i ≠ j) :
    ∃ fs' mode, copy fs t b = (fs', .ok ()) ∧ Fs.OnlyAt j fs₁ fs' ∧ fs'.node? j = some (.file c mode) ∧
      (∀ b b' a, (Node.file b mode).permits a = (Node.file b' m).permits a) ∧
      (Node.withdrawn m = m → mode = m) := by
  obtain ⟨only, emptied⟩ := Fs.truncateFile there
  have again := Fs.replaceFile emptied (.file [] m)
  have only' := only.trans (Fs.OnlyAt.replace j (fs₁.truncate j) (.file [] m))
  obtain ⟨fs', mode, wrote, only'', poured, rights, kept⟩ := Fs.writeFile again 0 c
  have bytes : (if c = [] then [] else Fs.overwrite [] 0 c) = c := by
    split
    · rename_i none
      exact none.symm
    · exact Fs.overwriteEmpty c
  rw [bytes] at poured
  have rest : ((fs₁.truncate j).replace j (.file [] m)).readRest i 0 = .ok c := by
    rw [Fs.readRest, only'.others i apart, file]
    rfl
  exact ⟨fs', mode, copyFile opened emptied rest wrote, only'.trans only'', poured, rights, kept⟩

theorem copyOpened {fs₁ : Fs} (source : fs.openRead t = .ok i) (noNul : 0 ∉ t) (noNul' : 0 ∉ b)
    (file : fs.node? i = some (.file c m))
    (target : fs.openCreate [.write] (m &&& (0o7777 ^^^ Fs.umask)) b = .ok (j, fs₁))
    (file' : fs₁.node? i = some (.file c m)) (there : fs₁.node? j = some (.file old m'))
    (apart : i ≠ j) : ∃ fs' mode, copy fs t b = (fs', .ok ()) ∧ Fs.OnlyAt j fs₁ fs' ∧
      fs'.node? j = some (.file c mode) ∧
      (∀ b b' a, (Node.file b mode).permits a = (Node.file b' m).permits a) ∧
      (Node.withdrawn m = m → mode = m) := by
  have opened : openBoth fs t b = .ok (i, m, j, fs₁) := by
    rw [openBothRegular source noNul noNul' file, target]
    rfl
  exact copyPours opened file' there apart

end Files

namespace Commit
open Path (Proper)

structure Desk (fs : Fs) (pre : Path) (d : Ino) (t b : Name) (i : Ino) (c : Bytes) (m : Nat) : Prop
    where
  home : fs.Home pre d
  tidy : fs.Tidy
  write : fs.permits d .write = true
  temp : Proper pre t
  base : Proper pre b
  other : b ≠ t
  staged : fs.Holds d t i c m
  readable : (Node.file c m).permits .read = true
  committed : fs.named? d b = none ∨ ∃ j c' m', fs.Holds d b j c' m' ∧ j ≠ i

structure Commits (fs fs' : Fs) (d : Ino) (t b : Name) (i : Ino) (c : Bytes) (m : Nat) : Prop where
  evolves : fs.Evolves fs'
  base : ∃ j m', fs'.Holds d b j c m' ∧ (j = i ∨ fs.named? d b = some j ∨ j = fs.nodes.size) ∧
    ∀ x y a, (Node.file x m').permits a = (Node.file y m).permits a
  gone : fs'.named? d t = none
  names : ∀ n, n ≠ b → n ≠ t → fs'.named? d n = fs.named? d n
  files : ∀ {k x m'}, fs.node? k = some (.file x m') → fs.named? d b ≠ some k →
    fs'.node? k = some (.file x m')

variable {fs : Fs} {pre : Path} {d : Ino} {t b : Name} {i : Ino} {c : Bytes} {m : Nat}

theorem preparedHome (home : fs.Home pre d) (temp : Proper pre t) (base : Proper pre b) :
    prepare fs (pre ++ t) (pre ++ b) =
      if fs.permits d .read then .ok (t, b, d) else .error .eacces := by
  unfold prepare
  rw [Path.fileNameThrough home.ends temp.plain, Path.fileNameThrough home.ends base.plain]
  change (Files.openDir fs (pre ++ b).folder >>= fun d => .ok (t, b, d)) = _
  rw [home.openFolder base]
  split <;> rfl

theorem nameChecked {n : Name} (proper : Proper pre n) :
    Path.forbidNul Errno.einval n = .ok () ∧ Fs.checkLength n = .ok () := by
  refine ⟨Path.forbidNone _ fun nul => proper.noNul (List.mem_append_right pre nul), ?_⟩
  have short : n.length < Limits.pathMax := Nat.lt_of_le_of_lt proper.short (by decide)
  exact Fs.checkFits proper.plain.nonempty short

theorem renameNamed (temp : Proper pre t) (base : Proper pre b) (fs : Fs) (d : Ino) :
    rename fs d t b false = fs.renameIn d t b := by
  have names : checkNames t b = .ok () := by
    rw [checkNames, (nameChecked temp).1, (nameChecked base).1, (nameChecked temp).2, (nameChecked base).2]
    rfl
  rw [rename, if_neg Bool.false_ne_true, names]
  rfl

theorem renamed (home : fs.Home pre d) (temp : Proper pre t) (base : Proper pre b)
    (write : fs.permits d .write = true) (staged : fs.Holds d t i c m)
    (loose : ∀ j, fs.named? d b = some j → fs.isDir j = false ∧ j ≠ i) :
    rename fs d t b false = .ok (fs.updateDir d (fun es => Fs.supplant b i (es.erase t))) := by
  rw [renameNamed temp base]
  have old := home.child temp.short
  have new := home.child base.short
  rw [staged.entry] at old
  have may : ∀ j, fs.named? d b = some j → fs.mayReplace i j = .ok () := by
    intro j taken
    rw [Fs.mayReplace, (Fs.notInner staged.outer).1, if_neg Bool.false_ne_true, (loose j taken).1,
      if_neg Bool.false_ne_true]
  have apart : fs.named? d b ≠ some i := fun taken => (loose i taken).2 rfl
  unfold Fs.renameIn
  rw [old]
  change (fs.child d b >>= fun there => if there = some i then .ok fs
    else (fs.demand d .write >>= fun _ => there.forM (fs.mayReplace i) >>= fun _ =>
      .ok (fs.updateDir d (fun es => Fs.supplant b i (es.erase t))))) = _
  rw [new]
  change (if fs.named? d b = some i then .ok fs
    else (fs.demand d .write >>= fun _ => (fs.named? d b).forM (fs.mayReplace i) >>= fun _ =>
      .ok (fs.updateDir d (fun es => Fs.supplant b i (es.erase t))))) = _
  rw [if_neg apart, Fs.demand, if_pos write]
  cases taken : fs.named? d b with
  | none => rfl
  | some j =>
    change (fs.mayReplace i j >>= fun _ =>
      .ok (fs.updateDir d (fun es => Fs.supplant b i (es.erase t)))) = _
    rw [may j taken]
    rfl

theorem Desk.loose (desk : Desk fs pre d t b i c m) {j : Ino} (taken : fs.named? d b = some j) :
    fs.isInner j = false ∧ j ≠ i := by
  rcases desk.committed with free | ⟨k, c', m', holds, other⟩
  · rw [free] at taken
    cases taken
  · rw [holds.entry] at taken
    cases taken
    exact ⟨holds.outer, other⟩

theorem Desk.moves (desk : Desk fs pre d t b i c m) :
    Commits fs (fs.updateDir d (fun es => Fs.supplant b i (es.erase t))) d t b i c m where
  evolves :=
    Fs.Evolves.move desk.tidy desk.staged.entry desk.staged.outer fun j taken => (desk.loose taken).1
  base := by
    refine ⟨i, m, ⟨?_, Fs.fileUpdateDir _ desk.staged.file⟩, Or.inl rfl, fun _ _ _ => rfl⟩
    rw [Fs.entryMove desk.home.dir, if_pos rfl, if_pos rfl]
  gone := by
    rw [Fs.entryMove desk.home.dir, if_pos rfl, if_neg desk.other.symm, if_pos rfl]
  names := by
    intro n notBase notTemp
    rw [Fs.entryMove desk.home.dir, if_pos rfl, if_neg notBase, if_neg notTemp]
  files := fun file _ => Fs.fileUpdateDir _ file

structure Opened (fs fs' : Fs) (d : Ino) (b : Name) (j : Ino) : Prop where
  evolves : fs.Evolves fs'
  base : ∃ old m, fs'.Holds d b j old m
  origin : fs.named? d b = some j ∨ (fs.named? d b = none ∧ j = fs.nodes.size)
  names : ∀ n, n ≠ b → fs'.named? d n = fs.named? d n
  files : ∀ {k x m}, fs.node? k = some (.file x m) → fs'.node? k = some (.file x m)

def Sealed (fs : Fs) (d : Ino) (b : Name) : Prop :=
  ∃ j, fs.named? d b = some j ∧ fs.permits j .write = false

theorem Desk.opens (desk : Desk fs pre d t b i c m) (mode : Nat) :
    (Sealed fs d b ∧ fs.openCreate [.write] mode (pre ++ b) = .error .eacces) ∨
      ∃ j fs', fs.openCreate [.write] mode (pre ++ b) = .ok (j, fs') ∧ Opened fs fs' d b j := by
  rcases desk.committed with free | ⟨j, c', m', holds, _⟩
  · right
    refine ⟨fs.nodes.size, fs.born d b mode, ?_, ?_⟩
    · rw [Fs.openCreate, desk.home.vacant desk.base free]
      change fs.enter d b (.file [] mode) = _
      rw [Fs.enterFile, if_pos desk.write]
    · have named := Fs.bornEntry desk.home.dir b mode
      exact {
        evolves := Fs.evolvesBorn desk.tidy free mode
        base := ⟨[], mode, by rw [named, if_pos ⟨rfl, rfl⟩], Fs.bornFile fs desk.home.dir b mode⟩
        origin := Or.inr ⟨free, rfl⟩
        names := fun n other => by rw [named, if_neg (fun both => other both.2)]
        files := fun file => Fs.bornOther file b mode }
  · have opened : fs.openCreate [.write] mode (pre ++ b) =
        if fs.permits j .write then .ok (j, fs) else .error .eacces := by
      rw [Fs.openCreate, desk.home.occupied desk.base holds.entry (Or.inl (Fs.notInner holds.outer).2)]
      change (if fs.isDir j then .error .eisdir
        else (fs.demand j .write >>= fun _ => (.ok () : Except Errno Unit)) >>= fun _ =>
          .ok (j, fs)) = _
      rw [(Fs.notInner holds.outer).1, if_neg Bool.false_ne_true, Fs.demand]
      split <;> rfl
    cases may : fs.permits j .write with
    | false =>
      left
      rw [may, if_neg Bool.false_ne_true] at opened
      exact ⟨⟨j, holds.entry, may⟩, opened⟩
    | true =>
      right
      rw [may, if_pos rfl] at opened
      exact ⟨j, fs, opened, Fs.Evolves.refl desk.tidy, ⟨c', m', holds⟩, Or.inl holds.entry,
        fun _ _ => rfl, fun file => file⟩

theorem copyOverOpened {fs₁ : Fs} {j mo : Nat} {old : Bytes} (home : fs₁.Home pre d) (temp : Proper pre t)
    (base : Proper pre b) (source : fs.openRead (pre ++ t) = .ok i) (file : fs.node? i = some (.file c m))
    (readable : (Node.file c m).permits .read = true)
    (target : fs.openCreate [.write] (m &&& (0o7777 ^^^ Fs.umask)) (pre ++ b) = .ok (j, fs₁))
    (staged : fs₁.Holds d t i c m) (write : fs₁.permits d .write = true)
    (led : fs₁.lookup (pre ++ b) = .ok j) (there : fs₁.node? j = some (.file old mo)) (apart : i ≠ j)
    (w : World) (here : w.fs = fs) :
    ∃ fs₂ mode, copyOver (pre ++ t) (pre ++ b) w = (.ok (), w.withFs (fs₂.updateDir d (·.erase t))) ∧
      Fs.OnlyAt j fs₁ fs₂ ∧ fs₂.node? j = some (.file c mode) ∧
      (∀ b b' a, (Node.file b mode).permits a = (Node.file b' m).permits a) ∧
      (Node.withdrawn m = m → mode = m) := by
  obtain ⟨fs₂, mode, copied, only, poured, rights, kept⟩ := Files.copyOpened source temp.noNul base.noNul
    file target staged.file there apart
  have alike := only.alike there poured
  have keeps : Fs.Keeps (fun _ => False) fs₁ fs₂ := alike.keeps
  have home₂ := home.kept keeps
  have staged₂ : fs₂.named? d t = some i := (alike.entry d t).trans staged.entry
  have may : fs₂.demand j .read = .ok () := by
    rw [Fs.demand, Fs.permits, poured]
    exact if_pos ((rights c c .read).trans readable)
  have flushed := Fs.flushOf base.noNul (Fs.openReadOf ((alike.lookup _).trans led) may) poured
  have outer : fs₂.isDir i = false := (alike.isDir i).trans (Fs.notInner staged.outer).1
  have removed := home₂.remove temp staged₂ outer
  rw [alike.permits home.dir, write, if_pos rfl] at removed
  exact ⟨fs₂, mode, copyOverOf (here.symm ▸ copied) flushed removed, only, poured, rights, kept⟩

theorem Desk.copies (desk : Desk fs pre d t b i c m) (w : World) (here : w.fs = fs) :
    (Sealed fs d b ∧ copyOver (pre ++ t) (pre ++ b) w = (.error .eacces, w)) ∨
      ∃ fs', copyOver (pre ++ t) (pre ++ b) w = (.ok (), w.withFs fs') ∧ Commits fs fs' d t b i c m := by
  have source := desk.home.openFile desk.temp desk.staged desk.readable
  rcases desk.opens (m &&& (0o7777 ^^^ Fs.umask)) with ⟨barred, refused⟩ | ⟨j, fs₁, target, opened⟩
  · left
    have unopened : Files.openBoth fs (pre ++ t) (pre ++ b) = .error .eacces := by
      rw [Files.openBothRegular source desk.temp.noNul desk.base.noNul desk.staged.file, refused]
      rfl
    exact ⟨barred, copyOverUnopened (here.symm ▸ unopened)⟩
  · right
    obtain ⟨old, mo, base₁⟩ := opened.base
    have apart : i ≠ j := by
      rcases opened.origin with taken | ⟨_, fresh⟩
      · exact (desk.loose taken).2.symm
      · exact fun same => Nat.ne_of_lt (Fs.nodeBound desk.staged.file) (same.trans fresh)
    have temp₁ : fs₁.Holds d t i c m :=
      ⟨(opened.names t desk.other.symm).trans desk.staged.entry, opened.files desk.staged.file⟩
    have home₁ := desk.home.kept opened.evolves.keeps
    have write₁ := (opened.evolves.keeps.permits desk.home.dir .write).trans desk.write
    obtain ⟨fs₂, mode, copied, only, poured, rights, _⟩ := copyOverOpened home₁ desk.temp desk.base source
      desk.staged.file desk.readable target temp₁ write₁
      (home₁.lookup desk.base base₁.entry (Fs.notInner base₁.outer).2) base₁.file apart w here
    have alike := only.alike base₁.file poured
    have evolves₂ : fs.Evolves fs₂ := opened.evolves.trans
      (Fs.Evolves.ofAlike opened.evolves.tidy alike (Nat.le_of_eq only.size.symm))
    have home₂ := desk.home.kept evolves₂.keeps
    have base₂ : fs₂.Holds d b j c mode := ⟨(alike.entry d b).trans base₁.entry, poured⟩
    have temp₂ : fs₂.Holds d t i c m :=
      ⟨(alike.entry d t).trans temp₁.entry, (only.others i apart).trans temp₁.file⟩
    have named := Fs.entryErase home₂.dir t
    refine ⟨fs₂.updateDir d (·.erase t), copied, ?_⟩
    exact {
        evolves := evolves₂.trans (Fs.Evolves.erase evolves₂.tidy fun k entry => by
          rw [temp₂.entry] at entry
          cases entry
          exact temp₂.outer)
        base := by
          refine ⟨j, mode, ⟨?_, Fs.fileUpdateDir _ base₂.file⟩, ?_, rights⟩
          · rw [named, if_neg (fun both => desk.other both.2), base₂.entry]
          · exact Or.inr (opened.origin.imp id And.right)
        gone := by rw [named, if_pos ⟨rfl, rfl⟩]
        names := by
          intro n notBase notTemp
          rw [named, if_neg (fun both => notTemp both.2), alike.entry, opened.names n notBase]
        files := by
          intro k x m' file notBase
          have other : k ≠ j := by
            rcases opened.origin with taken | ⟨_, fresh⟩
            · exact fun same => notBase (same ▸ taken)
            · exact fun same => Nat.ne_of_lt (Fs.nodeBound file) (same.trans fresh)
          exact Fs.fileUpdateDir _ ((only.others k other).trans (opened.files file)) }

inductive Ending (fs : Fs) (d : Ino) (t b : Name) (i : Ino) (c : Bytes) (m : Nat) (w : World)
    (allowCopy forced : Bool) : Except Errno Committed × World → Prop where
  | barred {e events} (reason : fs.permits d .read = false ∨ Sealed fs d b) :
      Ending fs d t b i c m w allowCopy forced (.error e, { w with events })
  | crossed (forced' : forced = true) (refused : allowCopy = false) :
      Ending fs d t b i c m w allowCopy forced (.error .exdev, w)
  | done {done fs' events} (free : forced = true → allowCopy = true)
      (commits : Commits fs fs' d t b i c m) :
      Ending fs d t b i c m w allowCopy forced (.ok done, { w with fs := fs', events })

theorem Desk.ends (desk : Desk fs pre d t b i c m) (allowCopy : Bool) (force : Option Bool)
    (w : World) (here : w.fs = fs) :
    Ending fs d t b i c m w allowCopy (force.getD (forcedByEnv w.env))
      (run (pre ++ t) (pre ++ b) allowCopy force w) := by
  have prepared := preparedHome desk.home desk.temp desk.base
  rw [← here] at prepared
  cases read : w.fs.permits d .read with
  | false =>
    rw [read, if_neg Bool.false_ne_true] at prepared
    rw [runUnready prepared]
    exact .barred (Or.inl (here ▸ read))
  | true =>
    rw [read, if_pos rfl] at prepared
    cases forced : force.getD (forcedByEnv w.env) with
    | false =>
      have moved := renamed desk.home desk.temp desk.base desk.write desk.staged fun j taken =>
        ⟨(Fs.notInner (desk.loose taken).1).1, (desk.loose taken).2⟩
      rw [runRenames prepared forced, here, moved]
      exact .done (fun wrong => by cases wrong) desk.moves
    | true =>
      cases allowCopy with
      | false =>
        rw [runBarred prepared forced rfl]
        exact .crossed rfl rfl
      | true =>
        rw [runCopies prepared forced rfl]
        rcases desk.copies (warned (pre ++ b) w) here with ⟨barred, failed⟩ | ⟨fs', copied, commits⟩
        · rw [failed]
          exact .barred (Or.inr barred)
        · rw [copied]
          exact .done (fun _ => rfl) commits

end Commit
end AtomicUpdate
