import AtomicUpdate.Proofs.Fs.Walk
import AtomicUpdate.Proofs.Path.Folder
import AtomicUpdate.Files

/-! The directory that the last name of a path is looked up in. Once it is known, every call on the
path is a matter of one entry; and whoever writes the path of a directory in another way, with dots or
slashes that do not count, gets to the same one. -/
namespace AtomicUpdate
namespace Path

structure Proper (pre n : Path) : Prop where
  plain : Plain n
  short : n.length ≤ Limits.nameMax
  within : (pre ++ n).length < Limits.pathMax
  noNul : 0 ∉ pre ++ n

theorem Proper.fits {pre n : Path} (proper : Proper pre n) : Fs.checkLength (pre ++ n) = .ok () :=
  Fs.checkFits (List.append_ne_nil_of_right_ne_nil pre proper.plain.nonempty) proper.within

theorem forbidNone {ε : Type} (refusal : ε) {p : Path} (noNul : 0 ∉ p) :
    forbidNul refusal p = .ok () := by
  rw [forbidNul, if_neg (by simpa using noNul)]

theorem noneForbidden {ε : Type} {refusal : ε} {p : Path} (ok : forbidNul refusal p = .ok ()) : 0 ∉ p := by
  intro nul
  rw [forbidNul, if_pos (by simpa using nul)] at ok
  cases ok

theorem lengthFits {p : Path} (ok : Fs.checkLength p = .ok ()) : p.length < Limits.pathMax := by
  unfold Fs.checkLength at ok
  split at ok
  · cases ok
  · split at ok
    · cases ok
    · exact Nat.lt_of_not_le (by assumption)

end Path

namespace Fs
open Path (Plain Proper)

variable {fs fs' : Fs}

theorem advanceSplit {refuse : Bool} {d : Ino} {ns more : List Name} {halt : Halt} (some' : more ≠ [])
    (ok : fs.advance refuse d (ns ++ more) = .ok halt) :
    (∃ spot e, fs.advance false d ns = .ok (.arrived spot) ∧ spot.ino? = some e ∧
        fs.isDir e = true) ∨
      ∃ dir n i target rest, fs.advance false d ns = .ok (.link dir n i target rest) ∧
        halt = .link dir n i target (rest ++ more) := by
  induction ns generalizing d with
  | nil => exact Or.inl ⟨.top d, d, rfl, rfl, (advanced ok).fromDir some'⟩
  | cons n ns ih =>
    have way := advanced ok
    rw [List.cons_append] at way
    generalize whole : ns ++ more = names at way
    cases way with
    | stay parent on =>
      have on := ih (whole ▸ on.ok)
      rcases on with ⟨spot, e, led, there, dir⟩ | ⟨dir, m, i, target, rest, led, same⟩
      · exact Or.inl ⟨spot, e, (advanceStay parent).trans led, there, dir⟩
      · exact Or.inr ⟨dir, m, i, target, rest, (advanceStay parent).trans led, same⟩
    | up parent on =>
      rw [advanceUp parent]
      exact ih (whole ▸ on.ok)
    | vacant parent ordinary allowed child => simp [some'] at whole
    | link parent ordinary allowed child node =>
      exact Or.inr ⟨d, n, _, _, ns, (Advanced.link parent ordinary rfl child node).ok, by rw [whole]⟩
    | last parent ordinary allowed child plain => simp [some'] at whole
    | @down _ _ _ i _ _ parent ordinary child plain some'' on =>
      have step : fs.advance false d (n :: ns) =
          if ns = [] then .ok (.arrived (.entry d n i)) else fs.advance false i ns :=
        advancePlain parent ordinary rfl child plain
      rw [step]
      by_cases last : ns = []
      · subst last
        rw [if_pos rfl]
        exact Or.inl ⟨.entry d n i, i, rfl, rfl, on.fromDir some''⟩
      · rw [if_neg last]
        exact ih (whole ▸ on.ok)

theorem walkSplit {follow : Follow} {links : Nat} {d : Ino} {ns more : List Name} {slash : Bool}
    {place : Place} (some' : more ≠ [])
    (ok : fs.walk follow links d (ns ++ more) slash = .ok place) (slash' : Bool) :
    ∃ p e, fs.walk .always links d ns slash' = .ok p ∧ p.spot.ino? = some e ∧ fs.isDir e = true := by
  have walked := walked ok
  clear ok
  generalize whole : ns ++ more = names at walked
  induction walked generalizing ns slash' with
  | @arrived links d _ slash spot way =>
    subst whole
    rcases advanceSplit some' way.ok with ⟨spot, e, led, there, dir⟩ | ⟨_, _, _, _, _, _, wrong⟩
    · exact ⟨⟨spot, slash'⟩, e, (Walked.arrived (advanced led)).ok, there, dir⟩
    · cases wrong
  | stopped way stops =>
    subst whole
    rcases advanceSplit some' way.ok with ⟨spot, e, led, there, dir⟩ | ⟨_, _, _, _, rest, _, same⟩
    · exact ⟨⟨spot, slash'⟩, e, (Walked.arrived (advanced led)).ok, there, dir⟩
    · cases rest <;> simp_all
  | @onward links d _ slash dir n i target rest' place way goes on ih =>
    subst whole
    rcases advanceSplit some' way.ok with ⟨spot, e, led, there, dir⟩ | ⟨_, _, _, _, rest, led, same⟩
    · exact ⟨⟨spot, slash'⟩, e, (Walked.arrived (advanced led)).ok, there, dir⟩
    · obtain ⟨rfl, rfl, rfl, rfl, rfl⟩ := Halt.link.inj same
      obtain ⟨p, e, leads, there, dir'⟩ := ih (slash' || (rest.isEmpty && target.endsInSlash))
        (List.append_assoc ..)
      exact ⟨p, e, (Walked.onward (advanced led) (by simp [Follow.always]) (walked leads)).ok, there, dir'⟩

theorem walkFlag {links : Nat} {d : Ino} {ns : List Name} {slash : Bool} {place : Place}
    (ok : fs.walk .always links d ns slash = .ok place) (slash' : Bool) :
    ∃ p, fs.walk .always links d ns slash' = .ok p ∧ p.spot = place.spot := by
  have walked := walked ok
  clear ok
  induction walked generalizing slash' with
  | @arrived links d ns slash spot way =>
    have way' : fs.Walked .always links d ns slash' ⟨spot, slash'⟩ := .arrived way
    exact ⟨_, way'.ok, rfl⟩
  | stopped way stops => cases stops
  | @onward links d ns slash dir n i target rest place way goes more ih =>
    obtain ⟨p, leads, same⟩ := ih (slash' || (rest.isEmpty && target.endsInSlash))
    have way' : fs.Walked .always (links + 1) d ns slash' p :=
      .onward way (by simp [Follow.always]) (walked leads)
    exact ⟨p, way'.ok, same⟩

theorem advanceDots {refuse : Bool} {d : Ino} {k : Nat} {halt : Halt}
    (ok : fs.advance refuse d (List.replicate k Path.dot) = .ok halt) : halt = .arrived (.top d) := by
  induction k with
  | zero => cases ok; rfl
  | succ k ih =>
    have way := advanced ok
    rw [List.replicate_succ] at way
    generalize List.replicate k Path.dot = dots at way ih
    cases way with
    | stay parent more => exact ih more.ok
    | vacant parent ordinary allowed child => exact absurd rfl ordinary.1
    | link parent ordinary allowed child node => exact absurd rfl ordinary.1
    | last parent ordinary allowed child plain => exact absurd rfl ordinary.1
    | down parent ordinary child plain some' more => exact absurd rfl ordinary.1

theorem walkUndotted {links k : Nat} {d i : Ino} {ns : List Name} {slash : Bool} {place : Place}
    (ok : fs.walk .always links d (ns ++ List.replicate k Path.dot) slash = .ok place)
    (there : place.spot.ino? = some i) (slash' : Bool) :
    ∃ p, fs.walk .always links d ns slash' = .ok p ∧ p.spot.ino? = some i := by
  cases k with
  | zero =>
    rw [List.replicate_zero, List.append_nil] at ok
    obtain ⟨p, goes, same⟩ := walkFlag ok slash'
    exact ⟨p, goes, same ▸ there⟩
  | succ k =>
    have some' : List.replicate (k + 1) Path.dot ≠ [] := by simp
    obtain ⟨p, e, goes, led, dir⟩ := walkSplit some' ok slash'
    obtain ⟨left, on⟩ := walkAppend goes led dir
    rw [on .always _ slash some'] at ok
    have here : e = i := by
      unfold walk at ok
      cases way : fs.advance (Follow.always.creates && slash) e (List.replicate (k + 1) Path.dot) with
      | error x => rw [way] at ok; cases ok
      | ok halt =>
        rw [way, advanceDots way] at ok
        cases ok
        cases there
        rfl
    exact ⟨p, goes, here ▸ led⟩

structure Home (fs : Fs) (pre : Path) (d : Ino) : Prop where
  ends : pre = [] ∨ ∃ a, pre = a ++ [Path.slash]
  led : ∃ slash place, fs.walk .always Limits.linkMax (fs.startOf fs.cwd pre) pre.names slash =
    .ok place ∧ place.spot.ino? = some d
  dir : fs.isDir d = true
  here : fs.isGone d = false
  search : fs.permits d .search = true

theorem startAlong {pre n : Path} (single : Path.slash ∉ n) (d : Ino) :
    fs.startOf d (pre ++ n) = fs.startOf d pre := by
  rw [startOf, startOf]
  cases pre with
  | nil => rw [List.nil_append, Path.singleRelative single]; rfl
  | cons c rest => rw [Path.absoluteThrough (List.cons_ne_nil c rest)]

theorem startThrough {pre n : Path} (plain : Plain n) (d : Ino) :
    fs.startOf d (pre ++ n) = fs.startOf d pre := startAlong plain.noSlash d

namespace Home
variable {pre n : Path} {d : Ino}

theorem kept {spared : Ino → Prop} (home : fs.Home pre d) (keeps : Keeps spared fs fs') :
    fs'.Home pre d where
  ends := home.ends
  led := by
    obtain ⟨slash, place, goes, there⟩ := home.led
    have inner : fs.Firm spared d := Or.inl (by rw [isInner, home.dir, Bool.true_or])
    refine ⟨slash, place, ?_, there⟩
    rw [keeps.cwd, startKept keeps]
    exact walkKept keeps goes there inner
  dir := keeps.dir home.dir
  here := keeps.here home.dir home.here
  search := (keeps.permits home.dir .search).trans home.search

theorem unique {e : Ino} (home : fs.Home pre d) (other : fs.Home pre e) : d = e := by
  obtain ⟨slash, place, goes, there⟩ := home.led
  obtain ⟨slash', place', goes', there'⟩ := other.led
  obtain ⟨p, goes'', same⟩ := walkFlag goes slash'
  rw [goes'] at goes''
  cases goes''
  rw [same, there] at there'
  exact Option.some.inj there'

theorem locate (home : fs.Home pre d) :
    ∃ left, ∀ (follow : Follow) {n : Name}, Proper pre n →
      fs.locate follow (pre ++ n) = fs.walk follow left d [n] false := by
  obtain ⟨slash, place, goes, there⟩ := home.led
  obtain ⟨left, on⟩ := walkAppend goes there home.dir
  refine ⟨left, fun follow n proper => ?_⟩
  rw [locateOf follow proper.fits, startThrough proper.plain, Path.namesThrough home.ends proper.plain,
    Path.plainNoClosing proper.plain, on follow [n] false (List.cons_ne_nil n [])]

theorem parent (home : fs.Home pre d) : ∃ up, fs.parent d = .ok up := by
  obtain ⟨es, up, m, node⟩ := isDirExact home.dir
  exact ⟨up, parentOf node home.search⟩

theorem child (home : fs.Home pre d) (short : n.length ≤ Limits.nameMax) :
    fs.child d n = .ok (fs.named? d n) := childOf n home.dir home.search home.here short

theorem ordinary (plain : Plain n) : Ordinary n := ⟨plain.notDot, plain.notDotDot⟩

theorem vacant (home : fs.Home pre d) (proper : Proper pre n) (free : fs.named? d n = none)
    (follow : Follow) : fs.locate follow (pre ++ n) = .ok ⟨.vacant d n, false⟩ := by
  obtain ⟨left, goes⟩ := home.locate
  obtain ⟨up, parent⟩ := home.parent
  have child := home.child proper.short
  rw [free] at child
  rw [goes follow proper, walk, Bool.and_false,
    (Advanced.vacant parent (ordinary proper.plain) rfl child).ok]

theorem occupied {i : Ino} (home : fs.Home pre d) (proper : Proper pre n)
    (taken : fs.named? d n = some i) {follow : Follow}
    (stays : fs.isLink i = false ∨ follow.through false = false) :
    fs.locate follow (pre ++ n) = .ok ⟨.entry d n i, false⟩ := by
  obtain ⟨left, goes⟩ := home.locate
  obtain ⟨up, parent⟩ := home.parent
  have child := home.child proper.short
  rw [taken] at child
  rw [goes follow proper, walk, Bool.and_false]
  cases link : fs.isLink i with
  | false => rw [(Advanced.last parent (ordinary proper.plain) rfl child link).ok]
  | true =>
    obtain ⟨target, node⟩ := isLinkExact link
    have stops : follow.through false = false := by
      rcases stays with other | stops
      · rw [link] at other
        cases other
      · exact stops
    rw [(Advanced.link parent (ordinary proper.plain) rfl child node).ok]
    dsimp only
    rw [if_pos ⟨rfl, stops⟩]

theorem lookupNone (home : fs.Home pre d) (proper : Proper pre n) (free : fs.named? d n = none) :
    fs.lookup (pre ++ n) = .error .enoent := by
  rw [lookup, home.vacant proper free]
  rfl

theorem lookupEntryNone (home : fs.Home pre d) (proper : Proper pre n)
    (free : fs.named? d n = none) : fs.lookupEntry (pre ++ n) = .error .enoent := by
  rw [lookupEntry, home.vacant proper free]
  rfl

theorem lookup {i : Ino} (home : fs.Home pre d) (proper : Proper pre n)
    (taken : fs.named? d n = some i) (plain : fs.isLink i = false) :
    fs.lookup (pre ++ n) = .ok i := by
  rw [Fs.lookup, home.occupied proper taken (Or.inl plain)]
  rfl

theorem lookupEntry {i : Ino} (home : fs.Home pre d) (proper : Proper pre n)
    (taken : fs.named? d n = some i) : fs.lookupEntry (pre ++ n) = .ok i := by
  rw [Fs.lookupEntry, home.occupied proper taken (Or.inr rfl)]
  rfl

theorem folder (home : fs.Home pre d) (proper : Proper pre n) :
    fs.lookup (pre ++ n).folder = .ok d := by
  have fits : checkLength (pre ++ n).folder = .ok () := by
    have nonempty : (pre ++ n).folder ≠ [] := by
      rw [Path.folder]
      split
      · split
        · decide
        · assumption
      · decide
    have within : (pre ++ n).folder.length < Limits.pathMax := by
      rcases Path.folderPrefix home.ends proper.plain with part | dot
      · exact Nat.lt_of_le_of_lt part.length_le proper.within
      · rw [dot]
        decide
    exact checkFits nonempty within
  obtain ⟨slash, place, goes, there⟩ := home.led
  obtain ⟨p, goes', there'⟩ : ∃ p, fs.locate .always (pre ++ n).folder = .ok p ∧
      p.spot.ino? = some d := by
    rw [locateOf .always fits]
    rcases home.ends with rfl | ends
    · obtain ⟨up, parent⟩ := home.parent
      cases goes
      cases there
      rw [List.nil_append, Path.folderBare proper.plain]
      exact ⟨⟨.top (fs.startOf fs.cwd []), false⟩, (by
        change fs.walk .always Limits.linkMax (fs.startOf fs.cwd []) [Path.dot] false = _
        rw [walk, Bool.and_false, (Advanced.stay parent (.here _)).ok]), rfl⟩
    · obtain ⟨k, names, absolute⟩ := Path.folderNames ends proper.plain
      rw [names] at goes
      have start : fs.startOf fs.cwd (pre ++ n).folder = fs.startOf fs.cwd pre := by
        rw [startOf, startOf, absolute]
      rw [start]
      exact walkUndotted goes there _
  rw [Fs.lookup, goes']
  exact nodeAtDir there' home.dir

end Home

theorem homeOfLocate {pre n : Path} (ends : pre = [] ∨ ∃ a, pre = a ++ [Path.slash]) (plain : Plain n)
    {follow : Follow} {place : Place} (ok : fs.locate follow (pre ++ n) = .ok place) :
    ∃ d left, fs.Home pre d ∧ fs.walk follow left d [n] false = .ok place := by
  obtain ⟨fits, way⟩ := locateExact ok
  rw [startThrough plain, Path.namesThrough ends plain, Path.plainNoClosing plain] at way
  obtain ⟨p, d, goes, there, dir⟩ := walkSplit (List.cons_ne_nil n []) way false
  obtain ⟨left, on⟩ := walkAppend goes there dir
  rw [on follow [n] false (List.cons_ne_nil n [])] at way
  have found : ∃ found, fs.child d n = .ok found := by
    unfold walk at way
    rw [Bool.and_false] at way
    cases step : fs.advance false d [n] with
    | error e => rw [step] at way; cases way
    | ok halt =>
      obtain ⟨found, child, _⟩ := (advanced step).single (Home.ordinary plain)
      exact ⟨found, child⟩
  obtain ⟨found, child⟩ := found
  obtain ⟨_, search, here, _, _⟩ := childExact child
  exact ⟨d, left, ⟨ends, ⟨false, p, goes, there⟩, dir, here, search⟩, way⟩

theorem homeOfPlace {pre n : Path} (ends : pre = [] ∨ ∃ a, pre = a ++ [Path.slash]) (plain : Plain n)
    {follow : Follow} (stays : follow.through false = false) {place : Place}
    (ok : fs.locate follow (pre ++ n) = .ok place) :
    ∃ d, fs.Home pre d ∧ n.length ≤ Limits.nameMax ∧
      ((place = ⟨.vacant d n, false⟩ ∧ fs.named? d n = none) ∨
        ∃ i, place = ⟨.entry d n i, false⟩ ∧ fs.named? d n = some i) := by
  obtain ⟨d, left, home, way⟩ := homeOfLocate ends plain ok
  obtain ⟨found, child, spot⟩ := (walked way).single (Home.ordinary plain)
  obtain ⟨_, _, _, short, named⟩ := childExact child
  refine ⟨d, home, short, ?_⟩
  rcases spot with ⟨rfl, place⟩ | ⟨i, rfl, ⟨place, _⟩ | ⟨_, _, _, goes, _⟩⟩
  · exact Or.inl ⟨place, named⟩
  · exact Or.inr ⟨i, place, named⟩
  · cases stays.symm.trans goes

end Fs
end AtomicUpdate
