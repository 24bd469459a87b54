import AtomicUpdate.Proofs.Fs.Recede
import AtomicUpdate.Proofs.Fs.Route

/-! Names that lead to no directory, be it through symbolic links. No lookup of a directory goes by such a name,
so a folder is still found when another file takes the name; and the file behind it can be opened to be
written by everybody who can look it up. -/
namespace AtomicUpdate.Fs
open Path (Plain Proper)

variable {fs fs' : Fs}

theorem Advanced.topDir (upright : fs.Upright) {refuse : Bool} {d e : Ino} {ns : List Name}
    (way : fs.Advanced refuse d ns (.arrived (.top e))) (dir : fs.isDir d = true) : fs.isDir e = true := by
  generalize same : Halt.arrived (.top e) = halt at way
  induction way with
  | here =>
    cases same
    exact dir
  | stay parent more ih => exact ih dir same
  | up parent more ih =>
    obtain ⟨_, _, node, _⟩ := parentExact parent
    exact ih (upright.above node) same
  | vacant => cases same
  | link => cases same
  | last => cases same
  | down parent ordinary child plain some' more ih => exact ih (more.fromDir some') same

theorem Walked.fromDir {follow : Follow} {links : Nat} {d : Ino} {ns : List Name} {slash : Bool}
    {place : Place} (walked : fs.Walked follow links d ns slash place) (some' : ns ≠ []) :
    fs.isDir d = true := by
  cases walked with
  | arrived way => exact way.fromDir some'
  | stopped way => exact way.fromDir some'
  | onward way => exact way.fromDir some'

theorem Walked.creates {links : Nat} {d : Ino} {ns : List Name} {slash : Bool} {place : Place}
    (walked : fs.Walked .always links d ns slash place) (open' : place.slash = false) :
    slash = false ∧ fs.Walked .creating links d ns slash place := by
  induction walked with
  | arrived way =>
    cases open'
    exact ⟨rfl, .arrived way⟩
  | stopped way stops => cases stops
  | @onward _ _ _ slash _ _ _ target rest _ way goes more ih =>
    obtain ⟨both, on⟩ := ih open'
    obtain rfl : slash = false := (Bool.or_eq_false_iff.mp both).1
    exact ⟨rfl, .onward way goes on⟩

theorem Walked.topDir (upright : fs.Upright) (root : fs.isDir fs.root = true) {links : Nat} {d e : Ino}
    {ns : List Name} {slash slash' : Bool} (walked : fs.Walked .always links d ns slash ⟨.top e, slash'⟩)
    (dir : fs.isDir d = true) : fs.isDir e = true := by
  generalize same : Place.mk (.top e) slash' = place at walked
  induction walked with
  | arrived way =>
    cases same
    exact way.topDir upright dir
  | stopped => cases same
  | @onward _ _ _ _ dir' _ _ target _ _ way goes more ih =>
    refine ih ?_ same
    rw [startOf]
    split
    · exact root
    · exact way.linked.1

theorem lookupLocated (upright : fs.Upright) (root : fs.isDir fs.root = true) {p : Path} {j : Ino}
    (led : fs.lookup p = .ok j) (outer : fs.isDir j = false) (some' : p.names ≠ []) :
    ∃ d n, fs.locate .creating p = .ok ⟨.entry d n j, false⟩ := by
  obtain ⟨⟨spot, slash⟩, found, there, closed⟩ := lookupExact led
  obtain ⟨short, goes⟩ := locateExact found
  have way := walked goes
  have open' : slash = false := by
    cases slash with
    | false => rfl
    | true => exact absurd (closed rfl) (by rw [outer]; exact Bool.false_ne_true)
  subst open'
  cases spot with
  | vacant => cases there
  | entry d n k =>
    cases there
    exact ⟨d, n, (locateOf .creating short).trans (way.creates rfl).2.ok⟩
  | top e =>
    cases there
    rw [way.topDir upright root (way.fromDir some')] at outer
    cases outer

theorem openCreateLed (upright : fs.Upright) (root : fs.isDir fs.root = true) {p : Path} {j : Ino}
    (led : fs.lookup p = .ok j) (outer : fs.isDir j = false) (some' : p.names ≠ []) (mode : Nat) :
    fs.openCreate [.write] mode p = if fs.permits j .write then .ok (j, fs) else .error .eacces := by
  obtain ⟨d, n, located⟩ := lookupLocated upright root led outer some'
  rw [openCreate, located]
  change (if fs.isDir j then .error .eisdir
    else (fs.demand j .write >>= fun _ => (.ok () : Except Errno Unit)) >>= fun _ => .ok (j, fs)) = _
  rw [outer, if_neg Bool.false_ne_true, demand]
  split <;> rfl

theorem Walked.more {follow : Follow} {links links' : Nat} {d : Ino} {ns : List Name} {slash : Bool}
    {place : Place} (walked : fs.Walked follow links d ns slash place) (fewer : links ≤ links') :
    fs.Walked follow links' d ns slash place := by
  induction walked generalizing links' with
  | arrived way => exact .arrived way
  | stopped way stops => exact .stopped way stops
  | onward way goes more ih =>
    obtain ⟨links', rfl⟩ : ∃ k, links' = k + 1 := ⟨links' - 1, by omega⟩
    exact .onward way goes (ih (Nat.le_of_succ_le_succ fewer))

theorem Walked.same {links links' : Nat} {d : Ino} {ns : List Name} {slash slash' : Bool} {place place' : Place}
    (walked : fs.Walked .always links d ns slash place)
    (walked' : fs.Walked .always links' d ns slash' place') : place'.spot = place.spot := by
  obtain ⟨p, found, spot⟩ := walkFlag (walked.more (Nat.le_max_left links links')).ok slash'
  have found' := (walked'.more (Nat.le_max_right links links')).ok
  rw [found] at found'
  cases found'
  exact spot

def Blind (fs : Fs) (d : Ino) (n : Name) : Prop :=
  ∀ k, fs.named? d n = some k → fs.isDir k = false ∧ ∀ target, fs.node? k = some (.link target) →
    ∃ links slash place j, fs.Walked .always links (fs.startOf d target) target.names slash place ∧
      place.spot.ino? = some j ∧ fs.isDir j = false

theorem Advanced.visited {refuse : Bool} {e : Ino} {ns : List Name} {halt : Halt}
    (way : fs.Advanced refuse e ns halt) {v : Ino × Name} (mem : v ∈ fs.visits e ns) :
    (∃ c, fs.named? v.1 v.2 = some c ∧ fs.isDir c = true) ∨ halt = .arrived (.vacant v.1 v.2) ∨
      (∃ c, fs.named? v.1 v.2 = some c ∧ halt = .arrived (.entry v.1 v.2 c)) ∨
      ∃ c target rest, fs.named? v.1 v.2 = some c ∧ fs.node? c = some (.link target) ∧
        halt = .link v.1 v.2 c target rest := by
  induction way with
  | here => cases mem
  | stay parent more ih => exact ih mem
  | up parent more ih =>
    rw [visits, if_neg (by decide), if_pos rfl, parent] at mem
    exact ih mem
  | vacant parent ordinary allowed child =>
    rw [visitsHead ordinary, (childExact child).2.2.2.2] at mem
    obtain rfl := List.mem_singleton.mp mem
    exact Or.inr (Or.inl rfl)
  | link parent ordinary allowed child node =>
    have found := (childExact child).2.2.2.2
    rw [visitsHead ordinary, found] at mem
    dsimp only at mem
    rw [isLinkOf node, if_pos rfl] at mem
    obtain rfl := List.mem_singleton.mp mem
    exact Or.inr (Or.inr (Or.inr ⟨_, _, _, found, node, rfl⟩))
  | last parent ordinary allowed child plain =>
    rw [visitsDown ordinary child plain] at mem
    obtain rfl := List.mem_singleton.mp mem
    exact Or.inr (Or.inr (Or.inl ⟨_, (childExact child).2.2.2.2, rfl⟩))
  | down parent ordinary child plain some' more ih =>
    rw [visitsDown ordinary child plain] at mem
    rcases List.mem_cons.mp mem with rfl | later
    · exact Or.inl ⟨_, (childExact child).2.2.2.2, more.fromDir some'⟩
    · exact ih later

theorem Walked.avoids {links : Nat} {e c d : Ino} {ns : List Name} {n : Name} {slash : Bool} {place : Place}
    (walked : fs.Walked .always links e ns slash place) (there : place.spot.ino? = some c)
    (dir : fs.isDir c = true) (blind : fs.Blind d n) : (d, n) ∉ fs.walkVisits links e ns := by
  induction walked with
  | stopped way stops => cases stops
  | @arrived links e ns slash spot way =>
    have visits : fs.walkVisits links e ns = fs.visits e ns := by
      cases links with
      | zero => rfl
      | succ links => rw [walkVisits, way.lenient.ok, List.append_nil]
    rw [visits]
    intro mem
    rcases way.visited mem with ⟨c', found, dir'⟩ | vacant | ⟨c', found, last⟩ | ⟨_, _, _, _, _, linked⟩
    · exact absurd dir' (by rw [(blind c' found).1]; exact Bool.false_ne_true)
    · cases vacant
      cases there
    · cases last
      cases there
      exact absurd dir (by rw [(blind c found).1]; exact Bool.false_ne_true)
    · cases linked
  | @onward links e ns slash x m i target rest place way goes more ih =>
    rw [walkVisits, way.lenient.ok]
    intro mem
    rcases List.mem_append.mp mem with early | late
    · rcases way.visited early with ⟨c', found, dir'⟩ | vacant | ⟨c', found, last⟩ |
        ⟨_, target', rest', found, node, linked⟩
      · exact absurd dir' (by rw [(blind c' found).1]; exact Bool.false_ne_true)
      · cases vacant
      · cases last
      · cases linked
        obtain ⟨links', slash', place', j, ends, at', other⟩ := (blind _ found).2 _ node
        -- the rest of the walk would have to go on from the file that the name leads to
        obtain ⟨p, c', ends', at'', dir'⟩ : ∃ p c', fs.Walked .always links (fs.startOf d target) target.names
            (slash || (rest.isEmpty && target.endsInSlash)) p ∧ p.spot.ino? = some c' ∧
            fs.isDir c' = true := by
          by_cases last : rest = []
          · subst last
            rw [List.append_nil] at more
            exact ⟨place, c, more, there, dir⟩
          · obtain ⟨p, c', walks, at'', dir'⟩ := walkSplit last more.ok _
            exact ⟨p, c', Fs.walked walks, at'', dir'⟩
        rw [ends'.same ends, at''] at at'
        cases at'
        rw [dir'] at other
        cases other
    · exact ih there late

theorem blindOf {pre n : Path} {d j : Ino} (home : fs.Home pre d) (proper : Proper pre n)
    (led : fs.lookup (pre ++ n) = .ok j) (outer : fs.isDir j = false) : fs.Blind d n := by
  intro k entry
  obtain ⟨left, goes⟩ := home.locate
  obtain ⟨place, found, there, _⟩ := lookupExact led
  rw [goes .always proper] at found
  have named : ∀ {c}, fs.child d n = .ok (some c) → c = k := by
    intro c child
    cases (childExact child).2.2.2.2.symm.trans entry
    rfl
  obtain ⟨_, child, ⟨rfl, rfl⟩ | ⟨c, rfl, ⟨rfl, plain⟩ | ⟨target, _, node, _, more⟩⟩⟩ :=
    (walked found).single (Home.ordinary proper.plain)
  · cases there
  · obtain rfl := named child
    cases there
    refine ⟨outer, fun target node => ?_⟩
    rw [isLinkOf node] at plain
    rcases plain with notLink | stops
    · cases notLink
    · cases stops
  · obtain rfl := named child
    refine ⟨by rw [isDir, node]; rfl, fun target' node' => ?_⟩
    cases node.symm.trans node'
    exact ⟨_, _, place, j, more, there, outer⟩

theorem blindFile {d i : Ino} {n : Name} (entry : fs.named? d n = some i) (outer : fs.isInner i = false) :
    fs.Blind d n := by
  intro k found
  cases entry.symm.trans found
  refine ⟨(notInner outer).1, fun target node => ?_⟩
  rw [isInner, isLinkOf node, Bool.or_true] at outer
  cases outer

theorem hereMove (tidy : fs.Tidy) {d i : Ino} {old new : Name} (dir : fs.isDir d = true)
    (here : fs.isGone d = false) (entry : fs.named? d old = some i) (outer : fs.isDir i = false)
    (loose : ∀ j, fs.named? d new = some j → fs.isDir j = false) :
    (fs.updateDir d (fun es => supplant new i (es.erase old))).isGone d = false := by
  obtain ⟨es, up, m, node⟩ := isDirExact dir
  have after := nodeUpdateDir fs d d (fun es => supplant new i (es.erase old))
  rw [if_pos rfl, node] at after
  have other : ∀ {n j}, fs.named? d n = some j → fs.isDir j = false → es.get? n ≠ some d := by
    intro n j found outer leads
    rw [← entryOf node, found] at leads
    cases leads
    rw [dir] at outer
    cases outer
  refine (goneExact after).mpr (((goneExact node).mp here).imp ?_ ?_)
  · exact fun root => root.trans (rootUpdateDir fs d _).1.symm
  · rintro ⟨above, up', m', node', listed⟩
    by_cases same : up = d
    · subst same
      cases node.symm.trans node'
      refine ⟨_, _, _, after, Lists.set ?_ (Table.getErased _ new) i⟩
      refine (listed.erase (tidy.keyed node) (other entry outer)).erase
        (Table.keyedErase (tidy.keyed node) old) fun leads => ?_
      rw [Table.getErase] at leads
      split at leads
      · cases leads
      · exact other ((entryOf node new).trans leads) (loose _ ((entryOf node new).trans leads)) leads
    · exact ⟨above, up', m', (nodeUpdateDir fs d up _).trans ((if_neg same).trans node'), listed⟩

theorem Home.movedApart {pre : Path} {d i : Ino} {old new : Name} (tidy : fs.Tidy) (home : fs.Home pre d)
    (entry : fs.named? d old = some i) (outer : fs.isInner i = false)
    (loose : ∀ j, fs.named? d new = some j → fs.isDir j = false) (apart : (d, new) ∉ fs.route pre) :
    (fs.updateDir d (fun es => supplant new i (es.erase old))).Home pre d := by
  have retains : Retains (fun e n => (e, n) = (d, old) ∨ (e, n) = (d, new)) fs
      (fs.updateDir d (fun es => supplant new i (es.erase old))) :=
    .move tidy entry (fun j found dir => absurd dir (by rw [loose j found]; exact Bool.false_ne_true))
      (Or.inl rfl) (Or.inr rfl)
  obtain ⟨slash, place, walks, there⟩ := home.led
  have way := walked walks
  have free : ∀ v ∈ fs.walkVisits Limits.linkMax (fs.startOf fs.cwd pre) pre.names,
      ¬ ((v.1, v.2) = (d, old) ∨ (v.1, v.2) = (d, new)) := by
    rintro v mem (same | same)
    · exact way.avoids there home.dir (blindFile entry outer) (same ▸ mem)
    · exact apart (same ▸ mem)
  have on := way.retained tidy retains (by rw [there]; rfl) free
  exact {
    ends := home.ends
    led := ⟨slash, place, by rw [startOf, retains.root, retains.cwd]; exact on.ok, there⟩
    dir := retains.dir home.dir
    here := hereMove tidy home.dir home.here entry (notInner outer).1 loose
    search := by
      obtain ⟨es, up, m, node⟩ := isDirExact home.dir
      rw [permits, nodeUpdateDir, if_pos rfl, ← home.search, permits, node]
      rfl }

theorem Home.moved {pre : Path} {d i : Ino} {old new : Name} (tidy : fs.Tidy) (home : fs.Home pre d)
    (entry : fs.named? d old = some i) (outer : fs.isInner i = false) (blind : fs.Blind d new) :
    (fs.updateDir d (fun es => supplant new i (es.erase old))).Home pre d := by
  obtain ⟨_, _, walks, there⟩ := home.led
  exact home.movedApart tidy entry outer (fun j found => (blind j found).1)
    ((walked walks).avoids there home.dir blind)

end AtomicUpdate.Fs
