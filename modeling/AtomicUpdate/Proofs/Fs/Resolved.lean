import AtomicUpdate.Proofs.Fs.Canonical
import Mathlib.Data.List.Find

/-! Resolving a name in a directory that stands. Whatever has happened to files since, the canonical
path of the name is found and leads to the same entry as the name itself. -/
namespace AtomicUpdate
namespace Fs
open Path (Plain Proper)

variable {spared : Ino → Prop} {fs fs' fs'' : Fs}

namespace Traces

theorem refl (fs : Fs) : Traces fs fs := ⟨rfl, fun node => ⟨_, node, fun _ found => found⟩⟩

theorem dir (traces : Traces fs fs') {c : Ino} (dir : fs.isDir c = true) : fs'.isDir c = true := by
  obtain ⟨es, up, m, node⟩ := isDirExact dir
  obtain ⟨es', node', _⟩ := traces.dirs node
  exact isDirOf node'

theorem trans (first : Traces fs fs') (second : Traces fs' fs'') : Traces fs fs'' where
  root := second.root.trans first.root
  dirs := by
    intro d es up m node
    obtain ⟨es', node', finds⟩ := first.dirs node
    obtain ⟨es'', node'', finds'⟩ := second.dirs node'
    exact ⟨es'', node'', fun dir found => finds' (first.dir dir) (finds dir found)⟩

theorem ofAlike (alike : Alike fs fs') : Traces fs fs' where
  root := alike.root
  dirs := by
    intro d es up m node
    have inner : fs.isInner d = true := by rw [isInner, isDirOf node, Bool.true_or]
    exact ⟨es, alike.node node inner, fun _ found => found⟩

theorem updateDir {d : Ino} {change : Table Name Ino → Table Name Ino}
    (finds : ∀ {es up m}, fs.node? d = some (.dir es up m) → ∀ {c e}, fs.isDir c = true →
      es.entries.find? (fun e => e.2 = c) = some e →
        (change es).entries.find? (fun e => e.2 = c) = some e) :
    Traces fs (fs.updateDir d change) where
  root := (rootUpdateDir fs d change).1
  dirs := by
    intro e es up m node
    rw [nodeUpdateDir]
    by_cases same : e = d
    · subst same
      rw [if_pos rfl, node]
      exact ⟨change es, rfl, finds node⟩
    · rw [if_neg same]
      exact ⟨es, node, fun _ found => found⟩

theorem findErase {es : Table Name Ino} {n : Name} (keyed : es.Keyed)
    (loose : ∀ i, es.get? n = some i → fs.isDir i = false) {c : Ino} {e : Name × Ino}
    (dir : fs.isDir c = true) (found : es.entries.find? (fun e => e.2 = c) = some e) :
    (es.erase n).entries.find? (fun e => e.2 = c) = some e := by
  rw [Table.erase, List.find?_filter, ← found]
  apply List.find?_congr
  intro x mem
  by_cases leads : x.2 = c
  · have other : x.1 ≠ n := by
      intro same
      have entry := Table.getOfMem keyed mem
      rw [same, leads] at entry
      rw [loose c entry] at dir
      cases dir
    simp [leads, other]
  · simp [leads]

theorem erase (tidy : fs.Tidy) {d : Ino} {n : Name}
    (loose : ∀ i, fs.named? d n = some i → fs.isDir i = false) :
    Traces fs (fs.updateDir d (·.erase n)) :=
  updateDir fun node => findErase (tidy.keyed node) fun i entry => loose i ((entryOf node n).trans entry)

theorem findSet {es : Table Name Ino} {n : Name} (absent : es.get? n = none) (i c : Ino)
    {e : Name × Ino} (found : es.entries.find? (fun e => e.2 = c) = some e) :
    (es.set n i).entries.find? (fun e => e.2 = c) = some e := by
  rw [Table.setAbsent absent, List.find?_append, found, Option.some_or]

theorem set {d : Ino} {n : Name} (free : fs.named? d n = none) (i : Ino) :
    Traces fs (fs.updateDir d (·.set n i)) :=
  updateDir fun node _ _ _ found => findSet ((entryOf node n).symm.trans free) i _ found

theorem move (tidy : fs.Tidy) {d i : Ino} {old new : Name}
    (looseOld : ∀ j, fs.named? d old = some j → fs.isDir j = false)
    (looseNew : ∀ j, fs.named? d new = some j → fs.isDir j = false) :
    Traces fs (fs.updateDir d (fun es => supplant new i (es.erase old))) := by
  refine updateDir fun node c e dir found => findSet (Table.getErased _ new) i c ?_
  have first := findErase (n := old) (tidy.keyed node)
    (fun j entry => looseOld j ((entryOf node old).trans entry)) dir found
  refine findErase (Table.keyedErase (tidy.keyed node) old) (fun j entry => ?_) dir first
  rw [Table.getErase] at entry
  split at entry
  · cases entry
  · exact looseNew j ((entryOf node new).trans entry)

end Traces

def ahead (pre : Path) : Path := if pre = [] then Path.dot else pre

theorem aheadSteps {pre : Path} (ends : pre = [] ∨ ∃ a, pre = a ++ [Path.slash]) :
    (ahead pre).steps = pre.names ++ [Path.dot] := by
  rcases ends with rfl | ⟨a, rfl⟩
  · decide
  · rw [ahead, if_neg (by simp), Path.steps, if_pos]
    rw [Path.endsInSlash, List.getLast?_concat]
    rfl

theorem aheadAbsolute (pre : Path) : (ahead pre).isAbsolute = pre.isAbsolute := by
  unfold ahead
  split
  · rename_i none
    subst none
    rfl
  · rfl

theorem ledAhead {pre : Path} {d : Ino} (ends : pre = [] ∨ ∃ a, pre = a ++ [Path.slash])
    (led : fs.lookup (ahead pre) = .ok d) : ∃ slash place,
      fs.walk .always Limits.linkMax (fs.startOf fs.cwd pre) pre.names slash = .ok place ∧
        place.spot.ino? = some d := by
  obtain ⟨place, found, there, _⟩ := lookupExact led
  have goes := (locateExact found).2
  rw [startOf, aheadAbsolute] at goes
  rcases ends with rfl | ⟨a, same⟩
  · change fs.walk .always Limits.linkMax fs.cwd ([] ++ List.replicate 1 Path.dot) _ = .ok place at goes
    obtain ⟨p, goes', there'⟩ := walkUndotted goes there false
    exact ⟨false, p, goes', there'⟩
  · have written : ahead pre = pre := by rw [ahead, if_neg (by simp [same])]
    rw [written] at goes
    exact ⟨_, place, goes, there⟩

def trailFrom? (fs : Fs) (p : Path) : Option Trail :=
  if p.isAbsolute then some [] else fs.trailOf? (fs.nodes.size + 1) fs.cwd

theorem trailStarts (tidy : fs.Tidy)
    (plain : ∀ {d n i}, fs.named? d n = some i → fs.isDir i = true → Plain n) {p : Path} {t : Trail}
    (starts : fs.trailFrom? p = some t) : fs.Linked t ∧ t.node fs = fs.startOf fs.cwd p := by
  unfold trailFrom? at starts
  rw [startOf]
  split at starts
  · rename_i absolute
    cases starts
    rw [if_pos absolute]
    exact ⟨.root, rfl⟩
  · rename_i relative
    rw [if_neg relative]
    exact trailLinked tidy plain starts

theorem canonicalOf {p : Path} {t : Trail} (some' : p ≠ []) (starts : fs.trailFrom? p = some t) :
    fs.canonical p = (fs.ascend Limits.linkMax t p.steps).map Trail.path := by
  unfold canonical
  rw [if_neg some']
  unfold trailFrom? at starts
  split at starts
  · rename_i absolute
    cases starts
    rw [if_pos absolute]
    change (fs.ascend Limits.linkMax [] p.steps >>= fun top => .ok top.path) = _
    cases fs.ascend Limits.linkMax [] p.steps <;> rfl
  · rename_i relative
    rw [if_neg relative, starts]
    change (fs.ascend Limits.linkMax t p.steps >>= fun top => .ok top.path) = _
    cases fs.ascend Limits.linkMax t p.steps <;> rfl

theorem canonicalExact {p q : Path} (ok : fs.canonical p = .ok q) :
    ∃ t top, fs.trailFrom? p = some t ∧ fs.ascend Limits.linkMax t p.steps = .ok top ∧
      q = top.path := by
  have some' : p ≠ [] := by
    intro none
    rw [canonical, if_pos none] at ok
    cases ok
  cases starts : fs.trailFrom? p with
  | some t =>
    rw [canonicalOf some' starts] at ok
    cases reached : fs.ascend Limits.linkMax t p.steps with
    | error e => rw [reached] at ok; cases ok
    | ok top =>
      rw [reached] at ok
      cases ok
      exact ⟨t, top, rfl, reached, rfl⟩
  | none =>
    unfold trailFrom? at starts
    unfold canonical at ok
    rw [if_neg some'] at ok
    split at starts
    · cases starts
    · rename_i relative
      rw [if_neg relative, starts] at ok
      cases ok

def below (q : Path) (n : Name) : Path := (if q = [Path.slash] then [] else q) ++ Path.slash :: n

def onward (q : Path) : Path := if q = [Path.slash] then q else q ++ [Path.slash]

theorem belowOnward (q : Path) (n : Name) : below q n = onward q ++ n := by
  unfold below onward
  split
  · rename_i root
    rw [root]
    rfl
  · rw [List.append_assoc]
    rfl

structure Stands (fs : Fs) (pre q : Path) (d : Ino) : Prop where
  ends : pre = [] ∨ ∃ a, pre = a ++ [Path.slash]
  led : fs.lookup (ahead pre) = .ok d
  dir : fs.isDir d = true
  here : fs.isGone d = false
  search : fs.permits d .search = true
  canonical : fs.canonical (ahead pre) = .ok q
  back : fs.lookup q = .ok d
  noNul : 0 ∉ q

namespace Stands
variable {pre q : Path} {d : Ino}

theorem home (stands : fs.Stands pre q d) : fs.Home pre d where
  ends := stands.ends
  dir := stands.dir
  here := stands.here
  search := stands.search
  led := ledAhead stands.ends stands.led

theorem absolute (stands : fs.Stands pre q d) : q.isAbsolute = true := by
  obtain ⟨t, top, _, _, rfl⟩ := canonicalExact stands.canonical
  exact pathAbsolute top

theorem onwards (stands : fs.Stands pre q d) : fs.Home (onward q) d where
  ends := by
    right
    unfold onward
    split
    · exact ⟨[], by assumption⟩
    · exact ⟨q, rfl⟩
  dir := stands.dir
  here := stands.here
  search := stands.search
  led := by
    obtain ⟨place, found, there, _⟩ := lookupExact stands.back
    have goes := (locateExact found).2
    have same : Path.names (onward q) = q.names ∧ (onward q).isAbsolute = q.isAbsolute := by
      unfold onward
      split
      · exact ⟨rfl, rfl⟩
      · have nonempty : q ≠ [] := by
          intro none
          have absolute := stands.absolute
          rw [none] at absolute
          cases absolute
        exact ⟨by rw [Path.namesAppend, Path.namesNil, List.append_nil], Path.absoluteThrough nonempty⟩
    rw [startOf, ← same.1, ← same.2] at goes
    exact ⟨_, place, goes, there⟩

end Stands

theorem lengthOver (t : Trail) (k : Nat) :
    t.foldl (fun sum e => sum + e.1.length + 1) k = k + (if t = [] then 0 else t.path.length) := by
  induction t generalizing k with
  | nil => rfl
  | cons e t ih =>
    obtain ⟨n, i⟩ := e
    have size : (Trail.path ((n, i) :: t)).length =
        (if t = [] then 0 else (Trail.path t).length) + (n.length + 1) := by
      rw [pathStep, List.length_append, List.length_cons]
      split <;> rfl
    rw [List.foldl_cons, ih, if_neg (List.cons_ne_nil (n, i) t), size]
    dsimp only
    omega

theorem lengthWithin (t : Trail) (n : Name) : t.lengthWith n ≤ t.path.length + 1 + n.length := by
  rw [Trail.lengthWith, lengthOver]
  split <;> omega

theorem pathLength (t : Trail) (n : Name) (i : Ino) :
    (Trail.path ((n, i) :: t)).length = t.lengthWith n := by
  rw [pathStep, List.length_append, List.length_cons, Trail.lengthWith, lengthOver]
  split
  · rw [List.length_nil]
    omega
  · omega

theorem pathShorter (t : Trail) (n : Name) (i : Ino) : t.path.length ≤ (Trail.path ((n, i) :: t)).length := by
  cases t with
  | nil => simp [Trail.path]
  | cons e t =>
    change (Trail.path (e :: t)).length ≤ (Trail.path (e :: t) ++ Path.slash :: n).length
    rw [List.length_append]
    exact Nat.le_add_right _ _

theorem Stands.trail {pre q : Path} {d : Ino} (stands : fs.Stands pre q d) (tidy : fs.Tidy)
    (plain : ∀ {d n i}, fs.named? d n = some i → Plain n) :
    ∃ t top left, fs.trailFrom? pre = some t ∧ q = top.path ∧ fs.Linked top ∧ top.node fs = d ∧
      (top ≠ [] → ∀ i ∈ fs.root :: top.tail.map (·.2), fs.demand i .search = .ok ()) ∧
      ∀ {fs'}, Keeps (fun _ => False) fs fs' → ∀ n : Name,
        fs'.ascend Limits.linkMax t (pre.names ++ [n]) = fs'.ascend left top [n] := by
  obtain ⟨t, top, starts, reached, rfl⟩ := canonicalExact stands.canonical
  have linked := (trailStarts tidy (fun entry _ => plain entry) starts).1
  rw [trailFrom?, aheadAbsolute] at starts
  rw [aheadSteps stands.ends] at reached
  obtain ⟨linkedTop, left, goes⟩ := ascendHome linked (spelledNames pre) reached
  obtain ⟨here, asked⟩ := lookupTrail linkedTop stands.back
  exact ⟨t, top, left, starts, rfl, linkedTop, here, asked, goes⟩

section
variable {pre q n : Path} {d : Ino}

theorem Stands.climb (stands : fs.Stands pre q d) (tidy : fs.Tidy)
    (plain : ∀ {d n i}, fs.named? d n = some i → Plain n)
    (keeps : Keeps (fun _ => False) fs fs') (traces : Traces fs fs')
    (more : fs.nodes.size ≤ fs'.nodes.size) (proper : Proper pre n)
    (room : q.length + 1 + n.length < Limits.pathMax) :
    ∃ top left, q = Trail.path top ∧ fs.Linked top ∧ Ordinary n ∧ top.lengthWith n < Limits.pathMax ∧
      fs'.childAlong top n = .ok (fs'.named? d n) ∧
      fs'.canonical (pre ++ n) = (fs'.ascend left top [n]).map Trail.path := by
  obtain ⟨t, top, left, starts, rfl, linked, here, asked, goes⟩ := stands.trail tidy plain
  have starts' : fs'.trailFrom? (pre ++ n) = some t := by
    have absolute : (pre ++ n).isAbsolute = pre.isAbsolute := by
      cases pre with
      | nil => exact Path.plainRelative proper.plain
      | cons c rest => exact Path.absoluteThrough (List.cons_ne_nil c rest)
    rw [trailFrom?] at starts ⊢
    rw [absolute, keeps.cwd]
    split at starts
    · rename_i abs
      rw [if_pos abs]
      exact starts
    · rename_i rel
      rw [if_neg rel]
      exact trailKept traces starts (Nat.succ_le_succ more)
  have home := (stands.home.kept keeps).child (n := n) proper.short
  refine ⟨top, left, rfl, linked, Home.ordinary proper.plain, Nat.lt_of_le_of_lt (lengthWithin top n) room, ?_, ?_⟩
  · rw [childAlongOf, nodeKept keeps, here, home]
    intro some' i mem
    rw [keeps.root] at mem
    rw [keeps.demand (linked.onTrail some' mem)]
    exact asked some' i mem
  · have nonempty : pre ++ n ≠ [] := by simp [proper.plain.nonempty]
    rw [canonicalOf nonempty starts', Path.steps, Path.plainNoClosing proper.plain,
      if_neg Bool.false_ne_true, Path.namesThrough stands.ends proper.plain, goes keeps n]

theorem Stands.canonicalNone (stands : fs.Stands pre q d) (tidy : fs.Tidy)
    (plain : ∀ {d n i}, fs.named? d n = some i → Plain n)
    (keeps : Keeps (fun _ => False) fs fs') (traces : Traces fs fs')
    (more : fs.nodes.size ≤ fs'.nodes.size) (proper : Proper pre n)
    (room : q.length + 1 + n.length < Limits.pathMax) (free : fs'.named? d n = none) :
    fs'.canonical (pre ++ n) = .error .enoent := by
  obtain ⟨top, left, _, _, ordinary, within, child, goes⟩ :=
    stands.climb tidy plain keeps traces more proper room
  rw [goes, ascend, climbOrdinary ordinary within, child, free]
  rfl

theorem Stands.canonicalSome (stands : fs.Stands pre q d) (tidy : fs.Tidy)
    (plain : ∀ {d n i}, fs.named? d n = some i → Plain n)
    (keeps : Keeps (fun _ => False) fs fs') (traces : Traces fs fs')
    (more : fs.nodes.size ≤ fs'.nodes.size) (proper : Proper pre n)
    (room : q.length + 1 + n.length < Limits.pathMax) {i : Ino} (taken : fs'.named? d n = some i)
    (notLink : fs'.isLink i = false) : fs'.canonical (pre ++ n) = .ok (below q n) := by
  obtain ⟨top, left, same, linked, ordinary, within, child, goes⟩ :=
    stands.climb tidy plain keeps traces more proper room
  rw [taken] at child
  have whole : Trail.path ((n, i) :: top) = below q n := by
    rw [pathStep, below, same]
    cases top with
    | nil => rfl
    | cons e t =>
      have longer : Trail.path (e :: t) ≠ [Path.slash] := by
        intro short
        have names := pathNames linked
        rw [short] at names
        simp [Path.names, Path.segments] at names
      rw [if_neg (List.cons_ne_nil e t), if_neg longer]
  rw [goes, ascend, climbDown ordinary within child notLink rfl, ← whole]
  rfl

end

end Fs
end AtomicUpdate
