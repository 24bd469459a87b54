import AtomicUpdate.Proofs.Fs.Resolved

/-! Directories that know where they are. In a tree of such directories the canonical path of a name and
the name itself never lead to two different nodes. -/
namespace AtomicUpdate

def Node.parent? : Node → Option Ino
  | .dir _ up _ => some up
  | _ => none

namespace Fs
open Path (Plain)

variable {fs fs' : Fs}

structure Upright (fs : Fs) : Prop where
  top : ∀ {es up m}, fs.node? fs.root = some (.dir es up m) → up = fs.root
  below : ∀ {d n c es up m}, fs.named? d n = some c → fs.node? c = some (.dir es up m) → up = d
  above : ∀ {d es up m}, fs.node? d = some (.dir es up m) → fs.isDir up = true
  plain : ∀ {d n c}, fs.named? d n = some c → fs.isDir c = true → Plain n

def WellPlaced (fs : Fs) (d : Ino) : Node → Prop
  | .dir es up _ => fs.isDir up = true ∧ (d = fs.root → up = d) ∧
      ∀ e ∈ es.entries, ∀ up ∈ (fs.node? e.2).bind Node.parent?, up = d
  | _ => True

instance (fs : Fs) (d : Ino) : (node : Node) → Decidable (fs.WellPlaced d node)
  | .dir es up _ => inferInstanceAs (Decidable (fs.isDir up = true ∧ (d = fs.root → up = d) ∧
      ∀ e ∈ es.entries, ∀ up ∈ (fs.node? e.2).bind Node.parent?, up = d))
  | .file .. => .isTrue trivial
  | .link _ => .isTrue trivial
  | .device _ => .isTrue trivial

theorem uprightOf (placed : ∀ d < fs.nodes.size, ∀ node ∈ fs.node? d, fs.WellPlaced d node)
    (spelled : ∀ {d n i}, fs.named? d n = some i → Plain n) : fs.Upright := by
  have each : ∀ {d es up m}, fs.node? d = some (.dir es up m) → fs.WellPlaced d (.dir es up m) :=
    fun node => placed _ (nodeBound node) _ node
  refine ⟨fun node => (each node).2.1 rfl, ?_, fun node => (each node).1, fun entry _ => spelled entry⟩
  intro d n c es up m entry node
  obtain ⟨es', up', m', node', found⟩ := entryNode entry
  refine (each node').2.2 _ (Table.memOfGet found) up ?_
  dsimp only
  rw [node]
  rfl

inductive Dotted : List Name → List Name → Prop where
  | nil : Dotted [] []
  | dot {ns ms} (more : Dotted ns ms) : Dotted ns (Path.dot :: ms)
  | cons (n) {ns ms} (more : Dotted ns ms) : Dotted (n :: ns) (n :: ms)

namespace Dotted

theorem refl (ns : List Name) : Dotted ns ns := by
  induction ns with
  | nil => exact .nil
  | cons n ns ih => exact .cons n ih

theorem append {ns ms ns' ms' : List Name} (first : Dotted ns ms) (second : Dotted ns' ms') :
    Dotted (ns ++ ns') (ms ++ ms') := by
  induction first with
  | nil => exact second
  | dot more ih => exact .dot ih
  | cons n more ih => exact .cons n ih

theorem steps (p : Path) : Dotted p.names p.steps := by
  unfold Path.steps
  split
  · have closing : Dotted [] [Path.dot] := .dot .nil
    have whole := (refl p.names).append closing
    rwa [List.append_nil] at whole
  · exact refl p.names

end Dotted

theorem climbIdle {t : Trail} {ms : List Name} {c : Climb} (idle : Dotted [] ms)
    (ok : fs.climb t ms = .ok c) : c = .done t := by
  induction ms with
  | nil =>
    cases ok
    rfl
  | cons m ms ih =>
    cases idle with
    | dot more => exact ih more ok

inductive Traced (fs : Fs) : Trail → Prop where
  | inside {t} (linked : Linked fs t) : Traced fs t
  | last {t n i} (up : Linked fs t) (plain : Plain n) (within : t.lengthWith n < Limits.pathMax)
      (along : fs.childAlong t n = .ok (some i)) (notLink : fs.isLink i = false) : Traced fs ((n, i) :: t)

theorem Traced.names {t : Trail} (traced : fs.Traced t) : t.path.names = (t.map (·.1)).reverse := by
  cases traced with
  | inside linked => exact pathNames linked
  | @last t n i up plain within along notLink =>
    have before : Path.names (if t = [] then [] else t.path) = (t.map (·.1)).reverse := by
      split
      · rename_i none
        subst none
        rfl
      · exact pathNames up
    rw [pathStep, Path.namesAppend, Path.namesPlain plain, before, List.map_cons, List.reverse_cons]

theorem Traced.leads {t : Trail} (traced : fs.Traced t) {j : Ino} (ok : fs.lookup t.path = .ok j) :
    t.node fs = j := by
  cases traced with
  | inside linked => exact (lookupTrail linked ok).1
  | @last t n i up plain within along notLink =>
    obtain ⟨_, halt, way, ends⟩ := lookupNames (Traced.last up plain within along notLink).names ok
    rw [List.map_cons, List.reverse_cons] at way
    obtain ⟨_, last⟩ := advanceOnward (fun led => (advanceTrail up led).1) (List.cons_ne_nil n []) way
    obtain ⟨rfl, _⟩ := lastName plain (childExact (childAlongExact along).2).2.2.2.2 notLink last
    exact Option.some.inj (ends _ rfl)

inductive Abreast (fs : Fs) : Climb → Halt → Prop where
  | arrived {top spot} (there : spot.ino? = some (top.node fs)) (traced : Traced fs top) :
      Abreast fs (.done top) (.arrived spot)
  | link {mid n i target rest rest'} (linked : Linked fs mid) (spelled : Spelled rest)
      (dotted : Dotted rest rest') : Abreast fs (.link mid target rest') (.link (mid.node fs) n i target rest)

theorem climbAbreast (upright : fs.Upright) {ns ms : List Name} (dotted : Dotted ns ms) {t : Trail}
    {c : Climb} {refuse : Bool} {halt : Halt} (linked : fs.Linked t) (spelled : Spelled ns)
    (way : fs.Advanced refuse (t.node fs) ns halt) (ok : fs.climb t ms = .ok c) : fs.Abreast c halt := by
  induction dotted generalizing t with
  | nil =>
    cases ok
    cases way
    exact .arrived rfl (.inside linked)
  | dot more ih => exact ih linked spelled way ok
  | @cons n ns ms more ih =>
    have spelled' := spelledTail spelled
    have found : ∀ {there}, fs.child (t.node fs) n = .ok there → Ordinary n →
        ∃ i, there = some i ∧ ((∃ target, fs.node? i = some (.link target) ∧ c = .link t target ms) ∨
          (fs.isLink i = false ∧ t.lengthWith n < Limits.pathMax ∧ fs.childAlong t n = .ok (some i) ∧
            fs.climb ((n, i) :: t) ms = .ok c)) := by
      intro there child ordinary
      obtain ⟨within, i, along, ends⟩ := climbExact ordinary ok
      rw [(childAlongExact along).2] at child
      exact ⟨i, (Except.ok.inj child).symm, ends.imp id fun ⟨notLink, _, on⟩ => ⟨notLink, within, along, on⟩⟩
    cases way with
    | stay parent on => exact ih linked spelled' on ok
    | @up _ above _ _ parent on =>
      rw [climb, if_neg (by decide), if_pos rfl] at ok
      obtain ⟨es, m, node, _⟩ := parentExact parent
      have back : above = Trail.node fs t.tail := by
        cases linked with
        | root => exact upright.top node
        | step up plain entry dir => exact upright.below entry node
      exact ih linked.tail spelled' (back ▸ on) ok
    | vacant parent ordinary allowed child =>
      obtain ⟨i, none, _⟩ := found child ordinary
      cases none
    | link parent ordinary allowed child node =>
      obtain ⟨_, same, ⟨target, node', rfl⟩ | ⟨notLink, _⟩⟩ := found child ordinary
      · cases same
        rw [node] at node'
        cases node'
        exact .link linked spelled' more
      · cases same
        rw [isLinkOf node] at notLink
        cases notLink
    | last parent ordinary allowed child notLink =>
      obtain ⟨_, same, ⟨target, node, _⟩ | ⟨_, within, along, on⟩⟩ := found child ordinary
      · cases same
        rw [isLinkOf node] at notLink
        cases notLink
      · cases same
        rw [climbIdle more on]
        exact .arrived rfl (.last linked (plainOf spelled ordinary) within along notLink)
    | down parent ordinary child notLink some' on =>
      obtain ⟨_, same, ⟨target, node, _⟩ | ⟨_, _, _, on'⟩⟩ := found child ordinary
      · cases same
        rw [isLinkOf node] at notLink
        cases notLink
      · cases same
        have dir := on.fromDir some'
        exact ih (.step linked (plainOf spelled ordinary) (childExact child).2.2.2.2 dir) spelled' on on'

theorem ascendAbreast (upright : fs.Upright) {links links' : Nat} {d : Ino} {ns ms : List Name}
    (dotted : Dotted ns ms) {t top : Trail} {slash : Bool} {place : Place} (linked : fs.Linked t)
    (here : t.node fs = d) (spelled : Spelled ns)
    (walked : fs.Walked .always links d ns slash place) (ok : fs.ascend links' t ms = .ok top) :
    place.spot.ino? = some (top.node fs) ∧ fs.Traced top := by
  have arrives := ascended ok
  clear ok
  induction walked generalizing links' t ms with
  | stopped way stops => cases stops
  | arrived way =>
    subst here
    cases arrives with
    | done climbed =>
      cases climbAbreast upright dotted linked spelled way climbed with
      | arrived there traced => exact ⟨there, traced⟩
    | link climbed => cases climbAbreast upright dotted linked spelled way climbed
  | @onward _ _ _ _ _ _ _ target _ _ way goes more ih =>
    subst here
    cases arrives with
    | done climbed => cases climbAbreast upright dotted linked spelled way climbed
    | @link _ _ _ mid _ rest climbed further =>
      cases climbAbreast upright dotted linked spelled way climbed with
      | link linked' spelled' dotted' =>
        have start : Trail.node fs (if target.isAbsolute then [] else mid) = fs.startOf (mid.node fs) target := by
          rw [startOf]
          split <;> rfl
        exact ih ((Dotted.steps target).append dotted') (linked'.behind target) start
          ((spelledNames target).append spelled') further

theorem canonicalTraced (tidy : fs.Tidy) (upright : fs.Upright) {p q : Path} {place : Place}
    (canonical : fs.canonical p = .ok q) (found : fs.locate .always p = .ok place) :
    ∃ top, q = Trail.path top ∧ place.spot.ino? = some (top.node fs) ∧ fs.Traced top := by
  obtain ⟨t, top, starts, reached, rfl⟩ := canonicalExact canonical
  have start := trailStarts tidy upright.plain starts
  exact ⟨top, rfl, ascendAbreast upright (.steps p) start.1 start.2 (spelledNames p)
    (walked (locateExact found).2) reached⟩

theorem canonicalLeads (tidy : fs.Tidy) (upright : fs.Upright) {p q : Path} {i j : Ino}
    (canonical : fs.canonical p = .ok q) (named : fs.lookup p = .ok i) (led : fs.lookup q = .ok j) :
    i = j := by
  obtain ⟨place, found, there, _⟩ := lookupExact named
  obtain ⟨top, rfl, ends, traced⟩ := canonicalTraced tidy upright canonical found
  rw [there] at ends
  exact (Option.some.inj ends).trans (traced.leads led)

theorem canonicalVacant (tidy : fs.Tidy) (upright : fs.Upright) {p q : Path} {d : Ino} {n : Name} {s : Bool}
    (vacant : fs.locate .always p = .ok ⟨.vacant d n, s⟩) : fs.canonical p ≠ .ok q := by
  intro canonical
  obtain ⟨top, _, ends, _⟩ := canonicalTraced tidy upright canonical vacant
  cases ends

end Fs
end AtomicUpdate
