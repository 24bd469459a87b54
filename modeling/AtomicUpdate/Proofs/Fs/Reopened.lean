import AtomicUpdate.Proofs.Fs.Recede

/-! Opening a file by its canonical path. The path names directories only, each of which is searched on the way,
so it leads back to the file as long as the names in it are such as calls take. -/
namespace AtomicUpdate
namespace Path

theorem segmentsMem {p : Path} {n : Name} {b : UInt8} (segment : n ∈ segments p) (mem : b ∈ n) : b ∈ p := by
  induction p generalizing n with
  | nil =>
    cases List.mem_singleton.mp segment
    exact mem
  | cons c p ih =>
    rw [segments] at segment
    split at segment
    · rcases List.mem_cons.mp segment with rfl | later
      · cases mem
      · exact List.mem_cons_of_mem c (ih later mem)
    · split at segment
      · cases List.mem_singleton.mp segment
        exact List.mem_singleton.mp mem ▸ List.mem_cons_self
      · rename_i first rest split
        rcases List.mem_cons.mp segment with rfl | later
        · rcases List.mem_cons.mp mem with rfl | within
          · exact List.mem_cons_self
          · exact List.mem_cons_of_mem c (ih (split ▸ List.mem_cons_self) within)
        · exact List.mem_cons_of_mem c (ih (split ▸ List.mem_cons_of_mem first later) mem)

theorem stepsNoNul {p : Path} (noNul : 0 ∉ p) : ∀ n ∈ p.steps, 0 ∉ n := by
  have names : ∀ n ∈ p.names, 0 ∉ n := fun n mem nul => noNul (segmentsMem (List.mem_filter.mp mem).1 nul)
  unfold steps
  split
  · intro n mem
    rcases List.mem_append.mp mem with name | last
    · exact names n name
    · rw [List.mem_singleton.mp last]
      decide
  · exact names

end Path

def Node.Legible : Node → Prop
  | .dir es _ _ => ∀ e ∈ es.entries, e.1.length ≤ Limits.nameMax ∧ 0 ∉ e.1
  | .link target => 0 ∉ target
  | _ => True

instance : (node : Node) → Decidable node.Legible
  | .dir es _ _ => inferInstanceAs (Decidable (∀ e ∈ es.entries, e.1.length ≤ Limits.nameMax ∧ 0 ∉ e.1))
  | .link target => inferInstanceAs (Decidable (0 ∉ target))
  | .file .. => .isTrue trivial
  | .device _ => .isTrue trivial

def Climb.Clean : Climb → Prop
  | .done t => ∀ e ∈ t, 0 ∉ e.1
  | .link t target rest => (∀ e ∈ t, 0 ∉ e.1) ∧ 0 ∉ target ∧ ∀ n ∈ rest, 0 ∉ n

namespace Fs
open Path (Plain)

variable {fs fs' : Fs}

structure Legible (fs : Fs) : Prop where
  dirs : ∀ {d n c}, fs.named? d n = some c → fs.isDir c = true → n.length ≤ Limits.nameMax ∧ 0 ∉ n
  links : ∀ {i target}, fs.node? i = some (.link target) → 0 ∉ target

theorem legibleOf (each : ∀ node ∈ fs.nodes.toList, node.Legible) : fs.Legible := by
  have known : ∀ {i node}, fs.node? i = some node → node.Legible := by
    intro i node is
    exact each node (Array.mem_toList_iff.mpr (Array.mem_of_getElem? is))
  refine ⟨fun entry _ => ?_, fun node => known node⟩
  obtain ⟨es, up, m, node, found⟩ := entryNode entry
  exact known node _ (Table.memOfGet found)

theorem Recedes.legible (recedes : Recedes fs fs') (legible : fs.Legible) : fs'.Legible where
  dirs := by
    intro d n c entry dir
    have firm : fs'.Firm (fun _ => False) c := Or.inl (by rw [isInner, dir, Bool.true_or])
    exact legible.dirs (recedes.back.entry entry firm) (recedes.back.dir dir)
  links := fun node => legible.links (recedes.back.links node)

theorem Linked.legible {t : Trail} (linked : fs.Linked t) (legible : fs.Legible) :
    ∀ e ∈ t, e.1.length ≤ Limits.nameMax ∧ 0 ∉ e.1 := by
  induction linked with
  | root => exact fun _ mem => absurd mem List.not_mem_nil
  | step up plain entry dir ih =>
    intro e mem
    rcases List.mem_cons.mp mem with rfl | above
    · exact legible.dirs entry dir
    · exact ih e above

theorem climbClean (legible : fs.Legible) {t : Trail} {ns : List Name} {c : Climb} (trail : ∀ e ∈ t, 0 ∉ e.1)
    (names : ∀ n ∈ ns, 0 ∉ n) (ok : fs.climb t ns = .ok c) : c.Clean := by
  induction ns generalizing t with
  | nil =>
    cases ok
    exact trail
  | cons n ns ih =>
    have later : ∀ m ∈ ns, 0 ∉ m := fun m mem => names m (List.mem_cons_of_mem n mem)
    by_cases dot : n = Path.dot
    · rw [climb, if_pos dot] at ok
      exact ih trail later ok
    by_cases dots : n = Path.dotDot
    · rw [climb, if_neg dot, if_pos dots] at ok
      exact ih (fun e mem => trail e (List.mem_of_mem_tail mem)) later ok
    obtain ⟨_, i, _, ⟨target, node, rfl⟩ | ⟨_, _, on⟩⟩ := climbExact ⟨dot, dots⟩ ok
    · exact ⟨trail, legible.links node, later⟩
    · refine ih (fun e mem => ?_) later on
      rcases List.mem_cons.mp mem with rfl | above
      · exact names n List.mem_cons_self
      · exact trail e above

theorem ascendClean (legible : fs.Legible) {links : Nat} {t top : Trail} {ns : List Name}
    (trail : ∀ e ∈ t, 0 ∉ e.1) (names : ∀ n ∈ ns, 0 ∉ n) (ok : fs.ascend links t ns = .ok top) :
    ∀ e ∈ top, 0 ∉ e.1 := by
  have arrives := ascended ok
  clear ok
  induction arrives with
  | done way => exact climbClean legible trail names way
  | link way _ ih =>
    obtain ⟨before, aim, after⟩ := climbClean legible trail names way
    refine ih ?_ fun n mem => (List.mem_append.mp mem).elim (Path.stepsNoNul aim n) (after n)
    split
    · exact fun _ mem => absurd mem List.not_mem_nil
    · exact before

theorem pathNoNul {t : Trail} (names : ∀ e ∈ t, 0 ∉ e.1) : 0 ∉ t.path := by
  induction t with
  | nil => decide
  | cons e t ih =>
    obtain ⟨n, i⟩ := e
    have above := ih fun e mem => names e (List.mem_cons_of_mem _ mem)
    rw [pathStep]
    intro nul
    rcases List.mem_append.mp nul with before | after
    · split at before
      · cases before
      · exact above before
    · rcases List.mem_cons.mp after with slash | within
      · exact absurd slash (by decide)
      · exact names (n, i) List.mem_cons_self within

theorem canonicalNoNul (tidy : fs.Tidy) (upright : fs.Upright) (legible : fs.Legible) {p q : Path}
    (noNul : 0 ∉ p) (canonical : fs.canonical p = .ok q) : 0 ∉ q := by
  obtain ⟨t, top, starts, reached, rfl⟩ := canonicalExact canonical
  have linked := (trailStarts tidy upright.plain starts).1
  exact pathNoNul (ascendClean legible (fun e mem => (linked.legible legible e mem).2)
    (Path.stepsNoNul noNul) reached)

theorem Linked.here (upright : fs.Upright) {t : Trail} (linked : fs.Linked t)
    (dir : fs.isDir (t.node fs) = true) : fs.isGone (t.node fs) = false := by
  obtain ⟨es, up, m, node⟩ := isDirExact dir
  rw [goneExact node]
  cases linked with
  | root => exact Or.inl rfl
  | step above plain entry _ =>
    obtain ⟨above, up', m', node', found⟩ := entryNode entry
    cases upright.below entry node
    exact Or.inr ⟨above, up', m', node', _, Table.memOfGet found, rfl⟩

theorem Linked.onward (upright : fs.Upright) (legible : fs.Legible) {t : Trail} (linked : fs.Linked t)
    (search : ∀ i ∈ fs.root :: t.map (·.2), fs.permits i .search = true) {ns : List Name} {halt : Halt}
    (some' : ns ≠ []) (way : fs.Advanced false (t.node fs) ns halt) :
    fs.Advanced false fs.root ((t.map (·.1)).reverse ++ ns) halt := by
  induction linked generalizing ns with
  | root => exact way
  | @step t n i up plain entry dir ih =>
    obtain ⟨es, above, m, node, _⟩ := entryNode entry
    have here := up.here upright (isDirOf node)
    have may : fs.permits (t.node fs) .search = true := by
      cases up with
      | root => exact search _ List.mem_cons_self
      | step => exact search _ (by simp [Trail.node])
    have short := (legible.dirs entry dir).1
    have child := childOf n (isDirOf node) may here short
    rw [entry] at child
    rw [List.map_cons, List.reverse_cons, List.append_assoc, List.singleton_append]
    refine ih (fun j mem => search j ?_) (List.cons_ne_nil n ns)
      (.down (parentOf node may) (Home.ordinary plain) child (dirNotLink dir) some' way)
    rcases List.mem_cons.mp mem with rfl | on
    · exact List.mem_cons_self
    · exact List.mem_cons_of_mem _ (List.mem_cons_of_mem _ on)

theorem lookupAlong (upright : fs.Upright) (legible : fs.Legible) {t : Trail} {n : Name} {i : Ino}
    (linked : fs.Linked t) (plain : Plain n) (within : t.lengthWith n < Limits.pathMax)
    (along : fs.childAlong t n = .ok (some i)) (notLink : fs.isLink i = false) :
    fs.lookup (Trail.path ((n, i) :: t)) = .ok i := by
  obtain ⟨asked, child⟩ := childAlongExact along
  obtain ⟨dir, may, here, short, entry⟩ := childExact child
  obtain ⟨es, above, m, node⟩ := isDirExact dir
  have search : ∀ j ∈ fs.root :: t.map (·.2), fs.permits j .search = true := by
    have granted : ∀ {j}, fs.demand j .search = .ok () → fs.permits j .search = true := by
      intro j ok
      unfold demand at ok
      split at ok
      · assumption
      · cases ok
    cases t with
    | nil =>
      intro j mem
      cases List.mem_singleton.mp mem
      exact may
    | cons e t =>
      intro j mem
      rcases List.mem_cons.mp mem with rfl | on
      · exact granted (asked (List.cons_ne_nil e t) _ List.mem_cons_self)
      · rcases List.mem_cons.mp on with rfl | further
        · exact may
        · exact granted (asked (List.cons_ne_nil e t) j (List.mem_cons_of_mem _ further))
  have last : fs.Advanced false (t.node fs) [n] (.arrived (.entry (t.node fs) n i)) :=
    .last (parentOf node may) (Home.ordinary plain) rfl child notLink
  have way := linked.onward upright legible search (List.cons_ne_nil n []) last
  have names := (Traced.last linked plain within along notLink).names
  rw [List.map_cons, List.reverse_cons] at names
  rw [← names] at way
  have short' : checkLength (Trail.path ((n, i) :: t)) = .ok () :=
    checkFits (pathNonempty _) (by rw [pathLength]; exact within)
  have walked : fs.Walked .always Limits.linkMax fs.root (Trail.path ((n, i) :: t)).names false
      ⟨.entry (t.node fs) n i, false⟩ := .arrived way
  rw [lookup, locateOf .always short', startOf, pathAbsolute, if_pos rfl, pathNoClosing t plain, walked.ok]
  rfl

theorem canonicalOpens (tidy : fs.Tidy) (upright : fs.Upright) (legible : fs.Legible)
    (root : fs.isDir fs.root = true) {p q : Path} {i : Ino} {b : Bytes} {m : Nat} (led : fs.lookup p = .ok i)
    (file : fs.node? i = some (.file b m)) (readable : (Node.file b m).permits .read = true)
    (canonical : Files.canonical fs p = .ok q) : Files.openReadOnly fs q = .ok i := by
  obtain ⟨_, allowed, canonical⟩ := bindOk canonical
  obtain ⟨place, found, there, _⟩ := lookupExact led
  obtain ⟨top, rfl, ends, traced⟩ := canonicalTraced tidy upright canonical found
  have outer := (notInner (fileNotInner file)).1
  have noNul := canonicalNoNul tidy upright legible (Path.noneForbidden allowed) canonical
  rw [there] at ends
  rw [Files.openReadOnly, Path.forbidNone _ noNul]
  cases traced with
  | inside linked =>
    -- A trail of directories does not end at a file.
    have dir : fs.isDir (top.node fs) = true := by
      cases linked with
      | root => exact root
      | step up plain entry dir => exact dir
    cases ends
    cases outer.symm.trans dir
  | last up plain within along notLink =>
    cases ends
    refine openReadOf (lookupAlong upright legible up plain within along notLink) ?_
    rw [demand, permits, file]
    exact if_pos readable

end Fs
end AtomicUpdate
