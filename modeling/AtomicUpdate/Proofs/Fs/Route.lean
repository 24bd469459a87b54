import AtomicUpdate.Proofs.Fs.Change
import AtomicUpdate.Proofs.Fs.Walk

/-! The entries that a lookup reads on its way. Changes of other entries do not notice it, be they
symbolic links or files: the lookup ends where it ended before. -/
namespace AtomicUpdate.Fs

def visits (fs : Fs) (d : Ino) : List Name → List (Ino × Name)
  | [] => []
  | n :: rest =>
      if n = Path.dot then fs.visits d rest
      else if n = Path.dotDot then
        match fs.parent d with
        | .ok up => fs.visits up rest
        | .error _ => []
      else (d, n) ::
        match fs.named? d n with
        | some i => if fs.isLink i then [] else fs.visits i rest
        | none => []

def walkVisits (fs : Fs) : Nat → Ino → List Name → List (Ino × Name)
  | 0, d, names => fs.visits d names
  | links + 1, d, names =>
      fs.visits d names ++
        match fs.advance false d names with
        | .ok (.link dir _ _ target rest) =>
            fs.walkVisits links (fs.startOf dir target) (target.names ++ rest)
        | _ => []

def route (fs : Fs) (p : Path) : List (Ino × Name) :=
  fs.walkVisits Limits.linkMax (fs.startOf fs.cwd p) p.names

structure Retains (touched : Ino → Name → Prop) (fs fs' : Fs) : Prop where
  root : fs'.root = fs.root
  cwd : fs'.cwd = fs.cwd
  dirs : ∀ {d es up m}, fs.node? d = some (.dir es up m) →
    ∃ es', fs'.node? d = some (.dir es' up m) ∧
      ∀ n i, es.get? n = some i → ¬ touched d n → es'.get? n = some i
  links : ∀ {i t}, fs.node? i = some (.link t) → fs'.node? i = some (.link t)
  others : ∀ {i}, i < fs.nodes.size → fs.isInner i = false → fs'.isInner i = false
  here : ∀ {d n i}, fs.isGone d = false → fs.named? d n = some i → ¬ touched d n →
    fs'.isGone d = false
  more : fs.nodes.size ≤ fs'.nodes.size

variable {touched : Ino → Name → Prop} {fs fs' fs'' : Fs}

namespace Retains

theorem refl (touched : Ino → Name → Prop) (fs : Fs) : Retains touched fs fs where
  root := rfl
  cwd := rfl
  dirs := fun node => ⟨_, node, fun _ _ entry _ => entry⟩
  links := fun node => node
  others := fun _ outer => outer
  here := fun here _ _ => here
  more := Nat.le_refl _

theorem dir (retains : Retains touched fs fs') {d : Ino} (dir : fs.isDir d = true) :
    fs'.isDir d = true := by
  obtain ⟨es, up, m, node⟩ := isDirExact dir
  obtain ⟨es', node', _⟩ := retains.dirs node
  exact isDirOf node'

theorem entry (retains : Retains touched fs fs') {d i : Ino} {n : Name}
    (entry : fs.named? d n = some i) (free : ¬ touched d n) : fs'.named? d n = some i := by
  obtain ⟨es, up, m, node, found⟩ := entryNode entry
  obtain ⟨es', node', stays⟩ := retains.dirs node
  rw [entryOf node']
  exact stays n i found free

theorem trans (first : Retains touched fs fs') (second : Retains touched fs' fs'') :
    Retains touched fs fs'' where
  root := second.root.trans first.root
  cwd := second.cwd.trans first.cwd
  dirs := by
    intro d es up m node
    obtain ⟨es', node', stays⟩ := first.dirs node
    obtain ⟨es'', node'', stays'⟩ := second.dirs node'
    exact ⟨es'', node'', fun n i entry free => stays' n i (stays n i entry free) free⟩
  links := fun node => second.links (first.links node)
  others := fun bound outer =>
    second.others (Nat.lt_of_lt_of_le bound first.more) (first.others bound outer)
  here := fun here entry free =>
    second.here (first.here here entry free) (first.entry entry free) free
  more := Nat.le_trans first.more second.more

theorem ofKeeps (tidy : fs.Tidy) (keeps : Keeps (fun i => i < fs.nodes.size) fs fs')
    (more : fs.nodes.size ≤ fs'.nodes.size) : Retains touched fs fs' where
  root := keeps.root
  cwd := keeps.cwd
  dirs := by
    intro d es up m node
    obtain ⟨es', node', covers⟩ := keeps.dirs node
    exact ⟨es', node', fun n i entry _ =>
      covers.entry entry (Or.inr (tidy.bound node (Table.memOfGet entry)))⟩
  links := keeps.links
  others := keeps.others
  here := by
    intro d n i here entry _
    obtain ⟨es, up, m, node, _⟩ := entryNode entry
    exact keeps.here (isDirOf node) here
  more := more

theorem parent (retains : Retains touched fs fs') {d up : Ino} (ok : fs.parent d = .ok up) :
    fs'.parent d = .ok up := by
  obtain ⟨es, m, node, search⟩ := parentExact ok
  obtain ⟨es', node', _⟩ := retains.dirs node
  refine parentOf node' ?_
  rw [Fs.permits, node] at search
  rw [Fs.permits, node']
  exact search

theorem child (retains : Retains touched fs fs') {d i : Ino} {n : Name}
    (ok : fs.child d n = .ok (some i)) (free : ¬ touched d n) : fs'.child d n = .ok (some i) := by
  obtain ⟨dir, search, here, short, found⟩ := childExact ok
  obtain ⟨es, up, m, node⟩ := isDirExact dir
  obtain ⟨es', node', _⟩ := retains.dirs node
  have search' : fs'.permits d .search = true := by
    rw [Fs.permits, node] at search
    rw [Fs.permits, node']
    exact search
  rw [childOf n (isDirOf node') search' (retains.here here found free) short,
    retains.entry found free]

theorem notLink (retains : Retains touched fs fs') {i : Ino} (bound : i < fs.nodes.size)
    (notLink : fs.isLink i = false) : fs'.isLink i = false := by
  cases dir : fs.isDir i with
  | true =>
    obtain ⟨es, up, m, node⟩ := isDirExact dir
    obtain ⟨es', node', _⟩ := retains.dirs node
    rw [isLink, node']
  | false => exact (notInner (retains.others bound (by rw [isInner, dir, notLink]; rfl))).2

theorem updateDir {d : Ino} {change : Table Name Ino → Table Name Ino}
    (stays : ∀ {es up m}, fs.node? d = some (.dir es up m) →
      ∀ n i, es.get? n = some i → ¬ touched d n → (change es).get? n = some i)
    (listed : ∀ {es up m}, fs.node? d = some (.dir es up m) →
      ∀ c n i, fs.named? c n = some i → ¬ touched c n → Lists es c → Lists (change es) c) :
    Retains touched fs (fs.updateDir d change) where
  root := (rootUpdateDir fs d change).1
  cwd := (rootUpdateDir fs d change).2
  dirs := by
    intro e es up m node
    rw [nodeUpdateDir]
    by_cases same : e = d
    · subst same
      rw [if_pos rfl, node]
      exact ⟨change es, rfl, stays node⟩
    · rw [if_neg same]
      exact ⟨es, node, fun _ _ entry _ => entry⟩
  links := by
    intro i t node
    rw [nodeUpdateDir]
    split
    · rename_i same
      rw [← same, node]
      rfl
    · exact node
  others := by
    intro i _ outer
    rw [isInner, isDirUpdateDir, isLinkUpdateDir]
    exact outer
  here := by
    intro c n i here entry free
    obtain ⟨es, up, m, node, _⟩ := entryNode entry
    have dir : (fs.updateDir d change).isDir c = true := (isDirUpdateDir fs d c change).trans (isDirOf node)
    have same : ∀ {es' up' m'}, (fs.updateDir d change).node? c = some (.dir es' up' m') → up' = up := by
      intro es' up' m' node'
      rw [nodeUpdateDir] at node'
      split at node'
      · rename_i at'
        rw [← at', node] at node'
        cases node'
        rfl
      · rw [node] at node'
        cases node'
        rfl
    obtain ⟨es', up', m', node'⟩ := isDirExact dir
    cases same node'
    rw [goneExact node']
    rcases (goneExact node).mp here with root | ⟨above, up'', m'', above', lists⟩
    · exact Or.inl (root.trans (rootUpdateDir fs d change).1.symm)
    · right
      by_cases at' : up = d
      · subst at'
        exact ⟨change above, up'', m'', by rw [nodeUpdateDir, if_pos rfl, above']; rfl,
          listed above' c n i entry free lists⟩
      · exact ⟨above, up'', m'', by rw [nodeUpdateDir, if_neg at', above'], lists⟩
  more := Nat.le_of_eq (sizeUpdateDir fs d change).symm

theorem erase (tidy : fs.Tidy) {d i : Ino} {n : Name} (entry : fs.named? d n = some i)
    (outer : fs.isDir i = false) (may : touched d n) :
    Retains touched fs (fs.updateDir d (·.erase n)) := by
  refine updateDir ?_ ?_
  · intro es up m node k j found free
    have other : k ≠ n := fun same => free (same ▸ may)
    rw [Table.getErase, if_neg other, found]
  · intro es up m node c k j found _ lists
    refine lists.erase (tidy.keyed node) fun leads => ?_
    rw [← entryOf node, entry] at leads
    cases leads
    obtain ⟨_, _, _, node', _⟩ := entryNode found
    rw [isDirOf node'] at outer
    cases outer

theorem move (tidy : fs.Tidy) {d i : Ino} {old new : Name} (entry : fs.named? d old = some i)
    (empty : ∀ j, fs.named? d new = some j → fs.isDir j = true → fs.isEmptyDir j = true)
    (mayOld : touched d old) (mayNew : touched d new) :
    Retains touched fs (fs.updateDir d (fun es => supplant new i (es.erase old))) := by
  refine updateDir ?_ ?_
  · intro es up m node k j found free
    have notNew : k ≠ new := fun same => free (same ▸ mayNew)
    have notOld : k ≠ old := fun same => free (same ▸ mayOld)
    rw [supplant, Table.getSet, if_neg notNew, Table.getErase, if_neg notNew, Table.getErase,
      if_neg notOld, found]
  · intro es up m node c k j found _ lists
    by_cases moved : c = i
    · exact ⟨(new, i), Table.memOfGet (by rw [supplant, Table.getSet, if_pos rfl]), moved.symm⟩
    have keyed := Table.keyedErase (tidy.keyed node) old
    have first : Lists (es.erase old) c := by
      refine lists.erase (tidy.keyed node) fun leads => ?_
      rw [← entryOf node, entry] at leads
      exact moved (Option.some.inj leads).symm
    have second : Lists ((es.erase old).erase new) c := by
      refine first.erase keyed fun leads => ?_
      rw [Table.getErase] at leads
      split at leads
      · cases leads
      obtain ⟨inside, _, _, node', leads'⟩ := entryNode found
      have hollow := empty c ((entryOf node new).trans leads) (isDirOf node')
      rw [isEmptyDir, node'] at hollow
      have nothing : inside.entries = [] := by simpa [Table.isEmpty] using hollow
      have present := Table.memOfGet leads'
      rw [nothing] at present
      cases present
    exact second.set (Table.getErased _ new) i

end Retains

theorem visitsHead {d : Ino} {n : Name} (ordinary : Ordinary n) (rest : List Name) :
    fs.visits d (n :: rest) = (d, n) :: match fs.named? d n with
      | some i => if fs.isLink i then [] else fs.visits i rest
      | none => [] := by
  rw [visits, if_neg ordinary.1, if_neg ordinary.2]

theorem visitsDown {d i : Ino} {n : Name} {rest : List Name} (ordinary : Ordinary n)
    (child : fs.child d n = .ok (some i)) (plain : fs.isLink i = false) :
    fs.visits d (n :: rest) = (d, n) :: fs.visits i rest := by
  rw [visitsHead ordinary, (childExact child).2.2.2.2]
  dsimp only
  rw [plain, if_neg Bool.false_ne_true]

def Halt.Occupied : Halt → Prop
  | .arrived spot => spot.ino?.isSome = true
  | .link .. => True

theorem Advanced.retained (tidy : fs.Tidy) (retains : Retains touched fs fs') {refuse : Bool} {d : Ino}
    {ns : List Name} {halt : Halt} (way : fs.Advanced refuse d ns halt) (occupied : Halt.Occupied halt)
    (free : ∀ v ∈ fs.visits d ns, ¬ touched v.1 v.2) : fs'.Advanced refuse d ns halt := by
  induction way with
  | here d => exact .here d
  | stay parent more ih => exact .stay (retains.parent parent) (ih occupied free)
  | @up d up rest halt parent more ih =>
    refine .up (retains.parent parent) (ih occupied ?_)
    rw [visits, if_neg (by decide), if_pos rfl, parent] at free
    exact free
  | vacant parent ordinary allowed child => cases occupied
  | link parent ordinary allowed child node =>
    rw [visitsHead ordinary] at free
    exact .link (retains.parent parent) ordinary allowed
      (retains.child child (free _ List.mem_cons_self)) (retains.links node)
  | last parent ordinary allowed child plain =>
    rw [visitsHead ordinary] at free
    have bound := tidy.entryBound (childExact child).2.2.2.2
    exact .last (retains.parent parent) ordinary allowed
      (retains.child child (free _ List.mem_cons_self)) (retains.notLink bound plain)
  | down parent ordinary child plain some' more ih =>
    rw [visitsDown ordinary child plain] at free
    have bound := tidy.entryBound (childExact child).2.2.2.2
    exact .down (retains.parent parent) ordinary (retains.child child (free _ List.mem_cons_self))
      (retains.notLink bound plain) some' (ih occupied fun v mem => free v (List.mem_cons_of_mem _ mem))

theorem Advanced.lenient {refuse : Bool} {d : Ino} {ns : List Name} {halt : Halt}
    (way : fs.Advanced refuse d ns halt) : fs.Advanced false d ns halt := by
  induction way with
  | here d => exact .here d
  | stay parent more ih => exact .stay parent ih
  | up parent more ih => exact .up parent ih
  | vacant parent ordinary allowed child => exact .vacant parent ordinary rfl child
  | link parent ordinary allowed child node => exact .link parent ordinary rfl child node
  | last parent ordinary allowed child plain => exact .last parent ordinary rfl child plain
  | down parent ordinary child plain some' more ih => exact .down parent ordinary child plain some' ih

theorem Walked.retained (tidy : fs.Tidy) (retains : Retains touched fs fs') {follow : Follow}
    {links : Nat} {d : Ino} {ns : List Name} {slash : Bool} {place : Place}
    (walked : fs.Walked follow links d ns slash place) (occupied : place.spot.ino?.isSome = true)
    (free : ∀ v ∈ fs.walkVisits links d ns, ¬ touched v.1 v.2) :
    fs'.Walked follow links d ns slash place := by
  have first : ∀ {links d ns}, (∀ v ∈ fs.walkVisits links d ns, ¬ touched v.1 v.2) →
      ∀ v ∈ fs.visits d ns, ¬ touched v.1 v.2 := by
    intro links d ns free v mem
    cases links with
    | zero => exact free v mem
    | succ links => exact free v (by rw [walkVisits]; exact List.mem_append_left _ mem)
  induction walked with
  | arrived way => exact .arrived (way.retained tidy retains occupied (first free))
  | stopped way stops => exact .stopped (way.retained tidy retains trivial (first free)) stops
  | @onward links d ns slash dir n i target rest place way goes more ih =>
    have start : fs'.startOf dir target = fs.startOf dir target := by
      rw [startOf, startOf, retains.root]
    refine .onward (way.retained tidy retains trivial (first free)) goes (start ▸ ih occupied ?_)
    rw [walkVisits, way.lenient.ok] at free
    exact fun v mem => free v (List.mem_append_right _ mem)

theorem locateRetained (tidy : fs.Tidy) (retains : Retains touched fs fs') {follow : Follow} {p : Path}
    {place : Place} (ok : fs.locate follow p = .ok place) (occupied : place.spot.ino?.isSome = true)
    (free : ∀ v ∈ fs.route p, ¬ touched v.1 v.2) : fs'.locate follow p = .ok place := by
  obtain ⟨short, way⟩ := locateExact ok
  rw [locateOf follow short, retains.cwd, startOf, retains.root]
  exact ((walked way).retained tidy retains occupied free).ok

end AtomicUpdate.Fs
