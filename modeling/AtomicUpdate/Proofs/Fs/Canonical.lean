import AtomicUpdate.Fs.Canonical
import AtomicUpdate.Proofs.Fs.Change
import AtomicUpdate.Proofs.Fs.Home

/-! The canonical path of a name in a directory that has one itself: the directory's, a slash and the
name. It stays so as long as the entries that lead to directories stay where they are. -/
namespace AtomicUpdate
namespace Fs
open Path (Plain)

variable {spared : Ino → Prop} {fs fs' : Fs}

inductive Linked (fs : Fs) : Trail → Prop where
  | root : Linked fs []
  | step {t n i} (up : Linked fs t) (plain : Plain n) (entry : fs.named? (t.node fs) n = some i)
      (dir : fs.isDir i = true) : Linked fs ((n, i) :: t)

theorem Linked.tail {t : Trail} (linked : fs.Linked t) : fs.Linked t.tail := by
  cases linked with
  | root => exact .root
  | step up plain entry dir => exact up

theorem Linked.behind {t : Trail} (linked : fs.Linked t) (target : Path) :
    fs.Linked (if target.isAbsolute then [] else t) := by
  split
  · exact .root
  · exact linked

inductive Climbed (fs : Fs) : Trail → List Name → Climb → Prop where
  | done (t) : Climbed fs t [] (.done t)
  | stay {t ns c} (more : Climbed fs t ns c) : Climbed fs t (Path.dot :: ns) c
  | up {t ns c} (more : Climbed fs t.tail ns c) : Climbed fs t (Path.dotDot :: ns) c
  | link {t n i target} (ns) (ordinary : Ordinary n) (within : t.lengthWith n < Limits.pathMax)
      (child : fs.childAlong t n = .ok (some i)) (node : fs.node? i = some (.link target)) :
      Climbed fs t (n :: ns) (.link t target ns)
  | down {t n i ns c} (ordinary : Ordinary n) (within : t.lengthWith n < Limits.pathMax)
      (child : fs.childAlong t n = .ok (some i)) (dir : fs.isDir i = true)
      (more : Climbed fs ((n, i) :: t) ns c) : Climbed fs t (n :: ns) c

def Climb.onTo (more : List Name) : Climb → Climb
  | .done t => .done t
  | .link t target rest => .link t target (rest ++ more)

theorem askAll {ds : List Ino} {a : Access} :
    ds.forM (fs.demand · a) = .ok () ↔ ∀ i ∈ ds, fs.demand i a = .ok () := by
  induction ds with
  | nil => exact ⟨fun _ i mem => (by cases mem), fun _ => rfl⟩
  | cons d ds ih =>
    change (fs.demand d a >>= fun _ => ds.forM (fs.demand · a)) = .ok () ↔ _
    refine ⟨fun asked i mem => ?_, fun asked => ?_⟩
    · obtain ⟨u, first, rest⟩ := bindOk asked
      rcases List.mem_cons.mp mem with here | later
      · rw [here]
        exact first
      · exact ih.mp rest i later
    · rw [asked d List.mem_cons_self]
      exact ih.mpr fun i mem => asked i (List.mem_cons_of_mem d mem)

theorem childAlongExact {t : Trail} {n : Name} {found : Option Ino}
    (ok : fs.childAlong t n = .ok found) :
    (t ≠ [] → ∀ i ∈ fs.root :: t.tail.map (·.2), fs.demand i .search = .ok ()) ∧
      fs.child (t.node fs) n = .ok found := by
  cases t with
  | nil => exact ⟨fun some' => absurd rfl some', ok⟩
  | cons e t =>
    change ((fs.root :: t.map (·.2)).forM (fs.demand · .search) >>= fun _ => fs.child e.2 n) =
      .ok found at ok
    obtain ⟨u, asked, child⟩ := bindOk ok
    exact ⟨fun _ => askAll.mp asked, child⟩

theorem childAlongOf {t : Trail} (n : Name)
    (asked : t ≠ [] → ∀ i ∈ fs.root :: t.tail.map (·.2), fs.demand i .search = .ok ()) :
    fs.childAlong t n = fs.child (t.node fs) n := by
  cases t with
  | nil => rfl
  | cons e t =>
    have all : (fs.root :: t.map (·.2)).forM (fs.demand · .search) = .ok () :=
      askAll.mpr (asked (List.cons_ne_nil e t))
    change ((fs.root :: t.map (·.2)).forM (fs.demand · .search) >>= fun _ => fs.child e.2 n) = _
    rw [all]
    rfl

theorem climbOrdinary {t : Trail} {n : Name} {rest : List Name} (ordinary : Ordinary n)
    (within : t.lengthWith n < Limits.pathMax) :
    fs.climb t (n :: rest) = match fs.childAlong t n with
      | .error e => .error e
      | .ok none => .error .enoent
      | .ok (some i) =>
          match fs.node? i with
          | some (.link target) => .ok (.link t target rest)
          | _ =>
              if obliged rest && !fs.isDir i then .error .enotdir
              else fs.climb ((n, i) :: t) rest := by
  rw [climb]
  exact (if_neg ordinary.1).trans ((if_neg ordinary.2).trans (if_neg (Nat.not_le.mpr within)))

theorem climbDown {t : Trail} {n : Name} {i : Ino} {rest : List Name} (ordinary : Ordinary n)
    (within : t.lengthWith n < Limits.pathMax) (child : fs.childAlong t n = .ok (some i))
    (plain : fs.isLink i = false) (fits : (obliged rest && !fs.isDir i) = false) :
    fs.climb t (n :: rest) = fs.climb ((n, i) :: t) rest := by
  rw [climbOrdinary ordinary within, child]
  dsimp only
  split
  · rename_i node
    rw [isLinkOf node] at plain
    cases plain
  · rw [fits]
    rfl

theorem dirNotLink {i : Ino} (dir : fs.isDir i = true) : fs.isLink i = false := by
  obtain ⟨es, up, m, node⟩ := isDirExact dir
  rw [isLink, node]

theorem climbExact {t : Trail} {n : Name} {rest : List Name} {c : Climb} (ordinary : Ordinary n)
    (ok : fs.climb t (n :: rest) = .ok c) :
    t.lengthWith n < Limits.pathMax ∧ ∃ i, fs.childAlong t n = .ok (some i) ∧
      ((∃ target, fs.node? i = some (.link target) ∧ c = .link t target rest) ∨
        (fs.isLink i = false ∧ (obliged rest && !fs.isDir i) = false ∧
          fs.climb ((n, i) :: t) rest = .ok c)) := by
  by_cases within : t.lengthWith n < Limits.pathMax
  · rw [climbOrdinary ordinary within] at ok
    split at ok
    · cases ok
    · cases ok
    · rename_i i child
      refine ⟨within, i, child, ?_⟩
      split at ok
      · rename_i target node
        cases ok
        exact Or.inl ⟨target, node, rfl⟩
      · rename_i other
        split at ok
        · cases ok
        · rename_i fits
          have notLink : fs.isLink i = false := by
            cases link : fs.isLink i with
            | false => rfl
            | true =>
              obtain ⟨target, node⟩ := isLinkExact link
              exact absurd node (other target)
          exact Or.inr ⟨notLink, by simpa using fits, ok⟩
  · rw [climb, if_neg ordinary.1, if_neg ordinary.2, if_pos (Nat.not_lt.mp within)] at ok
    cases ok

theorem climbed {t : Trail} {ns : List Name} {c : Climb}
    (ok : fs.climb t (ns ++ [Path.dot]) = .ok c) :
    ∃ stop, fs.Climbed t ns stop ∧ c = Climb.onTo [Path.dot] stop := by
  induction ns generalizing t with
  | nil => cases ok; exact ⟨.done t, .done t, rfl⟩
  | cons n ns ih =>
    rw [List.cons_append] at ok
    by_cases dot : n = Path.dot
    · subst dot
      obtain ⟨stop, way, same⟩ := ih ok
      exact ⟨stop, .stay way, same⟩
    by_cases dotDot : n = Path.dotDot
    · subst dotDot
      rw [climb, if_neg (by decide), if_pos rfl] at ok
      obtain ⟨stop, way, same⟩ := ih ok
      exact ⟨stop, .up way, same⟩
    obtain ⟨within, i, child, ⟨target, node, rfl⟩ | ⟨_, fits, ok⟩⟩ := climbExact ⟨dot, dotDot⟩ ok
    · exact ⟨_, .link ns ⟨dot, dotDot⟩ within child node, rfl⟩
    obtain ⟨stop, way, same⟩ := ih ok
    have dir : fs.isDir i = true := by
      cases dir : fs.isDir i with
      | true => rfl
      | false =>
        rw [dir, Bool.not_false, Bool.and_true] at fits
        have none : ∀ m found, fs.childAlong ((n, i) :: t) m ≠ .ok found := by
          intro m found along
          have child := (childExact (childAlongExact along).2).1
          change fs.isDir i = true at child
          rw [dir] at child
          cases child
        have idle : ∀ {ns stop}, fs.Climbed ((n, i) :: t) ns stop →
            obliged (ns ++ [Path.dot]) = true := by
          intro ns
          induction ns with
          | nil => intro _ _; decide
          | cons m ms rest =>
            intro stop way
            cases way with
            | stay more =>
              have tail := rest more
              simp only [obliged, Bool.and_eq_true, List.cons_append] at tail ⊢
              exact ⟨rfl, tail.2⟩
            | up more => rfl
            | link _ ordinary within child node => exact absurd child (none m _)
            | down ordinary within child dir more => exact absurd child (none m _)
        rw [idle way] at fits
        cases fits
    exact ⟨stop, .down ⟨dot, dotDot⟩ within child dir way, same⟩

theorem Climbed.append {t : Trail} {ns : List Name} {c : Climb} (way : fs.Climbed t ns c)
    (more : List Name) :
    (∀ top, c = .done top → fs.climb t (ns ++ more) = fs.climb top more) ∧
      (∀ top target rest, c = .link top target rest →
        fs.climb t (ns ++ more) = .ok (.link top target (rest ++ more))) := by
  induction way with
  | done t =>
    refine ⟨fun top same => ?_, fun top target rest same => by cases same⟩
    cases same
    rfl
  | stay _ ih =>
    rw [List.cons_append, climb, if_pos rfl]
    exact ih
  | up _ ih =>
    rw [List.cons_append, climb, if_neg (by decide), if_pos rfl]
    exact ih
  | link ns ordinary within child node =>
    refine ⟨fun top same => (by cases same), fun top target rest same => ?_⟩
    cases same
    rw [List.cons_append, climbOrdinary ordinary within, child]
    dsimp only
    rw [node]
  | @down t n i ns c ordinary within child dir _ ih =>
    have fits : ∀ rest, (obliged rest && !fs.isDir i) = false := by
      intro rest
      rw [dir, Bool.not_true, Bool.and_false]
    rw [List.cons_append, climbDown ordinary within child (dirNotLink dir) (fits _)]
    exact ih

def Spelled (ns : List Name) : Prop := ∀ n ∈ ns, n ≠ [] ∧ Path.slash ∉ n

theorem spelledNames (p : Path) : Spelled p.names := by
  intro n mem
  rw [Path.names, List.mem_filter, decide_eq_true_eq] at mem
  exact ⟨mem.2, Path.segmentsNoSlash mem.1⟩

theorem spelledSteps (p : Path) : Spelled p.steps := by
  unfold Path.steps
  split
  · intro n mem
    rcases List.mem_append.mp mem with name | last
    · exact spelledNames p n name
    · rw [List.mem_singleton.mp last]
      decide
  · exact spelledNames p

theorem plainOf {n : Name} {ns : List Name} (spelled : Spelled (n :: ns)) (ordinary : Ordinary n) :
    Plain n :=
  ⟨(spelled n List.mem_cons_self).1, ordinary.1, ordinary.2, (spelled n List.mem_cons_self).2⟩

theorem spelledTail {n : Name} {ns : List Name} (spelled : Spelled (n :: ns)) : Spelled ns :=
  fun m mem => spelled m (List.mem_cons_of_mem n mem)

theorem Spelled.append {ns ms : List Name} (first : Spelled ns) (second : Spelled ms) : Spelled (ns ++ ms) :=
  fun n mem => (List.mem_append.mp mem).elim (first n) (second n)

def Climb.trail : Climb → Trail
  | .done t => t
  | .link t _ _ => t

def Climb.rest : Climb → List Name
  | .done _ => []
  | .link _ _ rest => rest

theorem Climbed.linked {t : Trail} {ns : List Name} {c : Climb} (way : fs.Climbed t ns c)
    (linked : fs.Linked t) (spelled : Spelled ns) :
    fs.Linked (Climb.trail c) ∧ Spelled (Climb.rest c) := by
  induction way with
  | done t => exact ⟨linked, spelled⟩
  | stay _ ih => exact ih linked (spelledTail spelled)
  | up _ ih => exact ih linked.tail (spelledTail spelled)
  | link ns ordinary within child node => exact ⟨linked, spelledTail spelled⟩
  | down ordinary within child dir _ ih =>
    have entry := (childExact (childAlongExact child).2).2.2.2.2
    exact ih (.step linked (plainOf spelled ordinary) entry dir) (spelledTail spelled)

theorem Linked.dirs {t : Trail} (linked : fs.Linked t) :
    (t ≠ [] → fs.isDir fs.root = true) ∧ ∀ e ∈ t, fs.isDir e.2 = true := by
  induction linked with
  | root => exact ⟨fun some' => absurd rfl some', fun e mem => by cases mem⟩
  | @step t n i up plain entry dir ih =>
    refine ⟨fun _ => ?_, fun e mem => ?_⟩
    · cases t with
      | nil =>
        obtain ⟨es, above, m, node, _⟩ := entryNode entry
        exact isDirOf node
      | cons e t => exact ih.1 (List.cons_ne_nil e t)
    · rcases List.mem_cons.mp mem with here | later
      · rw [here]
        exact dir
      · exact ih.2 e later

theorem Linked.onTrail {t : Trail} (linked : fs.Linked t) {i : Ino} (some' : t ≠ [])
    (mem : i ∈ fs.root :: t.tail.map (·.2)) : fs.isDir i = true := by
  rcases List.mem_cons.mp mem with root | later
  · rw [root]
    exact linked.dirs.1 some'
  · obtain ⟨e, inside, rfl⟩ := List.mem_map.mp later
    exact linked.dirs.2 e (List.mem_of_mem_tail inside)

theorem nodeKept (keeps : Keeps spared fs fs') (t : Trail) : t.node fs' = t.node fs := by
  cases t with
  | nil => exact keeps.root
  | cons e t => rfl

theorem childAlongKept (keeps : Keeps spared fs fs') {t : Trail} (linked : fs.Linked t) {n : Name}
    {i : Ino} (ok : fs.childAlong t n = .ok (some i)) (firm : fs.Firm spared i) :
    fs'.childAlong t n = .ok (some i) := by
  obtain ⟨asked, child⟩ := childAlongExact ok
  rw [childAlongOf, nodeKept keeps]
  · exact keeps.child child firm
  · intro some' j mem
    rw [keeps.root] at mem
    rw [keeps.demand (linked.onTrail some' mem)]
    exact asked some' j mem

theorem Climbed.kept (keeps : Keeps spared fs fs') {t : Trail} {ns : List Name} {c : Climb}
    (way : fs.Climbed t ns c) (linked : fs.Linked t) (spelled : Spelled ns) : fs'.Climbed t ns c := by
  induction way with
  | done t => exact .done t
  | stay _ ih => exact .stay (ih linked (spelledTail spelled))
  | up _ ih => exact .up (ih linked.tail (spelledTail spelled))
  | link ns ordinary within child node =>
    have inner : fs.Firm spared _ := Or.inl (by rw [isInner, isLinkOf node, Bool.or_true])
    exact .link ns ordinary within (childAlongKept keeps linked child inner) (keeps.links node)
  | down ordinary within child dir _ ih =>
    have inner : fs.Firm spared _ := Or.inl (by rw [isInner, dir, Bool.true_or])
    have entry := (childExact (childAlongExact child).2).2.2.2.2
    have further : fs.Linked _ := .step linked (plainOf spelled ordinary) entry dir
    exact .down ordinary within (childAlongKept keeps linked child inner) (keeps.dir dir)
      (ih further (spelledTail spelled))

inductive Ascended (fs : Fs) (top : Trail) : Nat → Trail → List Name → Prop where
  | done {links t ns} (way : fs.climb t ns = .ok (.done top)) : Ascended fs top links t ns
  | link {links t ns mid target rest} (way : fs.climb t ns = .ok (.link mid target rest))
      (more : Ascended fs top links (if target.isAbsolute then [] else mid) (target.steps ++ rest)) :
      Ascended fs top (links + 1) t ns

theorem ascended {links : Nat} {t top : Trail} {ns : List Name} (ok : fs.ascend links t ns = .ok top) :
    fs.Ascended top links t ns := by
  induction links using Nat.strongRecOn generalizing t ns with
  | ind links ih =>
    rw [ascend] at ok
    split at ok
    · cases ok
    · rename_i way
      cases ok
      exact .done way
    · rename_i way
      cases links with
      | zero => cases ok
      | succ links => exact .link way (ih links (Nat.lt_succ_self links) ok)

theorem ascendHome {links : Nat} {t top : Trail} {ns : List Name} (linked : fs.Linked t)
    (spelled : Spelled ns) (ok : fs.ascend links t (ns ++ [Path.dot]) = .ok top) :
    fs.Linked top ∧ ∃ left, ∀ {fs'}, Keeps spared fs fs' → ∀ n : Name,
      fs'.ascend links t (ns ++ [n]) = fs'.ascend left top [n] := by
  have arrives := ascended ok
  clear ok
  generalize names : ns ++ [Path.dot] = ms at arrives
  induction arrives generalizing ns with
  | @done links t _ found =>
    subst names
    obtain ⟨stop, way, same⟩ := climbed found
    cases stop with
    | link _ _ _ => cases same
    | done _ =>
      cases same
      refine ⟨(way.linked linked spelled).1, links, fun keeps n => ?_⟩
      rw [ascend, ((way.kept keeps linked spelled).append [n]).1 top rfl]
      conv => rhs; rw [ascend]
  | @link links t _ mid target _ found _ ih =>
    subst names
    obtain ⟨stop, way, same⟩ := climbed found
    cases stop with
    | done _ => cases same
    | link _ _ rest =>
      cases same
      have stopped := way.linked linked spelled
      obtain ⟨top', left, goes⟩ := ih (stopped.1.behind target) ((spelledSteps target).append stopped.2)
        (List.append_assoc _ _ _)
      refine ⟨top', left, fun keeps n => ?_⟩
      rw [ascend, ((way.kept keeps linked spelled).append [n]).2 mid target rest rfl]
      dsimp only
      rw [← List.append_assoc]
      exact goes keeps n

structure Traces (fs fs' : Fs) : Prop where
  root : fs'.root = fs.root
  dirs : ∀ {d es up m}, fs.node? d = some (.dir es up m) →
    ∃ es', fs'.node? d = some (.dir es' up m) ∧ ∀ {c e}, fs.isDir c = true →
      es.entries.find? (fun e => e.2 = c) = some e → es'.entries.find? (fun e => e.2 = c) = some e

theorem trailKept (traces : Traces fs fs') {k k' : Nat} {d : Ino} {t : Trail}
    (ok : fs.trailOf? k d = some t) (more : k ≤ k') : fs'.trailOf? k' d = some t := by
  induction k generalizing d t k' with
  | zero => cases ok
  | succ k ih =>
    obtain ⟨k', rfl⟩ : ∃ j, k' = j + 1 := ⟨k' - 1, by omega⟩
    unfold trailOf? at ok ⊢
    rw [traces.root]
    split at ok
    · rename_i top
      rw [if_pos top]
      exact ok
    · rename_i below
      rw [if_neg below]
      split at ok
      · rename_i es up m node
        obtain ⟨es', node', _⟩ := traces.dirs node
        rw [node']
        dsimp only at ok ⊢
        split at ok
        · rename_i above up' m' node''
          obtain ⟨above', kept, finds⟩ := traces.dirs node''
          rw [kept]
          dsimp only
          obtain ⟨e, found, rest⟩ := Option.bind_eq_some_iff.mp ok
          obtain ⟨upper, led, done⟩ := Option.bind_eq_some_iff.mp rest
          rw [finds (isDirOf node) found]
          change (fs'.trailOf? k' up >>= fun upper => some ((e.1, d) :: upper)) = some t
          rw [ih led (Nat.le_of_succ_le_succ more)]
          exact done
        · cases ok
      · cases ok

theorem trailLinked (tidy : fs.Tidy)
    (plain : ∀ {d n i}, fs.named? d n = some i → fs.isDir i = true → Plain n) {k : Nat} {d : Ino}
    {t : Trail} (ok : fs.trailOf? k d = some t) : fs.Linked t ∧ t.node fs = d := by
  induction k generalizing d t with
  | zero => cases ok
  | succ k ih =>
    unfold trailOf? at ok
    split at ok
    · rename_i top
      cases ok
      exact ⟨.root, top.symm⟩
    · split at ok
      · rename_i es up m node
        split at ok
        · rename_i above up' m' node'
          obtain ⟨e, found, rest⟩ := Option.bind_eq_some_iff.mp ok
          obtain ⟨upper, led, done⟩ := Option.bind_eq_some_iff.mp rest
          cases done
          obtain ⟨linked, here⟩ := ih led
          have mem := List.mem_of_find?_eq_some found
          have leads : e.2 = d := by simpa using List.find?_some found
          have entry : fs.named? (upper.node fs) e.1 = some d := by
            rw [here, entryOf node', ← leads]
            exact Table.getOfMem (tidy.keyed node') mem
          exact ⟨.step linked (plain entry (isDirOf node)) entry (isDirOf node), rfl⟩
        · cases ok
      · cases ok

theorem pathStep (t : Trail) (n : Name) (i : Ino) :
    Trail.path ((n, i) :: t) = (if t = [] then [] else t.path) ++ Path.slash :: n := by
  cases t <;> rfl

theorem pathNames {t : Trail} (linked : fs.Linked t) : t.path.names = (t.map (·.1)).reverse := by
  induction linked with
  | root => rfl
  | @step t n i up plain entry dir ih =>
    have before : Path.names (if t = [] then [] else t.path) = (t.map (·.1)).reverse := by
      split
      · rename_i none
        subst none
        rfl
      · exact ih
    rw [pathStep, Path.namesAppend, Path.namesPlain plain, before, List.map_cons, List.reverse_cons]

theorem pathAbsolute (t : Trail) : t.path.isAbsolute = true := by
  induction t with
  | nil => rfl
  | cons e t ih =>
    obtain ⟨n, i⟩ := e
    cases t with
    | nil => rfl
    | cons e t =>
      change Path.isAbsolute (Trail.path (e :: t) ++ Path.slash :: n) = true
      have nonempty : Trail.path (e :: t) ≠ [] := by
        intro none
        rw [none] at ih
        cases ih
      rw [Path.absoluteThrough nonempty]
      exact ih

theorem pathNonempty (t : Trail) : t.path ≠ [] := by
  intro none
  have absolute := pathAbsolute t
  rw [none] at absolute
  cases absolute

theorem pathNoClosing (t : Trail) {n : Name} (plain : Plain n) (i : Ino) :
    Path.endsInSlash (Trail.path ((n, i) :: t)) = false := by
  rw [pathStep, ← List.singleton_append, ← List.append_assoc]
  exact Path.plainNoClosing plain

theorem lastChild {d i : Ino} {n : Name} (plain : Plain n) (entry : fs.named? d n = some i) {halt : Halt}
    (ok : fs.advance false d [n] = .ok halt) : fs.child d n = .ok (some i) := by
  obtain ⟨found, child, _⟩ := (advanced ok).single (Home.ordinary plain)
  rw [child, ← (childExact child).2.2.2.2, entry]

theorem lastName {d i : Ino} {n : Name} (plain : Plain n) (entry : fs.named? d n = some i)
    (notLink : fs.isLink i = false) {halt : Halt} (ok : fs.advance false d [n] = .ok halt) :
    halt = .arrived (.entry d n i) ∧ fs.demand d .search = .ok () := by
  obtain ⟨found, child, ends⟩ := (advanced ok).single (Home.ordinary plain)
  have asked : fs.demand d .search = .ok () := by rw [demand, if_pos (childExact child).2.1]
  have named := child.symm.trans (lastChild plain entry ok)
  cases named
  rcases ends with ⟨none, _⟩ | ⟨j, same, ⟨_, rfl⟩ | ⟨target, node, rfl⟩⟩
  · cases none
  · cases same
    exact ⟨rfl, asked⟩
  · cases same
    rw [isLinkOf node] at notLink
    cases notLink

theorem advanceOnward {d e : Ino} {ns more : List Name} {halt : Halt}
    (led : ∀ {halt}, fs.advance false e ns = .ok halt → ∃ spot, halt = .arrived spot ∧
      spot.ino? = some d) (some' : more ≠ []) (ok : fs.advance false e (ns ++ more) = .ok halt) :
    (∃ halt, fs.advance false e ns = .ok halt) ∧ fs.advance false d more = .ok halt := by
  rcases advanceSplit some' ok with ⟨spot, i, way, there, isDir⟩ | ⟨_, _, _, _, _, way, _⟩
  · obtain ⟨spot', same, here⟩ := led way
    cases same
    have same : i = d := Option.some.inj (there.symm.trans here)
    subst same
    rw [((advanced way).append false some').1 spot _ rfl there isDir] at ok
    exact ⟨⟨_, way⟩, ok⟩
  · obtain ⟨spot, same, _⟩ := led way
    cases same

theorem advanceTrail {t : Trail} (linked : fs.Linked t) {halt : Halt}
    (ok : fs.advance false fs.root (t.map (·.1)).reverse = .ok halt) :
    (∃ spot, halt = .arrived spot ∧ spot.ino? = some (t.node fs)) ∧
      (t ≠ [] → ∀ i ∈ fs.root :: t.tail.map (·.2), fs.demand i .search = .ok ()) := by
  induction linked generalizing halt with
  | root =>
    cases ok
    exact ⟨⟨_, rfl, rfl⟩, fun some' => absurd rfl some'⟩
  | @step t n i up plain entry dir ih =>
    rw [List.map_cons, List.reverse_cons] at ok
    obtain ⟨⟨_, led⟩, last⟩ := advanceOnward (fun led => (ih led).1) (List.cons_ne_nil n []) ok
    obtain ⟨rfl, search⟩ := lastName plain entry (dirNotLink dir) last
    refine ⟨⟨_, rfl, rfl⟩, fun _ j mem => ?_⟩
    have asked := (ih led).2
    change j ∈ fs.root :: t.map (·.2) at mem
    cases t with
    | nil =>
      rw [List.mem_singleton.mp mem]
      exact search
    | cons e t =>
      rcases List.mem_cons.mp mem with root | later
      · exact asked (List.cons_ne_nil e t) j (root ▸ List.mem_cons_self)
      · rcases List.mem_cons.mp later with here | after
        · rw [here]
          exact search
        · exact asked (List.cons_ne_nil e t) j (List.mem_cons_of_mem _ after)

theorem lookupNames {t : Trail} (names : t.path.names = (t.map (·.1)).reverse) {d : Ino}
    (ok : fs.lookup t.path = .ok d) : t.path.length < Limits.pathMax ∧
      ∃ halt, fs.advance false fs.root (t.map (·.1)).reverse = .ok halt ∧
        ∀ spot, halt = .arrived spot → spot.ino? = some d := by
  obtain ⟨place, found, there, _⟩ := lookupExact ok
  obtain ⟨fits, goes⟩ := locateExact found
  refine ⟨Path.lengthFits fits, ?_⟩
  rw [names, startOf, pathAbsolute, if_pos rfl, walk, Follow.always, Bool.false_and] at goes
  cases way : fs.advance false fs.root (t.map (·.1)).reverse with
  | error e => rw [way] at goes; cases goes
  | ok halt =>
    refine ⟨halt, rfl, ?_⟩
    rintro spot rfl
    rw [way] at goes
    cases goes
    exact there

theorem lookupTrail {t : Trail} (linked : fs.Linked t) {d : Ino} (ok : fs.lookup t.path = .ok d) :
    t.node fs = d ∧
      (t ≠ [] → ∀ i ∈ fs.root :: t.tail.map (·.2), fs.demand i .search = .ok ()) := by
  obtain ⟨_, halt, way, ends⟩ := lookupNames (pathNames linked) ok
  obtain ⟨⟨spot, same, here⟩, asked⟩ := advanceTrail linked way
  exact ⟨Option.some.inj (here.symm.trans (ends spot same)), asked⟩

end Fs
end AtomicUpdate
