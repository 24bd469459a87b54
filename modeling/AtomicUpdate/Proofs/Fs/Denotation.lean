import AtomicUpdate.Proofs.Fs.Resolved

/-! What a path denotes in a tree, whoever asks and however long it is. Where a lookup succeeds it has found
what the path denotes. Dots at the end of a path of a directory denote nothing more, and all that a lookup can
hold against them is the length that they add and that they are names to be looked up. -/
namespace AtomicUpdate
namespace Fs

inductive Leads (fs : Fs) : Ino → List Name → Ino → Prop where
  | here (d) : Leads fs d [] d
  | stay {d ns j} (dir : fs.isDir d = true) (more : Leads fs d ns j) : Leads fs d (Path.dot :: ns) j
  | up {d es up m ns j} (node : fs.node? d = some (.dir es up m)) (more : Leads fs up ns j) :
      Leads fs d (Path.dotDot :: ns) j
  | down {d n i ns j} (ordinary : Ordinary n) (entry : fs.named? d n = some i) (notLink : fs.isLink i = false)
      (more : Leads fs i ns j) : Leads fs d (n :: ns) j
  | link {d n i target ns j} (ordinary : Ordinary n) (entry : fs.named? d n = some i)
      (node : fs.node? i = some (.link target))
      (more : Leads fs (fs.startOf d target) (target.names ++ ns) j) : Leads fs d (n :: ns) j

def Denotes (fs : Fs) (p : Path) (i : Ino) : Prop := fs.Leads (fs.startOf fs.cwd p) p.names i

variable {fs : Fs} {d e i j : Ino} {n : Name} {ns more : List Name} {k : Nat}

namespace Leads

theorem unique (first : fs.Leads d ns i) (second : fs.Leads d ns j) : i = j := by
  induction first generalizing j with
  | here d =>
    cases second
    rfl
  | stay dir more ih =>
    cases second with
    | stay _ more' => exact ih more'
    | down ordinary => exact absurd rfl ordinary.1
    | link ordinary => exact absurd rfl ordinary.1
  | up node more ih =>
    cases second with
    | up node' more' =>
      cases node.symm.trans node'
      exact ih more'
    | down ordinary => exact absurd rfl ordinary.2
    | link ordinary => exact absurd rfl ordinary.2
  | down ordinary entry notLink more ih =>
    cases second with
    | stay => exact absurd rfl ordinary.1
    | up => exact absurd rfl ordinary.2
    | down _ entry' _ more' =>
      cases entry.symm.trans entry'
      exact ih more'
    | link _ entry' node' =>
      cases entry.symm.trans entry'
      cases notLink.symm.trans (isLinkOf node')
  | link ordinary entry node more ih =>
    cases second with
    | stay => exact absurd rfl ordinary.1
    | up => exact absurd rfl ordinary.2
    | down _ entry' notLink' =>
      cases entry.symm.trans entry'
      cases notLink'.symm.trans (isLinkOf node)
    | link _ entry' node' more' =>
      cases entry.symm.trans entry'
      cases node.symm.trans node'
      exact ih more'

theorem append (first : fs.Leads d ns i) (second : fs.Leads i more j) : fs.Leads d (ns ++ more) j := by
  induction first with
  | here d => exact second
  | stay dir _ ih => exact .stay dir (ih second)
  | up node _ ih => exact .up node (ih second)
  | down ordinary entry notLink _ ih => exact .down ordinary entry notLink (ih second)
  | link ordinary entry node _ ih =>
    have on := ih second
    rw [List.append_assoc] at on
    exact .link ordinary entry node on

theorem split (whole : fs.Leads d (ns ++ more) j) : ∃ i, fs.Leads d ns i ∧ fs.Leads i more j := by
  generalize same : ns ++ more = names at whole
  -- A link puts names in front of those that are left, so the first part changes on the way.
  induction whole generalizing ns with
  | here d =>
    obtain ⟨rfl, rfl⟩ := List.append_eq_nil_iff.mp same
    exact ⟨d, .here d, .here d⟩
  | @stay d ms j dir rest ih =>
    cases ns with
    | nil =>
      obtain rfl : more = _ := same
      exact ⟨d, .here d, .stay dir rest⟩
    | cons n ns =>
      obtain ⟨rfl, tail⟩ := List.cons.inj same
      obtain ⟨i, first, second⟩ := ih tail
      exact ⟨i, .stay dir first, second⟩
  | @up d es up m ms j node rest ih =>
    cases ns with
    | nil =>
      obtain rfl : more = _ := same
      exact ⟨d, .here d, .up node rest⟩
    | cons n ns =>
      obtain ⟨rfl, tail⟩ := List.cons.inj same
      obtain ⟨i, first, second⟩ := ih tail
      exact ⟨i, .up node first, second⟩
  | @down d n' i ms j ordinary entry notLink rest ih =>
    cases ns with
    | nil =>
      obtain rfl : more = _ := same
      exact ⟨d, .here d, .down ordinary entry notLink rest⟩
    | cons n ns =>
      obtain ⟨rfl, tail⟩ := List.cons.inj same
      obtain ⟨i, first, second⟩ := ih tail
      exact ⟨i, .down ordinary entry notLink first, second⟩
  | @link d n' i target ms j ordinary entry node rest ih =>
    cases ns with
    | nil =>
      obtain rfl : more = _ := same
      exact ⟨d, .here d, .link ordinary entry node rest⟩
    | cons n ns =>
      obtain ⟨rfl, tail⟩ := List.cons.inj same
      obtain rfl : ns ++ more = _ := tail
      obtain ⟨i, first, second⟩ := ih (List.append_assoc ..)
      exact ⟨i, .link ordinary entry node first, second⟩

theorem dots (dir : fs.isDir d = true) (k : Nat) : fs.Leads d (List.replicate k Path.dot) d := by
  induction k with
  | zero => exact .here d
  | succ k ih => exact .stay dir ih

theorem ofDots (dotted : fs.Leads d (List.replicate k Path.dot) j) : j = d := by
  induction k with
  | zero =>
    cases dotted
    rfl
  | succ k ih =>
    cases dotted with
    | stay _ more => exact ih more
    | down ordinary => exact absurd rfl ordinary.1
    | link ordinary => exact absurd rfl ordinary.1

theorem undotted (dir : fs.isDir j = true) :
    fs.Leads d (ns ++ List.replicate k Path.dot) j ↔ fs.Leads d ns j := by
  constructor
  · intro whole
    obtain ⟨i, first, second⟩ := whole.split
    exact second.ofDots ▸ first
  · exact fun first => first.append (dots dir k)

end Leads

theorem Advanced.leads {refuse : Bool} {halt : Halt} (way : fs.Advanced refuse d ns halt) :
    (∀ spot i, halt = .arrived spot → spot.ino? = some i → fs.Leads d ns i) ∧
      (∀ dir n i target rest j, halt = .link dir n i target rest →
        fs.Leads (fs.startOf dir target) (target.names ++ rest) j → fs.Leads d ns j) := by
  induction way with
  | here d =>
    refine ⟨fun spot i same there => ?_, nofun⟩
    cases same
    cases there
    exact .here d
  | stay parent _ ih =>
    obtain ⟨_, _, node, _⟩ := parentExact parent
    exact ⟨fun spot i same there => .stay (isDirOf node) (ih.1 spot i same there),
      fun dir n i target rest j same on => .stay (isDirOf node) (ih.2 dir n i target rest j same on)⟩
  | up parent _ ih =>
    obtain ⟨_, _, node, _⟩ := parentExact parent
    exact ⟨fun spot i same there => .up node (ih.1 spot i same there),
      fun dir n i target rest j same on => .up node (ih.2 dir n i target rest j same on)⟩
  | vacant =>
    refine ⟨fun spot i same there => ?_, nofun⟩
    cases same
    cases there
  | link parent ordinary allowed child node =>
    refine ⟨nofun, fun dir n i target rest j same on => ?_⟩
    cases same
    exact .link ordinary (childExact child).2.2.2.2 node on
  | last parent ordinary allowed child plain =>
    refine ⟨fun spot i same there => ?_, nofun⟩
    cases same
    cases there
    exact .down ordinary (childExact child).2.2.2.2 plain (.here _)
  | down parent ordinary child plain _ _ ih =>
    have entry := (childExact child).2.2.2.2
    exact ⟨fun spot i same there => .down ordinary entry plain (ih.1 spot i same there),
      fun dir n i target rest j same on => .down ordinary entry plain (ih.2 dir n i target rest j same on)⟩

theorem Walked.leads {links : Nat} {slash : Bool} {place : Place}
    (walked : fs.Walked .always links d ns slash place) (there : place.spot.ino? = some i) : fs.Leads d ns i := by
  induction walked with
  | arrived way => exact way.leads.1 _ i rfl there
  | stopped way stops => cases stops
  | onward way goes more ih => exact way.leads.2 _ _ _ _ _ i rfl (ih there)

theorem lookupDenoted {p : Path} (found : fs.lookup p = .ok i) : fs.Denotes p j ↔ j = i := by
  obtain ⟨place, located, there, _⟩ := lookupExact found
  have leads : fs.Denotes p i := (walked (locateExact located).2).leads there
  constructor
  · exact fun other => other.unique leads
  · rintro rfl
    exact leads

/-- Causes for which a lookup can be refused though its path denotes something: a directory that may not be
searched or has been removed, a name or a path that is too long, too many links. -/
inductive Hindrance : Errno → Prop where
  | closed : Hindrance .eacces
  | removed : Hindrance .enoent
  | long : Hindrance .enametoolong
  | links : Hindrance .eloop

theorem parentAsks {es : Table Name Ino} {up : Ino} {m : Nat} (node : fs.node? d = some (.dir es up m)) :
    fs.parent d = if fs.permits d .search then .ok up else .error .eacces := by
  rw [Fs.parent, node]

theorem parentHindered {es : Table Name Ino} {up : Ino} {m : Nat} (node : fs.node? d = some (.dir es up m)) :
    fs.parent d = .ok up ∨ fs.parent d = .error .eacces := by
  rw [parentAsks node]
  split
  · exact Or.inl rfl
  · exact Or.inr rfl

theorem childHindered (entry : fs.named? d n = some i) :
    fs.child d n = .ok (some i) ∨ ∃ x, Hindrance x ∧ fs.child d n = .error x := by
  obtain ⟨es, up, m, node, found⟩ := entryNode entry
  unfold Fs.child
  rw [node]
  dsimp only
  split
  · exact Or.inr ⟨_, .closed, rfl⟩
  split
  · exact Or.inr ⟨_, .removed, rfl⟩
  split
  · exact Or.inr ⟨_, .long, rfl⟩
  · exact Or.inl (by rw [found])

theorem advanceClosed {refuse : Bool} {x : Errno} (closed : fs.parent d = .error x) :
    fs.advance refuse d (n :: ns) = .error x := by
  rw [advance, closed]

theorem entryHindered (ordinary : Ordinary n) (entry : fs.named? d n = some i) :
    (∃ up, fs.parent d = .ok up ∧ fs.child d n = .ok (some i)) ∨
      ∃ x, Hindrance x ∧ ∀ ns, fs.advance false d (n :: ns) = .error x := by
  obtain ⟨es, up, m, node, _⟩ := entryNode entry
  rcases parentHindered node with parent | closed
  · rcases childHindered entry with child | ⟨x, hindrance, refused⟩
    · exact Or.inl ⟨up, parent, child⟩
    · refine Or.inr ⟨x, hindrance, fun ns => ?_⟩
      rw [advanceName parent ordinary rfl, refused]
  · exact Or.inr ⟨_, .closed, fun ns => advanceClosed closed⟩

inductive Met (i : Ino) : Except Errno Place → Prop where
  | found {place : Place} (there : place.spot.ino? = some i) : Met i (.ok place)
  | hindered {x} (hindrance : Hindrance x) : Met i (.error x)

section
variable {links : Nat} {slash : Bool}

theorem walkOn (same : fs.advance false d ns = fs.advance false e more)
    (met : Met i (fs.walk .always links e more slash)) : Met i (fs.walk .always links d ns slash) := by
  have same' : fs.advance (Follow.always.creates && slash) d ns =
    fs.advance (Follow.always.creates && slash) e more := same
  unfold walk at met ⊢
  rwa [same']

theorem walkHindered {x : Errno} (hindrance : Hindrance x) (refused : fs.advance false d ns = .error x) :
    Met i (fs.walk .always links d ns slash) := by
  have refused' : fs.advance (Follow.always.creates && slash) d ns = .error x := refused
  unfold walk
  rw [refused']
  exact .hindered hindrance

end

theorem Leads.met (leads : fs.Leads d ns j) (links : Nat) (slash : Bool) :
    Met j (fs.walk .always links d ns slash) := by
  induction leads generalizing links slash with
  | here d =>
    have way : fs.Walked .always links d [] slash ⟨.top d, slash⟩ := .arrived (.here d)
    rw [way.ok]
    exact .found rfl
  | stay dir _ ih =>
    obtain ⟨es, up, m, node⟩ := isDirExact dir
    rcases parentHindered node with parent | closed
    · exact walkOn (advanceStay parent) (ih links slash)
    · exact walkHindered .closed (advanceClosed closed)
  | up node _ ih =>
    rcases parentHindered node with parent | closed
    · exact walkOn (advanceUp parent) (ih links slash)
    · exact walkHindered .closed (advanceClosed closed)
  | @down d n i ns j ordinary entry notLink more ih =>
    rcases entryHindered ordinary entry with ⟨up, parent, child⟩ | ⟨x, hindrance, refused⟩
    · by_cases last : ns = []
      · subst last
        cases more
        have way : fs.Walked .always links d [n] slash ⟨.entry d n i, slash⟩ :=
          .arrived (.last parent ordinary rfl child notLink)
        rw [way.ok]
        exact .found rfl
      · have on := advancePlain parent ordinary (rfl : (false && ns.isEmpty) = false) child notLink
        rw [if_neg last] at on
        exact walkOn on (ih links slash)
    · exact walkHindered hindrance (refused ns)
  | @link d n i target ns j ordinary entry node _ ih =>
    rcases entryHindered ordinary entry with ⟨up, parent, child⟩ | ⟨x, hindrance, refused⟩
    · have way : fs.Advanced (Follow.always.creates && slash) d (n :: ns) (.link d n i target ns) :=
        .link parent ordinary rfl child node
      have goes : ¬ (ns = [] ∧ Follow.always.through slash = false) := fun stops => Bool.noConfusion stops.2
      cases links with
      | zero =>
        rw [walk, way.ok]
        dsimp only
        rw [if_neg goes]
        exact .hindered .links
      | succ links =>
        rw [walk, way.ok]
        dsimp only
        rw [if_neg goes]
        exact ih links _
    · exact walkHindered hindrance (refused ns)

theorem denotedFound {p : Path} (some' : p ≠ []) (denoted : fs.Denotes p d) (dir : fs.isDir d = true) :
    fs.lookup p = .ok d ∨ ∃ x, Hindrance x ∧ fs.lookup p = .error x := by
  by_cases long : Limits.pathMax ≤ p.length
  · exact Or.inr ⟨_, .long, lookupLong some' long⟩
  · rw [lookup, locateOf .always (checkFits some' (Nat.lt_of_not_le long))]
    have met := Leads.met denoted Limits.linkMax p.endsInSlash
    generalize fs.walk .always Limits.linkMax (fs.startOf fs.cwd p) p.names p.endsInSlash = walk at met
    cases met with
    | found there => exact Or.inl (nodeAtDir there dir)
    | hindered hindrance => exact Or.inr ⟨_, hindrance, rfl⟩

theorem walkSearched {links : Nat} {slash : Bool} {place : Place}
    (ok : fs.walk .always links d (ns ++ [Path.dot]) slash = .ok place) (there : place.spot.ino? = some i) :
    fs.permits i .search = true := by
  obtain ⟨p, e, goes, led, dir⟩ := walkSplit (List.cons_ne_nil _ []) ok false
  obtain ⟨left, on⟩ := walkAppend goes led dir
  rw [on .always _ slash (List.cons_ne_nil _ [])] at ok
  unfold walk at ok
  cases way : fs.advance (Follow.always.creates && slash) e [Path.dot] with
  | error x => rw [way] at ok; cases ok
  | ok halt =>
    cases advanceDots (k := 1) way
    rw [way] at ok
    cases ok
    cases there
    cases advanced way with
    | stay parent _ =>
      obtain ⟨_, _, _, search⟩ := parentExact parent
      exact search
    | down _ ordinary => exact absurd rfl ordinary.1

theorem advanceDotted (refuse : Bool) (dir : fs.isDir d = true) (k : Nat) :
    fs.advance refuse d (List.replicate (k + 1) Path.dot) =
      if fs.permits d .search then .ok (.arrived (.top d)) else .error .eacces := by
  obtain ⟨es, up, m, node⟩ := isDirExact dir
  have asks := parentAsks node
  cases search : fs.permits d .search with
  | true =>
    rw [search, if_pos rfl] at asks
    rw [if_pos rfl]
    induction k with
    | zero => exact advanceStay asks
    | succ k ih => exact (advanceStay asks).trans ih
  | false =>
    rw [search, if_neg Bool.false_ne_true] at asks
    rw [if_neg Bool.false_ne_true]
    exact advanceClosed asks

end Fs

namespace Path

structure Padded (p q : Path) : Prop where
  nonempty : q ≠ []
  absolute : q.isAbsolute = p.isAbsolute
  names : ∃ k, q.names = p.names ++ List.replicate k dot

theorem folderPadded {pre n : Path} (ends : pre = [] ∨ ∃ a, pre = a ++ [slash]) (plain : Plain n) :
    Padded (folder (pre ++ n)) (Fs.ahead pre) := by
  rcases ends with rfl | ends
  · rw [List.nil_append, folderBare plain]
    exact ⟨by decide, rfl, 0, rfl⟩
  · obtain ⟨k, names, absolute⟩ := folderNames ends plain
    have some' : pre ≠ [] := by
      obtain ⟨a, rfl⟩ := ends
      exact List.concat_ne_nil _ a
    rw [Fs.ahead, if_neg some']
    exact ⟨some', absolute.symm, k, names⟩

end Path

namespace Fs
variable {fs : Fs} {d : Ino} {p q : Path}

theorem denotesPadded (padded : p.Padded q) (dir : fs.isDir d = true) : fs.Denotes p d ↔ fs.Denotes q d := by
  obtain ⟨k, names⟩ := padded.names
  rw [Denotes, Denotes, startOf, startOf, padded.absolute, names, Leads.undotted dir]

def paddedOutcome (fs : Fs) (q : Path) (d : Ino) : Except Errno Ino :=
  if Limits.pathMax ≤ q.length then .error .enametoolong
  else if q.names.getLast? = some Path.dot ∧ fs.permits d .search = false then .error .eacces
  else .ok d

theorem lookupPadded (padded : p.Padded q) (found : fs.lookup p = .ok d) (dir : fs.isDir d = true) :
    fs.lookup q = fs.paddedOutcome q d := by
  unfold paddedOutcome
  split
  · rename_i long
    exact lookupLong padded.nonempty long
  rename_i within
  have fits := checkFits padded.nonempty (Nat.lt_of_not_le within)
  obtain ⟨place, located, there, _⟩ := lookupExact found
  have goes := (locateExact located).2
  obtain ⟨k, names⟩ := padded.names
  have start : fs.startOf fs.cwd q = fs.startOf fs.cwd p := by rw [startOf, startOf, padded.absolute]
  rw [lookup, locateOf .always fits, start, names]
  cases k with
  | zero =>
    -- Nothing is added; if the first path ends in a dot, it has been looked up already.
    obtain ⟨place', goes', same⟩ := walkFlag goes q.endsInSlash
    rw [List.replicate_zero, List.append_nil, goes', if_neg]
    · exact nodeAtDir (same ▸ there) dir
    · rintro ⟨last, closed⟩
      obtain ⟨ms, shape⟩ := List.getLast?_eq_some_iff.mp last
      rw [shape] at goes
      cases closed.symm.trans (walkSearched goes there)
  | succ k =>
    have last : (p.names ++ List.replicate (k + 1) Path.dot).getLast? = some Path.dot := by
      rw [List.replicate_succ', ← List.append_assoc, List.getLast?_concat]
    have some' : List.replicate (k + 1) Path.dot ≠ [] := by simp
    obtain ⟨left, on⟩ := walkAppend goes there dir
    rw [on .always _ _ some', last]
    have dotted := advanceDotted (Follow.always.creates && q.endsInSlash) dir k
    cases search : fs.permits d .search with
    | true =>
      rw [search, if_pos rfl] at dotted
      have top : (⟨.top d, q.endsInSlash⟩ : Place).spot.ino? = some d := rfl
      rw [if_neg (fun closed => Bool.noConfusion closed.2), walk, dotted]
      exact nodeAtDir top dir
    | false =>
      rw [search, if_neg Bool.false_ne_true] at dotted
      rw [if_pos ⟨rfl, rfl⟩, walk, dotted]
      rfl

end Fs

namespace Path

/-- Two paths for one directory. They denote the same in every tree, and a lookup of the second leads nowhere else.
Where a lookup of the first finds a directory, the second denotes this one only, and a lookup of it finds this one
too unless it is refused for the length of the path, or for a dot at its end where no name may be looked up. -/
structure SameDir (p q : Path) : Prop where
  denoted : ∀ (fs : Fs) (d : Ino), fs.isDir d = true → (fs.Denotes p d ↔ fs.Denotes q d)
  led : ∀ (fs : Fs) (d : Ino), fs.isDir d = true → fs.Denotes p d →
    fs.lookup q = .ok d ∨ ∃ x, Fs.Hindrance x ∧ fs.lookup q = .error x
  found : ∀ (fs : Fs) (d : Ino), fs.lookup p = .ok d → fs.isDir d = true →
    (∀ e, fs.Denotes q e ↔ e = d) ∧ fs.lookup q = fs.paddedOutcome q d

theorem Padded.sameDir {p q : Path} (padded : p.Padded q) : SameDir p q where
  denoted _ _ dir := Fs.denotesPadded padded dir
  led _ _ dir denoted := Fs.denotedFound padded.nonempty ((Fs.denotesPadded padded dir).mp denoted) dir
  found fs d found dir := by
    have denoted := (Fs.denotesPadded padded dir).mp ((Fs.lookupDenoted found).mpr rfl)
    refine ⟨fun e => ⟨fun other => Fs.Leads.unique other denoted, ?_⟩, Fs.lookupPadded padded found dir⟩
    rintro rfl
    exact denoted

end Path
end AtomicUpdate
