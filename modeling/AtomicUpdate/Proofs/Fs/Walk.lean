import AtomicUpdate.Proofs.Fs.Keeps
import AtomicUpdate.Proofs.Path.Split

/-! Lookups as derivations: what a lookup that succeeds has met on its way. A lookup of a path in two
parts goes on from where the first part led. -/
namespace AtomicUpdate.Fs

def Ordinary (n : Name) : Prop := n ≠ Path.dot ∧ n ≠ Path.dotDot

inductive Advanced (fs : Fs) (refuse : Bool) : Ino → List Name → Halt → Prop where
  | here (d) : Advanced fs refuse d [] (.arrived (.top d))
  | stay {d up rest halt} (parent : fs.parent d = .ok up) (more : Advanced fs refuse d rest halt) :
      Advanced fs refuse d (Path.dot :: rest) halt
  | up {d up rest halt} (parent : fs.parent d = .ok up) (more : Advanced fs refuse up rest halt) :
      Advanced fs refuse d (Path.dotDot :: rest) halt
  | vacant {d up n} (parent : fs.parent d = .ok up) (ordinary : Ordinary n)
      (allowed : refuse = false) (child : fs.child d n = .ok none) :
      Advanced fs refuse d [n] (.arrived (.vacant d n))
  | link {d up n i target rest} (parent : fs.parent d = .ok up) (ordinary : Ordinary n)
      (allowed : (refuse && rest.isEmpty) = false) (child : fs.child d n = .ok (some i))
      (node : fs.node? i = some (.link target)) :
      Advanced fs refuse d (n :: rest) (.link d n i target rest)
  | last {d up n i} (parent : fs.parent d = .ok up) (ordinary : Ordinary n)
      (allowed : refuse = false) (child : fs.child d n = .ok (some i))
      (plain : fs.isLink i = false) : Advanced fs refuse d [n] (.arrived (.entry d n i))
  | down {d up n i rest halt} (parent : fs.parent d = .ok up) (ordinary : Ordinary n)
      (child : fs.child d n = .ok (some i)) (plain : fs.isLink i = false) (some' : rest ≠ [])
      (more : Advanced fs refuse i rest halt) : Advanced fs refuse d (n :: rest) halt

theorem advanced {fs : Fs} {refuse : Bool} {d : Ino} {ns : List Name} {halt : Halt}
    (ok : fs.advance refuse d ns = .ok halt) : fs.Advanced refuse d ns halt := by
  induction ns generalizing d with
  | nil =>
    cases ok
    exact .here d
  | cons n rest ih =>
    unfold advance at ok
    cases parent : fs.parent d with
    | error e => rw [parent] at ok; cases ok
    | ok up =>
      rw [parent] at ok
      dsimp only at ok
      by_cases dot : n = Path.dot
      · rw [if_pos dot] at ok
        exact dot ▸ .stay parent (ih ok)
      by_cases dotDot : n = Path.dotDot
      · rw [if_neg dot, if_pos dotDot] at ok
        exact dotDot ▸ .up parent (ih ok)
      rw [if_neg dot, if_neg dotDot] at ok
      split at ok
      · cases ok
      rename_i allowed
      have allowed : (refuse && rest.isEmpty) = false := by simpa using allowed
      split at ok
      · cases ok
      · rename_i child
        split at ok
        · rename_i last
          subst last
          cases ok
          exact .vacant parent ⟨dot, dotDot⟩ (by simpa using allowed) child
        · cases ok
      · rename_i i child
        split at ok
        · rename_i target node
          cases ok
          exact .link parent ⟨dot, dotDot⟩ allowed child node
        · rename_i other
          have plain : fs.isLink i = false := by
            cases link : fs.isLink i with
            | false => rfl
            | true =>
              obtain ⟨t, node⟩ := isLinkExact link
              exact absurd node (other t)
          split at ok
          · rename_i last
            subst last
            cases ok
            exact .last parent ⟨dot, dotDot⟩ (by simpa using allowed) child plain
          · rename_i some'
            exact .down parent ⟨dot, dotDot⟩ child plain some' (ih ok)

theorem advanceStay {fs : Fs} {refuse : Bool} {d up : Ino} {rest : List Name} (parent : fs.parent d = .ok up) :
    fs.advance refuse d (Path.dot :: rest) = fs.advance refuse d rest := by
  rw [advance, parent]
  rfl

theorem advanceUp {fs : Fs} {refuse : Bool} {d up : Ino} {rest : List Name} (parent : fs.parent d = .ok up) :
    fs.advance refuse d (Path.dotDot :: rest) = fs.advance refuse up rest := by
  rw [advance, parent]
  rfl

theorem advanceName {fs : Fs} {refuse : Bool} {d up : Ino} {n : Name} {rest : List Name}
    (parent : fs.parent d = .ok up) (ordinary : Ordinary n) (allowed : (refuse && rest.isEmpty) = false) :
    fs.advance refuse d (n :: rest) = match fs.child d n with
      | .error e => .error e
      | .ok none => if rest = [] then .ok (.arrived (.vacant d n)) else .error .enoent
      | .ok (some i) =>
          match fs.node? i with
          | some (.link target) => .ok (.link d n i target rest)
          | _ => if rest = [] then .ok (.arrived (.entry d n i)) else fs.advance refuse i rest := by
  have looked : ¬ (refuse && rest.isEmpty) = true := by
    rw [allowed]
    exact Bool.false_ne_true
  rw [advance, parent]
  exact (if_neg ordinary.1).trans ((if_neg ordinary.2).trans (if_neg looked))

theorem advancePlain {fs : Fs} {refuse : Bool} {d up i : Ino} {n : Name} {rest : List Name}
    (parent : fs.parent d = .ok up) (ordinary : Ordinary n) (allowed : (refuse && rest.isEmpty) = false)
    (child : fs.child d n = .ok (some i)) (plain : fs.isLink i = false) :
    fs.advance refuse d (n :: rest) =
      if rest = [] then .ok (.arrived (.entry d n i)) else fs.advance refuse i rest := by
  rw [advanceName parent ordinary allowed, child]
  dsimp only
  split
  · rename_i node
    rw [isLinkOf node] at plain
    cases plain
  · rfl

theorem Advanced.ok {fs : Fs} {refuse : Bool} {d : Ino} {ns : List Name} {halt : Halt}
    (way : fs.Advanced refuse d ns halt) : fs.advance refuse d ns = .ok halt := by
  induction way with
  | here d => rfl
  | stay parent more ih => rw [advanceStay parent, ih]
  | up parent more ih => rw [advanceUp parent, ih]
  | vacant parent ordinary allowed child =>
    rw [advanceName parent ordinary (by rw [allowed]; rfl), child]
    rfl
  | link parent ordinary allowed child node =>
    rw [advanceName parent ordinary allowed, child]
    dsimp only
    rw [node]
  | last parent ordinary allowed child plain =>
    rw [advancePlain parent ordinary (by rw [allowed]; rfl) child plain, if_pos rfl]
  | @down d up n i rest halt parent ordinary child plain some' more ih =>
    have allowed : (refuse && rest.isEmpty) = false := by
      rw [List.isEmpty_eq_false_iff.mpr some', Bool.and_false]
    rw [advancePlain parent ordinary allowed child plain, if_neg some', ih]

theorem Advanced.fromDir {fs : Fs} {refuse : Bool} {d : Ino} {ns : List Name} {halt : Halt}
    (way : fs.Advanced refuse d ns halt) (some' : ns ≠ []) : fs.isDir d = true := by
  have dir : ∀ {up}, fs.parent d = .ok up → fs.isDir d = true := by
    intro up parent
    obtain ⟨_, _, node, _⟩ := parentExact parent
    exact isDirOf node
  cases way with
  | here => exact absurd rfl some'
  | stay parent more => exact dir parent
  | up parent more => exact dir parent
  | vacant parent ordinary allowed child => exact dir parent
  | link parent ordinary allowed child node => exact dir parent
  | last parent ordinary allowed child plain => exact dir parent
  | down parent ordinary child plain some'' more => exact dir parent

theorem Advanced.single {fs : Fs} {refuse : Bool} {d : Ino} {n : Name} {halt : Halt}
    (way : fs.Advanced refuse d [n] halt) (ordinary : Ordinary n) :
    ∃ found, fs.child d n = .ok found ∧ ((found = none ∧ halt = .arrived (.vacant d n)) ∨
      ∃ i, found = some i ∧ ((fs.isLink i = false ∧ halt = .arrived (.entry d n i)) ∨
        ∃ target, fs.node? i = some (.link target) ∧ halt = .link d n i target [])) := by
  cases way with
  | stay => exact absurd rfl ordinary.1
  | up => exact absurd rfl ordinary.2
  | vacant parent ordinary allowed child => exact ⟨_, child, Or.inl ⟨rfl, rfl⟩⟩
  | link parent ordinary allowed child node =>
    exact ⟨_, child, Or.inr ⟨_, rfl, Or.inr ⟨_, node, rfl⟩⟩⟩
  | last parent ordinary allowed child plain =>
    exact ⟨_, child, Or.inr ⟨_, rfl, Or.inl ⟨plain, rfl⟩⟩⟩
  | down parent ordinary child plain some' more => exact absurd rfl some'

def Halt.Firm (spared : Ino → Prop) (fs : Fs) : Halt → Prop
  | .arrived spot => ∃ i, spot.ino? = some i ∧ fs.Firm spared i
  | .link .. => True

theorem Advanced.kept {spared : Ino → Prop} {fs fs' : Fs} (keeps : Keeps spared fs fs')
    {refuse : Bool} {d : Ino} {ns : List Name} {halt : Halt} (way : fs.Advanced refuse d ns halt)
    (firm : Halt.Firm spared fs halt) : fs'.Advanced refuse d ns halt := by
  induction way with
  | here d => exact .here d
  | stay parent more ih => exact .stay (keeps.parent parent) (ih firm)
  | up parent more ih => exact .up (keeps.parent parent) (ih firm)
  | vacant parent ordinary allowed child =>
    obtain ⟨i, none, _⟩ := firm
    cases none
  | link parent ordinary allowed child node =>
    have inner : fs.Firm spared _ := Or.inl (by rw [isInner, isLinkOf node, Bool.or_true])
    exact .link (keeps.parent parent) ordinary allowed (keeps.child child inner) (keeps.links node)
  | last parent ordinary allowed child plain =>
    obtain ⟨i, same, firm⟩ := firm
    cases same
    exact .last (keeps.parent parent) ordinary allowed (keeps.child child firm)
      (keeps.notLink firm plain)
  | down parent ordinary child plain some' more ih =>
    have inner : fs.Firm spared _ := Or.inl (by rw [isInner, more.fromDir some', Bool.true_or])
    exact .down (keeps.parent parent) ordinary (keeps.child child inner)
      (keeps.notLink inner plain) some' (ih firm)

theorem startKept {spared : Ino → Prop} {fs fs' : Fs} (keeps : Keeps spared fs fs') (d : Ino)
    (p : Path) : fs'.startOf d p = fs.startOf d p := by
  rw [startOf, startOf, keeps.root]

inductive Walked (fs : Fs) (follow : Follow) : Nat → Ino → List Name → Bool → Place → Prop where
  | arrived {links d ns slash spot}
      (way : fs.Advanced (follow.creates && slash) d ns (.arrived spot)) :
      Walked fs follow links d ns slash ⟨spot, slash⟩
  | stopped {links d ns slash dir n i target}
      (way : fs.Advanced (follow.creates && slash) d ns (.link dir n i target []))
      (stops : follow.through slash = false) :
      Walked fs follow links d ns slash ⟨.entry dir n i, slash⟩
  | onward {links d ns slash dir n i target rest place}
      (way : fs.Advanced (follow.creates && slash) d ns (.link dir n i target rest))
      (goes : ¬ (rest = [] ∧ follow.through slash = false))
      (more : Walked fs follow links (fs.startOf dir target) (target.names ++ rest)
        (slash || (rest.isEmpty && target.endsInSlash)) place) :
      Walked fs follow (links + 1) d ns slash place

theorem walked {fs : Fs} {follow : Follow} {links : Nat} {d : Ino} {ns : List Name} {slash : Bool}
    {place : Place} (ok : fs.walk follow links d ns slash = .ok place) :
    fs.Walked follow links d ns slash place := by
  induction links using Nat.strongRecOn generalizing d ns slash with
  | ind links ih =>
    rw [walk] at ok
    cases way : fs.advance (follow.creates && slash) d ns with
    | error e => rw [way] at ok; cases ok
    | ok halt =>
      rw [way] at ok
      cases halt with
      | arrived spot =>
        cases ok
        exact .arrived (advanced way)
      | link dir n i target rest =>
        dsimp only at ok
        split at ok
        · rename_i stops
          cases ok
          exact .stopped (stops.1 ▸ advanced way) stops.2
        · rename_i goes
          cases links with
          | zero => cases ok
          | succ links => exact .onward (advanced way) goes (ih links (Nat.lt_succ_self links) ok)

theorem Walked.ok {fs : Fs} {follow : Follow} {links : Nat} {d : Ino} {ns : List Name} {slash : Bool}
    {place : Place} (walked : fs.Walked follow links d ns slash place) :
    fs.walk follow links d ns slash = .ok place := by
  induction walked with
  | @arrived links d ns slash spot way => cases links <;> rw [walk, way.ok]
  | @stopped links d ns slash dir n i target way stops =>
    cases links <;>
    · rw [walk, way.ok]
      dsimp only
      rw [if_pos ⟨rfl, stops⟩]
  | onward way goes more ih =>
    rw [walk, way.ok]
    dsimp only
    rw [if_neg goes]
    exact ih

theorem Walked.single {fs : Fs} {follow : Follow} {links : Nat} {d : Ino} {n : Name} {slash : Bool}
    {place : Place} (walked : fs.Walked follow links d [n] slash place) (ordinary : Ordinary n) :
    ∃ found, fs.child d n = .ok found ∧ ((found = none ∧ place = ⟨.vacant d n, slash⟩) ∨
      ∃ i, found = some i ∧
        ((place = ⟨.entry d n i, slash⟩ ∧ (fs.isLink i = false ∨ follow.through slash = false)) ∨
          ∃ target links', fs.node? i = some (.link target) ∧ follow.through slash = true ∧
            fs.Walked follow links' (fs.startOf d target) target.names (slash || target.endsInSlash)
              place)) := by
  cases walked with
  | arrived way =>
    obtain ⟨found, child, ⟨none, same⟩ | ⟨_, taken, ⟨plain, same⟩ | ⟨_, _, same⟩⟩⟩ := way.single ordinary
    · cases same
      exact ⟨found, child, Or.inl ⟨none, rfl⟩⟩
    · cases same
      exact ⟨found, child, Or.inr ⟨_, taken, Or.inl ⟨rfl, Or.inl plain⟩⟩⟩
    · cases same
  | stopped way stops =>
    obtain ⟨found, child, ⟨_, same⟩ | ⟨_, taken, ⟨_, same⟩ | ⟨_, _, same⟩⟩⟩ := way.single ordinary
    · cases same
    · cases same
    · cases same
      exact ⟨found, child, Or.inr ⟨_, taken, Or.inl ⟨rfl, Or.inr stops⟩⟩⟩
  | onward way goes more =>
    obtain ⟨found, child, ⟨_, same⟩ | ⟨_, taken, ⟨_, same⟩ | ⟨_, node, same⟩⟩⟩ := way.single ordinary
    · cases same
    · cases same
    · cases same
      rw [List.append_nil] at more
      have through : follow.through slash = true := by
        rw [← Bool.not_eq_false]
        exact fun stops => goes ⟨rfl, stops⟩
      exact ⟨found, child, Or.inr ⟨_, taken, Or.inr ⟨_, _, node, through, more⟩⟩⟩

theorem Walked.kept {spared : Ino → Prop} {fs fs' : Fs} (keeps : Keeps spared fs fs') {follow : Follow}
    {links : Nat} {d i : Ino} {ns : List Name} {slash : Bool} {place : Place}
    (walked : fs.Walked follow links d ns slash place) (there : place.spot.ino? = some i)
    (firm : fs.Firm spared i) : fs'.Walked follow links d ns slash place := by
  induction walked with
  | arrived way => exact .arrived (way.kept keeps ⟨i, there, firm⟩)
  | stopped way stops => exact .stopped (way.kept keeps trivial) stops
  | onward way goes more ih =>
    exact .onward (way.kept keeps trivial) goes (startKept keeps _ _ ▸ ih there)

theorem walkKept {spared : Ino → Prop} {fs fs' : Fs} (keeps : Keeps spared fs fs') {follow : Follow}
    {links : Nat} {d i : Ino} {ns : List Name} {slash : Bool} {place : Place}
    (ok : fs.walk follow links d ns slash = .ok place) (there : place.spot.ino? = some i)
    (firm : fs.Firm spared i) : fs'.walk follow links d ns slash = .ok place :=
  ((walked ok).kept keeps there firm).ok

theorem checkFits {p : Path} (nonempty : p ≠ []) (within : p.length < Limits.pathMax) :
    checkLength p = .ok () := by
  rw [checkLength, if_neg nonempty, if_neg (Nat.not_le.mpr within)]

theorem lookupLong {fs : Fs} {p : Path} (nonempty : p ≠ []) (long : Limits.pathMax ≤ p.length) :
    fs.lookup p = .error .enametoolong := by
  rw [lookup, locate, checkLength, if_neg nonempty, if_pos long]
  rfl

theorem locateExact {fs : Fs} {follow : Follow} {p : Path} {place : Place}
    (ok : fs.locate follow p = .ok place) :
    checkLength p = .ok () ∧
      fs.walk follow Limits.linkMax (fs.startOf fs.cwd p) p.names p.endsInSlash = .ok place := by
  unfold locate at ok
  cases long : checkLength p with
  | error e => rw [long] at ok; cases ok
  | ok u => rw [long] at ok; exact ⟨rfl, ok⟩

theorem locateOf {fs : Fs} (follow : Follow) {p : Path} (short : checkLength p = .ok ()) :
    fs.locate follow p =
      fs.walk follow Limits.linkMax (fs.startOf fs.cwd p) p.names p.endsInSlash := by
  rw [locate, short]
  rfl

theorem locateKept {spared : Ino → Prop} {fs fs' : Fs} (keeps : Keeps spared fs fs') {follow : Follow}
    {p : Path} {i : Ino} {place : Place} (ok : fs.locate follow p = .ok place)
    (there : place.spot.ino? = some i) (firm : fs.Firm spared i) :
    fs'.locate follow p = .ok place := by
  obtain ⟨short, way⟩ := locateExact ok
  rw [locateOf follow short, keeps.cwd, startKept keeps]
  exact walkKept keeps way there firm

theorem nodeAtExact {fs : Fs} {place : Place} {i : Ino} : fs.nodeAt place = .ok i ↔
    place.spot.ino? = some i ∧ (place.slash = true → fs.isDir i = true) := by
  unfold nodeAt
  cases place.spot.ino? with
  | none => simp
  | some j =>
    by_cases same : j = i
    · subst same
      cases place.slash <;> cases dir : fs.isDir j <;> simp [dir]
    · have other : (some j = some i) ↔ False := by simp [same]
      rw [other, false_and, iff_false]
      dsimp only
      split <;> simp [same]

theorem nodeAtDir {fs : Fs} {place : Place} {d : Ino} (there : place.spot.ino? = some d)
    (dir : fs.isDir d = true) : fs.nodeAt place = .ok d := nodeAtExact.mpr ⟨there, fun _ => dir⟩

theorem lookupExact {fs : Fs} {p : Path} {i : Ino} (ok : fs.lookup p = .ok i) :
    ∃ place, fs.locate .always p = .ok place ∧ place.spot.ino? = some i ∧
      (place.slash = true → fs.isDir i = true) := by
  obtain ⟨place, found, at'⟩ := bindOk ok
  exact ⟨place, found, nodeAtExact.mp at'⟩

theorem lookupEntryExact {fs : Fs} {p : Path} {i : Ino} (ok : fs.lookupEntry p = .ok i) :
    ∃ place, fs.locate .atSlash p = .ok place ∧ place.spot.ino? = some i ∧
      (place.slash = true → fs.isDir i = true) := by
  obtain ⟨place, found, at'⟩ := bindOk ok
  exact ⟨place, found, nodeAtExact.mp at'⟩

theorem lookupKept {spared : Ino → Prop} {fs fs' : Fs} (keeps : Keeps spared fs fs') {p : Path} {i : Ino}
    (ok : fs.lookup p = .ok i) (firm : fs.Firm spared i) : fs'.lookup p = .ok i := by
  obtain ⟨place, found, there, closed⟩ := lookupExact ok
  rw [lookup, locateKept keeps found there firm]
  exact nodeAtExact.mpr ⟨there, fun slash => keeps.dir (closed slash)⟩

theorem lookupEntryKept {spared : Ino → Prop} {fs fs' : Fs} (keeps : Keeps spared fs fs') {p : Path}
    {i : Ino} (ok : fs.lookupEntry p = .ok i) (firm : fs.Firm spared i) : fs'.lookupEntry p = .ok i := by
  obtain ⟨place, found, there, closed⟩ := lookupEntryExact ok
  rw [lookupEntry, locateKept keeps found there firm]
  exact nodeAtExact.mpr ⟨there, fun slash => keeps.dir (closed slash)⟩

theorem Advanced.filled {fs fs' : Fs} (keeps : Keeps (fun _ => False) fs fs') {refuse : Bool}
    {e d k : Ino} {n : Name} {ns : List Name} (taken : fs'.named? d n = some k) (plain : fs'.isLink k = false)
    (way : fs.Advanced refuse e ns (.arrived (.vacant d n))) :
    fs'.Advanced refuse e ns (.arrived (.entry d n k)) := by
  generalize same : Halt.arrived (.vacant d n) = halt at way
  induction way with
  | here => cases same
  | stay parent more ih => exact .stay (keeps.parent parent) (ih same)
  | up parent more ih => exact .up (keeps.parent parent) (ih same)
  | vacant parent ordinary allowed child =>
    cases same
    obtain ⟨dir, search, here, short, _⟩ := childExact child
    have child' := childOf n (keeps.dir dir) ((keeps.permits dir .search).trans search)
      (keeps.here dir here) short
    rw [taken] at child'
    exact .last (keeps.parent parent) ordinary allowed child' plain
  | link => cases same
  | last => cases same
  | down parent ordinary child plain some' more ih =>
    have inner : fs.Firm (fun _ => False) _ := Or.inl (by rw [isInner, more.fromDir some', Bool.true_or])
    exact .down (keeps.parent parent) ordinary (keeps.child child inner) (keeps.notLink inner plain)
      some' (ih same)

theorem Walked.filled {fs fs' : Fs} (keeps : Keeps (fun _ => False) fs fs') {follow : Follow}
    {links : Nat} {e d k : Ino} {n : Name} {ns : List Name} {slash s : Bool} (taken : fs'.named? d n = some k)
    (plain : fs'.isLink k = false) (walked : fs.Walked follow links e ns slash ⟨.vacant d n, s⟩) :
    fs'.Walked follow links e ns slash ⟨.entry d n k, s⟩ := by
  generalize same : (⟨.vacant d n, s⟩ : Place) = place at walked
  induction walked with
  | arrived way =>
    cases same
    exact .arrived (way.filled keeps taken plain)
  | stopped way stops => cases same
  | onward way goes more ih =>
    exact .onward (way.kept keeps trivial) goes (startKept keeps _ _ ▸ ih same)

theorem locateFilled {fs fs' : Fs} (keeps : Keeps (fun _ => False) fs fs') {follow : Follow} {p : Path}
    {d k : Ino} {n : Name} {s : Bool} (located : fs.locate follow p = .ok ⟨.vacant d n, s⟩)
    (taken : fs'.named? d n = some k) (plain : fs'.isLink k = false) :
    fs'.locate follow p = .ok ⟨.entry d n k, s⟩ := by
  obtain ⟨short, way⟩ := locateExact located
  rw [locateOf follow short, keeps.cwd, startKept keeps]
  exact ((walked way).filled keeps taken plain).ok

theorem Walked.unfollowed {fs : Fs} {links : Nat} {d : Ino} {ns : List Name} {slash : Bool} {place : Place}
    (walked : fs.Walked .creatingNew links d ns slash place) (open' : slash = false) :
    fs.Walked .atSlash links d ns slash place ∧ place.slash = false := by
  induction walked with
  | arrived way =>
    subst open'
    exact ⟨.arrived way, rfl⟩
  | stopped way stops =>
    subst open'
    exact ⟨.stopped way rfl, rfl⟩
  | @onward _ _ _ _ _ _ _ target rest _ way goes more ih =>
    subst open'
    have between : rest ≠ [] := fun last => goes ⟨last, rfl⟩
    obtain ⟨on, slash⟩ := ih (by rw [List.isEmpty_eq_false_iff.mpr between]; rfl)
    exact ⟨.onward way (fun last => between last.1) on, slash⟩

theorem locateUnfollowed {fs : Fs} {p : Path} {place : Place} (open' : p.endsInSlash = false)
    (located : fs.locate .creatingNew p = .ok place) :
    fs.locate .atSlash p = .ok place ∧ place.slash = false := by
  obtain ⟨short, goes⟩ := locateExact located
  rw [open'] at goes
  obtain ⟨way, slash⟩ := (walked goes).unfollowed rfl
  rw [locateOf .atSlash short, open']
  exact ⟨way.ok, slash⟩

theorem Advanced.append {fs : Fs} {d : Ino} {ns : List Name} {halt : Halt}
    (way : fs.Advanced false d ns halt) (refuse : Bool) {more : List Name} (some' : more ≠ []) :
    (∀ spot i, halt = .arrived spot → spot.ino? = some i → fs.isDir i = true →
        fs.advance refuse d (ns ++ more) = fs.advance refuse i more) ∧
      (∀ dir n i target rest, halt = .link dir n i target rest →
        fs.advance refuse d (ns ++ more) = .ok (.link dir n i target (rest ++ more))) := by
  have busy : ∀ rest : List Name, (refuse && (rest ++ more).isEmpty) = false := by
    intro rest
    rw [List.isEmpty_eq_false_iff.mpr (by simp [some']), Bool.and_false]
  induction way with
  | here d =>
    refine ⟨fun spot i same there _ => ?_, fun dir n i target rest same => by cases same⟩
    cases same
    cases there
    rfl
  | stay parent _ ih =>
    rw [List.cons_append, advanceStay parent]
    exact ih
  | up parent _ ih =>
    rw [List.cons_append, advanceUp parent]
    exact ih
  | vacant parent ordinary allowed child =>
    refine ⟨fun spot i same there _ => ?_, fun dir n i target rest same => by cases same⟩
    cases same
    cases there
  | @link d up n i target rest parent ordinary allowed child node =>
    refine ⟨fun spot j same => (by cases same), fun dir m j t r same => ?_⟩
    cases same
    exact (Advanced.link parent ordinary (busy rest) child node).ok
  | @last d up n i parent ordinary allowed child plain =>
    refine ⟨fun spot j same there dir => ?_, fun dir m j t r same => by cases same⟩
    cases same
    cases there
    have go : fs.advance refuse d (n :: more) =
        if more = [] then .ok (.arrived (.entry d n i)) else fs.advance refuse i more :=
      advancePlain parent ordinary (busy []) child plain
    rw [List.singleton_append, go, if_neg some']
  | @down d up n i rest halt parent ordinary child plain some'' _ ih =>
    have nonempty : rest ++ more ≠ [] := by simp [some'']
    have step : fs.advance refuse d (n :: rest ++ more) = fs.advance refuse i (rest ++ more) := by
      rw [List.cons_append, advancePlain parent ordinary (busy rest) child plain, if_neg nonempty]
    rw [step]
    exact ih

theorem walkAppend {fs : Fs} {links : Nat} {d i : Ino} {ns : List Name} {slash : Bool} {place : Place}
    (ok : fs.walk .always links d ns slash = .ok place) (there : place.spot.ino? = some i)
    (dir : fs.isDir i = true) :
    ∃ left, ∀ (follow : Follow) (more : List Name) (slash' : Bool), more ≠ [] →
      fs.walk follow links d (ns ++ more) slash' = fs.walk follow left i more slash' := by
  have walked := walked ok
  clear ok
  induction walked with
  | @arrived links d ns slash spot way =>
    refine ⟨links, fun follow more slash' some' => ?_⟩
    have on := (way.append (follow.creates && slash') some').1 spot i rfl there dir
    cases links <;>
    · rw [walk, on]
      conv => rhs; rw [walk]
  | stopped way stops => cases stops
  | @onward links d ns slash dir' n j target rest place way goes more ih =>
    obtain ⟨left, leads⟩ := ih there
    refine ⟨left, fun follow more slash' some' => ?_⟩
    have on : rest ++ more ≠ [] := by simp [some']
    rw [walk, (way.append _ some').2 dir' n j target rest rfl]
    dsimp only
    rw [if_neg (fun both => on both.1), ← List.append_assoc, leads follow more _ some',
      List.isEmpty_eq_false_iff.mpr on, Bool.false_and, Bool.or_false]

end AtomicUpdate.Fs
