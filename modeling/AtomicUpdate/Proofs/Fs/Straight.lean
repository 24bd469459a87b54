import AtomicUpdate.Proofs.Fs.Upright

/-! What canonical paths are like. Their names are entries of the directories that they lead through, and none
is a link, whatever links and dots were in the path that was asked for. A canonical path that can be looked up
is its own canonical path. -/
namespace AtomicUpdate
open Path (Plain)

theorem Path.joinConcat (ns : List Name) (n : Name) :
    join (ns ++ [n]) = (if ns = [] then [] else join ns ++ [slash]) ++ n := by
  induction ns with
  | nil => rfl
  | cons m ns ih =>
    rw [if_neg (List.cons_ne_nil m ns)]
    cases ns with
    | nil => simp [join]
    | cons k ns =>
      rw [if_neg (List.cons_ne_nil k ns)] at ih
      change m ++ slash :: join (k :: ns ++ [n]) = m ++ slash :: join (k :: ns) ++ [slash] ++ n
      rw [ih]
      simp

namespace Fs
variable {fs : Fs}

inductive Straight (fs : Fs) : Ino → List Name → Ino → Prop where
  | here (d) : Straight fs d [] d
  | on {d n i ns j} (plain : Plain n) (entry : fs.named? d n = some i) (notLink : fs.isLink i = false)
      (more : Straight fs i ns j) : Straight fs d (n :: ns) j

theorem Straight.concat {d i j : Ino} {ns : List Name} {n : Name} (straight : fs.Straight d ns i) (plain : Plain n)
    (entry : fs.named? i n = some j) (notLink : fs.isLink j = false) : fs.Straight d (ns ++ [n]) j := by
  induction straight with
  | here d => exact .on plain entry notLink (.here j)
  | on first entry' notLink' more ih => exact .on first entry' notLink' (ih entry)

theorem Linked.straight {t : Trail} (linked : fs.Linked t) :
    fs.Straight fs.root (t.map (·.1)).reverse (t.node fs) := by
  induction linked with
  | root => exact .here fs.root
  | @step t n i up plain entry dir ih =>
    rw [List.map_cons, List.reverse_cons]
    exact ih.concat plain entry (dirNotLink dir)

theorem Traced.straight {t : Trail} (traced : fs.Traced t) : fs.Straight fs.root t.path.names (t.node fs) := by
  rw [traced.names]
  cases traced with
  | inside linked => exact linked.straight
  | last up plain within along notLink =>
    rw [List.map_cons, List.reverse_cons]
    exact up.straight.concat plain (childExact (childAlongExact along).2).2.2.2.2 notLink

theorem pathSpelled (t : Trail) : t.path = Path.slash :: Path.join (t.map (·.1)).reverse := by
  induction t with
  | nil => rfl
  | cons e t ih =>
    obtain ⟨n, i⟩ := e
    rw [pathStep, List.map_cons, List.reverse_cons, Path.joinConcat]
    cases t with
    | nil => rfl
    | cons e t =>
      have some' : (List.map (·.1) (e :: t)).reverse ≠ [] := by simp
      rw [if_neg (List.cons_ne_nil e t), if_neg some', ih]
      simp

theorem climbFlat {t : Trail} {ms : List Name} {c : Climb} (flat : fs.isDir (t.node fs) = false)
    (free : obliged ms = false) (ok : fs.climb t ms = .ok c) : c = .done t := by
  induction ms with
  | nil =>
    cases ok
    rfl
  | cons m ms ih =>
    by_cases dot : m = Path.dot
    · subst dot
      cases ms with
      | nil => cases free
      | cons k ms =>
        rw [climb, if_pos rfl] at ok
        exact ih free ok
    by_cases dotDot : m = Path.dotDot
    · subst dotDot
      cases free
    obtain ⟨_, i, along, _⟩ := climbExact ⟨dot, dotDot⟩ ok
    have dir := (childExact (childAlongExact along).2).1
    cases flat.symm.trans dir

inductive Stopped (fs : Fs) : Climb → Prop where
  | done {top} (traced : Traced fs top) : Stopped fs (.done top)
  | link {mid rest} (target) (linked : Linked fs mid) (spelled : Spelled rest) : Stopped fs (.link mid target rest)

theorem climbStopped {t : Trail} {ms : List Name} {c : Climb} (linked : fs.Linked t) (spelled : Spelled ms)
    (ok : fs.climb t ms = .ok c) : fs.Stopped c := by
  induction ms generalizing t with
  | nil =>
    cases ok
    exact .done (.inside linked)
  | cons m ms ih =>
    have spelled' := spelledTail spelled
    by_cases dot : m = Path.dot
    · rw [climb, if_pos dot] at ok
      exact ih linked spelled' ok
    by_cases dotDot : m = Path.dotDot
    · rw [climb, if_neg dot, if_pos dotDot] at ok
      exact ih linked.tail spelled' ok
    have plain := plainOf spelled ⟨dot, dotDot⟩
    obtain ⟨within, i, along, ⟨target, _, rfl⟩ | ⟨notLink, fits, on⟩⟩ := climbExact ⟨dot, dotDot⟩ ok
    · exact .link target linked spelled'
    -- Below what is no directory the trail is no longer linked, but nothing is climbed there.
    cases dir : fs.isDir i with
    | true => exact ih (.step linked plain (childExact (childAlongExact along).2).2.2.2.2 dir) spelled' on
    | false =>
      rw [dir, Bool.not_false, Bool.and_true] at fits
      rw [climbFlat dir fits on]
      exact .done (.last linked plain within along notLink)

theorem ascendTraced {links : Nat} {t top : Trail} {ms : List Name} (linked : fs.Linked t) (spelled : Spelled ms)
    (ok : fs.ascend links t ms = .ok top) : fs.Traced top := by
  have arrives := ascended ok
  clear ok
  induction arrives with
  | done way =>
    cases climbStopped linked spelled way with
    | done traced => exact traced
  | @link _ _ _ _ target _ way _ ih =>
    cases climbStopped linked spelled way with
    | link _ linked' spelled' => exact ih (linked'.behind target) ((spelledSteps target).append spelled')

theorem canonicalTrail (tidy : fs.Tidy) (upright : fs.Upright) {p q : Path} (ok : fs.canonical p = .ok q) :
    ∃ top, q = Trail.path top ∧ fs.Traced top := by
  obtain ⟨t, top, starts, reached, rfl⟩ := canonicalExact ok
  exact ⟨top, rfl, ascendTraced (trailStarts tidy upright.plain starts).1 (spelledSteps p) reached⟩

theorem climbAlong {t : Trail} (linked : fs.Linked t) {halt : Halt}
    (ok : fs.advance false fs.root (t.map (·.1)).reverse = .ok halt) (short : t.path.length < Limits.pathMax)
    (more : List Name) : fs.climb [] ((t.map (·.1)).reverse ++ more) = fs.climb t more := by
  -- A walk from the root asks each directory on the way what the climb asks of it.
  induction linked generalizing halt more with
  | root => rfl
  | @step t n i up plain entry dir ih =>
    rw [List.map_cons, List.reverse_cons] at ok
    obtain ⟨⟨_, led⟩, last⟩ := advanceOnward (fun led => (advanceTrail up led).1) (List.cons_ne_nil n []) ok
    have asked := (advanceTrail up led).2
    have along : fs.childAlong t n = .ok (some i) := (childAlongOf n asked).trans (lastChild plain entry last)
    have within : t.lengthWith n < Limits.pathMax := pathLength t n i ▸ short
    have before : t.path.length < Limits.pathMax := Nat.lt_of_le_of_lt (pathShorter t n i) short
    have fits : (obliged more && !fs.isDir i) = false := by rw [dir, Bool.not_true, Bool.and_false]
    rw [List.map_cons, List.reverse_cons, List.append_assoc, List.singleton_append, ih led before,
      climbDown (Home.ordinary plain) within along (dirNotLink dir) fits]

theorem climbTop {t : Trail} (traced : fs.Traced t) {halt : Halt}
    (ok : fs.advance false fs.root (t.map (·.1)).reverse = .ok halt) (short : t.path.length < Limits.pathMax) :
    fs.climb [] (t.map (·.1)).reverse = .ok (.done t) := by
  cases traced with
  | inside linked =>
    have whole := climbAlong linked ok short []
    rwa [List.append_nil] at whole
  | @last t n i up plain within along notLink =>
    rw [List.map_cons, List.reverse_cons] at ok ⊢
    obtain ⟨⟨_, ahead⟩, _⟩ := advanceOnward (fun led => (advanceTrail up led).1) (List.cons_ne_nil n []) ok
    rw [climbAlong up ahead (Nat.lt_of_le_of_lt (pathShorter t n i) short),
      climbDown (Home.ordinary plain) within along notLink rfl]
    rfl

theorem canonicalItself {t : Trail} (traced : fs.Traced t) {j : Ino} (led : fs.lookup t.path = .ok j) :
    fs.canonical t.path = .ok t.path := by
  obtain ⟨short, halt, way, _⟩ := lookupNames traced.names led
  have climbed := climbTop traced way short
  have named : ∀ {up n i}, t = (n, i) :: up → Plain n → fs.canonical t.path = .ok t.path := by
    rintro up n i rfl plain
    have starts : fs.trailFrom? (Trail.path ((n, i) :: up)) = some [] := by
      rw [trailFrom?, pathAbsolute]
      rfl
    rw [canonicalOf (pathNonempty _) starts, Path.steps, pathNoClosing up plain, if_neg Bool.false_ne_true,
      traced.names, ascend, climbed]
    rfl
  cases traced with
  | inside linked =>
    cases linked with
    | root => rfl
    | step up plain entry dir => exact named rfl plain
  | last up plain within along notLink => exact named rfl plain

end Fs
end AtomicUpdate
