import AtomicUpdate.Proofs.Json.Reading

/-! A text with a gap where a value belongs. Whatever stands around it, a value put there is read as part of
the whole. What begins like a number there and is none stops the reader within it or right behind it, where
nothing goes on, and so spoils the whole text. -/
namespace AtomicUpdate.Json

inductive Led {α : Type} (part : List α → Part) : List α → List Char → Prop
  | bare : Led part [] []
  | more {xs cs} (written : Written (part xs) cs) : Led part xs (cs ++ [','])

inductive Trailed {α : Type} (part : List α → Part) : List α → List Char → Prop
  | bare : Trailed part [] []
  | more {xs cs} (written : Written (part xs) cs) : Trailed part xs (',' :: cs)

inductive Layer : (Tree → Tree) → List Char → List Char → Prop
  | element {ts ts' p q b a} (led : Led .elements ts p) (before : Blank b) (after : Blank a)
      (trailed : Trailed .elements ts' q) :
      Layer (fun t => .array (ts ++ t :: ts')) ('[' :: (p ++ b)) (a ++ q ++ [']'])
  | member {ms ms' p q key o k m b a} (led : Led .members ms p) (opening : Blank o) (quoted : Quoted k key)
      (middle : Blank m) (before : Blank b) (after : Blank a) (trailed : Trailed .members ms' q) :
      Layer (fun t => .object (ms ++ (key, t) :: ms')) ('{' :: (p ++ (o ++ '"' :: k ++ '"' :: m ++ ':' :: b)))
        (a ++ q ++ ['}'])

section Filled
variable {t : Tree} {ts us : List Tree} {ms ns : List (List Piece × Tree)} {key : List Piece} {p q cs : List Char}

theorem elementsAppend (first : Written (.elements ts) p) (second : Written (.elements us) q) :
    Written (.elements (ts ++ us)) (p ++ ',' :: q) := by
  generalize same : Part.elements ts = part at first
  induction first generalizing ts <;> cases same
  case lastElement item ih => exact .element item second
  case element t ts cs rest item more ih ih' =>
    rw [List.append_assoc, List.cons_append, List.cons_append]
    exact .element item (ih' rfl)

theorem membersAppend (first : Written (.members ms) p) (second : Written (.members ns) q) :
    Written (.members (ms ++ ns)) (p ++ ',' :: q) := by
  generalize same : Part.members ms = part at first
  induction first generalizing ms <;> cases same
  case lastMember member ih => exact .anotherMember member second
  case anotherMember key t ms cs rest member more ih ih' =>
    rw [List.append_assoc, List.cons_append, List.cons_append]
    exact .anotherMember member (ih' rfl)

theorem elementsFilled (led : Led .elements ts p) (item : Written (.item t) cs) (trailed : Trailed .elements us q) :
    Written (.elements (ts ++ t :: us)) (p ++ (cs ++ q)) := by
  have rest : Written (.elements (t :: us)) (cs ++ q) := by
    cases trailed with
    | bare =>
      rw [List.append_nil]
      exact .lastElement item
    | more written => exact .element item written
  cases led with
  | bare => exact rest
  | more written =>
    rw [List.append_assoc]
    exact elementsAppend written rest

theorem membersFilled (led : Led .members ms p) (member : Written (.member key t) cs)
    (trailed : Trailed .members ns q) : Written (.members (ms ++ (key, t) :: ns)) (p ++ (cs ++ q)) := by
  have rest : Written (.members ((key, t) :: ns)) (cs ++ q) := by
    cases trailed with
    | bare =>
      rw [List.append_nil]
      exact .lastMember member
    | more written => exact .anotherMember member written
  cases led with
  | bare => exact rest
  | more written =>
    rw [List.append_assoc]
    exact membersAppend written rest

theorem Layer.filled {C : Tree → Tree} {pre post : List Char} (layer : Layer C pre post)
    (value : Written (.value t) cs) : Written (.value (C t)) (pre ++ cs ++ post) := by
  cases layer with
  | element led before after trailed =>
    have whole := Written.array (elementsFilled led (.item before value after) trailed)
    simpa using whole
  | member led opening quoted middle before after trailed =>
    have member := Written.member opening quoted middle (.item before value after)
    have whole := Written.object (membersFilled led member trailed)
    simpa using whole

end Filled

def Numeric (c : Char) : Prop := c.isDigit = true ∨ c ∈ ['+', '-', '.', 'e', 'E']

instance (c : Char) : Decidable (Numeric c) := inferInstanceAs (Decidable (_ ∨ _))

theorem numberNumeric {n : List Char} (number : Number n) : ∀ c ∈ n, Numeric c := by
  have digital : ∀ {ds}, Digits ds → ∀ c ∈ ds, Numeric c := fun digits c mem =>
    Or.inl (List.all_eq_true.mp digits.2 c mem)
  have first : ∀ {w}, Whole w → ∀ c ∈ w, Numeric c := by
    intro w whole
    cases whole with
    | zero => simp [Numeric]
    | number digits leads => exact digital digits
  have second : ∀ {f}, Fraction f → ∀ c ∈ f, Numeric c := by
    intro f fraction
    cases fraction with
    | none => exact nofun
    | point digits => exact List.forall_mem_cons.mpr ⟨by simp [Numeric], digital digits⟩
  have third : ∀ {x}, Exponent x → ∀ c ∈ x, Numeric c := by
    intro x exponent
    cases exponent with
    | none => exact nofun
    | plain letter digits =>
      exact List.forall_mem_cons.mpr ⟨by rcases letter with rfl | rfl <;> simp [Numeric], digital digits⟩
    | signed letter sign digits =>
      refine List.forall_mem_cons.mpr ⟨by rcases letter with rfl | rfl <;> simp [Numeric], ?_⟩
      exact List.forall_mem_cons.mpr ⟨by rcases sign with rfl | rfl <;> simp [Numeric], digital digits⟩
  have all : ∀ {w f x}, Whole w → Fraction f → Exponent x → ∀ c ∈ w ++ f ++ x, Numeric c := by
    intro w f x whole fraction exponent c mem
    rcases List.mem_append.mp mem with mem | mem
    · exact (List.mem_append.mp mem).elim (first whole c) (second fraction c)
    · exact third exponent c mem
  cases number with
  | positive whole fraction exponent => exact all whole fraction exponent
  | negative whole fraction exponent =>
    exact List.forall_mem_cons.mpr ⟨by simp [Numeric], all whole fraction exponent⟩

namespace Reader

theorem numericUnmarked {c : Char} (numeric : Numeric c) :
    c ∉ [' ', '\n', '\t', '\r'] ∧ c ∉ ['n', 't', 'f', '"', '[', '{'] ∧ c ∉ [',', ']', '}'] := by
  have unclosed : ([',', ']', '}'].all fun c => !c.isDigit) = true := by decide
  rcases numeric with digit | mark
  · obtain ⟨inked, unmarked⟩ := numberUnmarked (Or.inr digit)
    refine ⟨inked, unmarked, fun mem => ?_⟩
    have undigited := List.all_eq_true.mp unclosed c mem
    rw [digit] at undigited
    cases undigited
  · simp only [List.mem_cons, List.not_mem_nil, or_false] at mark
    rcases mark with rfl | rfl | rfl | rfl | rfl <;> decide

def Shuts (rest : List Char) : Prop := ∀ c ∈ (skip rest).head?, c ∈ [',', ']', '}']

def Halts (taken : Option (Tree × List Char)) : Prop :=
  ∀ t tail, taken = some (t, tail) → ∃ c more, tail = c :: more ∧ Numeric c

structure Jams (cs : List Char) : Prop where
  inked : ∀ c ∈ cs.head?, c ∉ [' ', '\n', '\t', '\r'] ∧ c ∉ [',', ']', '}']
  halts : ∀ bound rest, 2 * cs.length ≤ bound → Shuts rest → Halts (value bound (cs ++ rest))

theorem shutsMark {c : Char} (mark : c ∈ [',', ']', '}']) (rest : List Char) : Shuts (c :: rest) := by
  simp only [List.mem_cons, List.not_mem_nil, or_false] at mark
  rcases mark with rfl | rfl | rfl <;> rintro _ ⟨⟩ <;> decide

theorem shutsBlank {b : List Char} (blank : Blank b) {rest : List Char} (shuts : Shuts rest) : Shuts (b ++ rest) := by
  unfold Shuts
  rw [skipBlank blank]
  exact shuts

theorem nothingValued {rest : List Char} (shuts : Shuts rest) (bound : Nat) : value bound rest = none := by
  rw [← valueSkip]
  cases bound with
  | zero => rfl
  | succ bound =>
    unfold Shuts at shuts
    cases same : skip rest with
    | nil => rfl
    | cons c more =>
      rw [same] at shuts
      have mark := shuts c rfl
      simp only [List.mem_cons, List.not_mem_nil, or_false] at mark
      rcases mark with rfl | rfl | rfl <;> rw [valueUnmarked (by decide) (by decide)] <;> rfl

theorem numericJams {s : List Char} (numeric : ∀ c ∈ s, Numeric c) (other : ¬ Number s) : Jams s where
  inked c head := by
    obtain ⟨inked, _, unclosed⟩ := numericUnmarked (numeric c (List.mem_of_mem_head? head))
    exact ⟨inked, unclosed⟩
  halts bound rest _ shuts t tail taken := by
    rcases s with _ | ⟨c, s⟩
    · rw [List.nil_append, nothingValued shuts] at taken
      cases taken
    rcases bound with _ | bound
    · cases taken
    obtain ⟨inked, unmarked, _⟩ := numericUnmarked (numeric c List.mem_cons_self)
    rw [List.cons_append, valueUnmarked inked unmarked] at taken
    obtain ⟨⟨n, tail'⟩, read, same⟩ := Option.map_eq_some_iff.mp taken
    cases same
    obtain ⟨number', followed⟩ := numberOf read
    rw [← List.cons_append] at followed
    rcases List.append_eq_append_iff.mp followed with ⟨more, rfl, rfl⟩ | ⟨more, left, rfl⟩
    · rcases more with _ | ⟨d, more⟩
      · rw [List.append_nil] at number'
        exact absurd number' other
      · obtain ⟨inked', _, unclosed⟩ := numericUnmarked (numberNumeric number' d (by simp))
        have mark := shuts d (by rw [List.cons_append, skipAt inked']; rfl)
        exact absurd mark unclosed
    · rcases more with _ | ⟨d, more⟩
      · rw [List.append_nil] at left
        rw [left] at other
        exact absurd number' other
      · exact ⟨d, more ++ rest, rfl, numeric d (by rw [left]; simp)⟩

section Broken
variable {t : Tree} {ts us : List Tree} {ms ns : List (List Piece × Tree)} {key : List Piece}
  {bound size : Nat} {p q o k m cs tail : List Char}

theorem Halts.apart {taken : Option (Tree × List Char)} (halts : Halts taken) (some' : taken = some (t, tail))
    {c : Char} {more : List Char} (mark : c ∈ [',', ']', '}']) (next : skip tail = c :: more) : False := by
  obtain ⟨d, more', rfl, numeric⟩ := halts t tail some'
  obtain ⟨inked, _, unclosed⟩ := numericUnmarked numeric
  rw [skipAt inked] at next
  cases next
  exact unclosed mark

theorem elementsHalt (halts : Halts (value bound cs)) : elements (bound + 1) cs = none := by
  refine Option.eq_none_iff_forall_ne_some.mpr fun ⟨ts, rest⟩ taken => ?_
  obtain ⟨t, tail, first, ⟨_, closes⟩ | ⟨more, _, comma, _⟩⟩ := elementsOf taken
  · exact halts.apart first (by decide) closes
  · exact halts.apart first (by decide) comma

theorem membersHalt (opens : skip cs = '"' :: k) (named : pieces k = some (key, m)) (colon : skip m = ':' :: q)
    (halts : Halts (value bound q)) : members (bound + 1) cs = none := by
  refine Option.eq_none_iff_forall_ne_some.mpr fun ⟨ms, rest⟩ taken => ?_
  obtain ⟨_, _, _, _, t, tail, first, ends⟩ := membersOf taken
  cases opens.symm.trans first.opens
  cases named.symm.trans first.named
  cases colon.symm.trans first.colon
  obtain ⟨_, closes⟩ | ⟨more, _, comma, _⟩ := ends
  · exact halts.apart first.holds (by decide) closes
  · exact halts.apart first.holds (by decide) comma

theorem elementsPast (written : Written (.elements ts) p)
    (broken : ∀ bound, 2 * size < bound → elements bound tail = none) :
    2 * (p.length + 1 + size) < bound → elements bound (p ++ ',' :: tail) = none := by
  have past : ∀ {t cs tail bound}, Written (.item t) cs → 2 * cs.length ≤ bound → elements bound tail = none →
      elements (bound + 1) (cs ++ ',' :: tail) = none := by
    intro t cs tail bound item long none
    obtain ⟨a, after, read⟩ := taken item bound (',' :: tail) long (markEnds (by decide) tail)
    have comma : skip (a ++ ',' :: tail) = ',' :: tail := (skipBlank after _).trans (skipAt (by decide) tail)
    simp only [elements, read, comma, none, Option.map_none]
  generalize same : Part.elements ts = part at written
  induction written generalizing ts bound <;> cases same
  case lastElement t cs item ih =>
    intro long
    obtain ⟨bound, rfl⟩ : ∃ k, bound = k + 1 := ⟨bound - 1, by omega⟩
    exact past item (by omega) (broken bound (by omega))
  case element t ts cs rest item more ih ih' =>
    intro long
    obtain ⟨bound, rfl⟩ : ∃ k, bound = k + 1 := ⟨bound - 1, by omega⟩
    simp only [List.length_append, List.length_cons] at long
    rw [List.append_assoc, List.cons_append]
    exact past item (by omega) (ih' rfl (by omega))

theorem membersPast (written : Written (.members ms) p)
    (broken : ∀ bound, 2 * size < bound → members bound tail = none) :
    2 * (p.length + 1 + size) < bound → members bound (p ++ ',' :: tail) = none := by
  have past : ∀ {key t cs tail bound}, Written (.member key t) cs → 2 * cs.length ≤ bound →
      members bound tail = none → members (bound + 1) (cs ++ ',' :: tail) = none := by
    intro key t cs tail bound member long none
    obtain ⟨k, mid, v, a, after, first⟩ := taken member bound (',' :: tail) long (markEnds (by decide) tail)
    have comma : skip (a ++ ',' :: tail) = ',' :: tail := (skipBlank after _).trans (skipAt (by decide) tail)
    simp only [members, first.opens, first.named, first.colon, first.holds, comma, none, Option.map_none]
  generalize same : Part.members ms = part at written
  induction written generalizing ms bound <;> cases same
  case lastMember key t cs member ih =>
    intro long
    obtain ⟨bound, rfl⟩ : ∃ k, bound = k + 1 := ⟨bound - 1, by omega⟩
    exact past member (by omega) (broken bound (by omega))
  case anotherMember key t ms cs rest member more ih ih' =>
    intro long
    obtain ⟨bound, rfl⟩ : ∃ k, bound = k + 1 := ⟨bound - 1, by omega⟩
    simp only [List.length_append, List.length_cons] at long
    rw [List.append_assoc, List.cons_append]
    exact past member (by omega) (ih' rfl (by omega))

theorem valueHead (written : Written (.value t) cs) :
    ∃ c rest, cs = c :: rest ∧ c ∉ [' ', '\n', '\t', '\r'] ∧ c ∉ [',', ']', '}'] := by
  cases written with
  | null => exact ⟨_, _, rfl, by decide, by decide⟩
  | yes => exact ⟨_, _, rfl, by decide, by decide⟩
  | no => exact ⟨_, _, rfl, by decide, by decide⟩
  | number number' =>
    obtain ⟨c, rest, rfl, _⟩ := numberHead number'
    obtain ⟨inked, _, unclosed⟩ := numericUnmarked (numberNumeric number' c List.mem_cons_self)
    exact ⟨c, rest, rfl, inked, unclosed⟩
  | string => exact ⟨_, _, rfl, by decide, by decide⟩
  | noElements => exact ⟨_, _, rfl, by decide, by decide⟩
  | array => exact ⟨_, _, rfl, by decide, by decide⟩
  | noMembers => exact ⟨_, _, rfl, by decide, by decide⟩
  | object => exact ⟨_, _, rfl, by decide, by decide⟩

theorem elementsHead (written : Written (.elements ts) p) (rest : List Char) :
    ∃ c more, skip (p ++ rest) = c :: more ∧ c ∉ [',', ']', '}'] := by
  have item : ∀ {t cs}, Written (.item t) cs → ∀ rest,
      ∃ c more, skip (cs ++ rest) = c :: more ∧ c ∉ [',', ']', '}'] := by
    intro t cs written rest
    cases written with
    | item before value after =>
      obtain ⟨c, more, rfl, inked, unclosed⟩ := valueHead value
      rw [List.append_assoc, List.append_assoc, skipBlank before, List.cons_append, skipAt inked]
      exact ⟨c, _, rfl, unclosed⟩
  cases written with
  | lastElement first => exact item first rest
  | element first more =>
    rw [List.append_assoc]
    exact item first _

theorem membersHead (written : Written (.members ms) p) (rest : List Char) :
    ∃ more, skip (p ++ rest) = '"' :: more := by
  have member : ∀ {key t cs}, Written (.member key t) cs → ∀ rest, ∃ more, skip (cs ++ rest) = '"' :: more := by
    intro key t cs written rest
    cases written with
    | member before quoted after item =>
      simp only [List.append_assoc, skipBlank before, List.cons_append, skipAt (by decide : '"' ∉ _)]
      exact ⟨_, rfl⟩
  cases written with
  | lastMember first => exact member first rest
  | anotherMember first more =>
    rw [List.append_assoc]
    exact member first _

theorem arrayBroken (opens : ∀ rest, skip cs ≠ ']' :: rest) (broken : elements bound cs = none) :
    value (bound + 1) ('[' :: cs) = none := by
  have inked : '[' ∉ [' ', '\n', '\t', '\r'] := by decide
  simp only [value, skipAt inked]
  rw [elementsSkip, broken]
  rfl

theorem objectBroken (opens : ∀ rest, skip cs ≠ '}' :: rest) (broken : members bound cs = none) :
    value (bound + 1) ('{' :: cs) = none := by
  have inked : '{' ∉ [' ', '\n', '\t', '\r'] := by decide
  simp only [value, skipAt inked]
  rw [membersSkip, broken]
  rfl

theorem elementsLed (size : Nat) (led : Led .elements ts p) (opens : ∀ rest, skip tail ≠ ']' :: rest)
    (broken : ∀ bound, 2 * size < bound → elements bound tail = none) (long : 2 * (p.length + size) < bound) :
    value (bound + 1) ('[' :: (p ++ tail)) = none := by
  cases led with
  | bare => exact arrayBroken opens (broken bound (by simpa using long))
  | more written =>
    rw [List.append_assoc, List.singleton_append]
    rw [List.length_append, List.length_singleton] at long
    refine arrayBroken (fun rest closes => ?_) (elementsPast written broken long)
    obtain ⟨c, more, starts, unclosed⟩ := elementsHead written (',' :: tail)
    cases starts.symm.trans closes
    exact unclosed (by decide)

theorem membersLed (size : Nat) (led : Led .members ms p) (opens : ∀ rest, skip tail ≠ '}' :: rest)
    (broken : ∀ bound, 2 * size < bound → members bound tail = none) (long : 2 * (p.length + size) < bound) :
    value (bound + 1) ('{' :: (p ++ tail)) = none := by
  cases led with
  | bare => exact objectBroken opens (broken bound (by simpa using long))
  | more written =>
    rw [List.append_assoc, List.singleton_append]
    rw [List.length_append, List.length_singleton] at long
    refine objectBroken (fun rest closes => ?_) (membersPast written broken long)
    obtain ⟨more, starts⟩ := membersHead written (',' :: tail)
    cases starts.symm.trans closes

theorem trailedShuts {α : Type} {part : List α → Part} {xs : List α} (trailed : Trailed part xs q) {c : Char}
    (mark : c ∈ [',', ']', '}']) (rest : List Char) : Shuts (q ++ c :: rest) := by
  cases trailed with
  | bare => exact shutsMark mark rest
  | more => exact shutsMark (by decide) _

end Broken

section Around
variable {C : Tree → Tree} {pre post cs : List Char}

theorem layerBroken (layer : Layer C pre post) (jams : Jams cs) (filled : cs = [] → ∃ ms, C .null = .object ms)
    {bound : Nat} (long : 2 * (pre ++ cs ++ post).length ≤ bound) (rest : List Char) :
    value bound (pre ++ cs ++ post ++ rest) = none := by
  cases layer with
  | @element ts ts' p q b a led before after trailed =>
    obtain ⟨bound, rfl⟩ : ∃ k, bound = k + 1 := ⟨bound - 1, by simp at long; omega⟩
    have shuts : Shuts (a ++ (q ++ ']' :: rest)) := shutsBlank after (trailedShuts trailed (by decide) rest)
    have text : '[' :: (p ++ b) ++ cs ++ (a ++ q ++ [']']) ++ rest =
        '[' :: (p ++ (b ++ (cs ++ (a ++ (q ++ ']' :: rest))))) := by simp
    rw [text]
    refine elementsLed (b ++ cs).length led (fun rest closes => ?_) (fun bound long => ?_) ?_
    · obtain ⟨c, cs, rfl⟩ : ∃ c more, cs = c :: more := by
        refine List.exists_cons_of_ne_nil fun none => ?_
        obtain ⟨ms, same⟩ := filled none
        cases same
      obtain ⟨inked, unclosed⟩ := jams.inked c rfl
      rw [skipBlank before, List.cons_append, skipAt inked] at closes
      cases closes
      exact unclosed (by decide)
    · obtain ⟨bound, rfl⟩ : ∃ k, bound = k + 1 := ⟨bound - 1, by omega⟩
      rw [List.length_append] at long
      refine elementsHalt ?_
      rw [valueBlank before]
      exact jams.halts bound _ (by omega) shuts
    · simp at long ⊢
      omega
  | @member ms ms' p q key o k m b a led opening quoted middle before after trailed =>
    obtain ⟨bound, rfl⟩ : ∃ k, bound = k + 1 := ⟨bound - 1, by simp at long; omega⟩
    have shuts : Shuts (a ++ (q ++ '}' :: rest)) := shutsBlank after (trailedShuts trailed (by decide) rest)
    have text : '{' :: (p ++ (o ++ '"' :: k ++ '"' :: m ++ ':' :: b)) ++ cs ++ (a ++ q ++ ['}']) ++ rest =
        '{' :: (p ++ (o ++ '"' :: (k ++ '"' :: (m ++ ':' :: (b ++ (cs ++ (a ++ (q ++ '}' :: rest)))))))) := by simp
    have opens : ∀ tail, skip (o ++ '"' :: tail) = '"' :: tail :=
      fun tail => (skipBlank opening _).trans (skipAt (by decide) tail)
    rw [text]
    refine membersLed cs.length led (fun rest closes => ?_) (fun bound long => ?_) ?_
    · rw [opens] at closes
      cases closes
    · obtain ⟨bound, rfl⟩ : ∃ k, bound = k + 1 := ⟨bound - 1, by omega⟩
      refine membersHalt (opens _) (piecesRead quoted _) ((skipBlank middle _).trans (skipAt (by decide) _)) ?_
      rw [valueBlank before]
      exact jams.halts bound _ (by omega) shuts
    · simp at long ⊢
      omega

theorem layerHead (layer : Layer C pre post) : ∃ c more, pre = c :: more ∧ c ∈ ['[', '{'] := by
  cases layer with
  | element => exact ⟨_, _, rfl, by decide⟩
  | member => exact ⟨_, _, rfl, by decide⟩

theorem layerJams (layer : Layer C pre post) (jams : Jams cs) (filled : cs = [] → ∃ ms, C .null = .object ms) :
    Jams (pre ++ cs ++ post) where
  inked c head := by
    obtain ⟨d, more, rfl, opens⟩ := layerHead layer
    cases head
    simp only [List.mem_cons, List.not_mem_nil, or_false] at opens
    rcases opens with rfl | rfl <;> decide
  halts bound rest long _ t tail taken := by
    rw [layerBroken layer jams filled long] at taken
    cases taken

end Around

theorem jamRefused {cs b a : List Char} (jams : Jams cs) (before : Blank b) (after : Blank a) :
    read (b ++ cs ++ a) = none := by
  have ended : Shuts a := by
    have shuts := shutsBlank after (nofun : Shuts [])
    rwa [List.append_nil] at shuts
  have halts := jams.halts (2 * (b ++ (cs ++ a)).length + 2) a (by simp only [List.length_append]; omega) ended
  rw [read, List.append_assoc, valueBlank before]
  split
  · rename_i t rest taken
    obtain ⟨c, more, rfl, numeric⟩ := halts t rest taken
    rw [skipAt (numericUnmarked numeric).1]
    rfl
  · rfl

end Reader
end AtomicUpdate.Json
