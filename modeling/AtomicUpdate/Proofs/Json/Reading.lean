import AtomicUpdate.Proofs.Json.Literals

/-! The reader takes the texts of the grammar, and no others. Both directions go by what one step of it reads:
a value up to what comes behind it, an element or a member up to the mark that ends it. -/
namespace AtomicUpdate.Json.Reader

theorem skipTwice (cs : List Char) : skip (skip cs) = skip cs := by
  obtain ⟨b, blank, same⟩ := skipped cs
  have again := skipBlank blank (skip cs)
  rw [← same] at again
  exact again.symm

theorem valueSkip (bound : Nat) (cs : List Char) : value bound (skip cs) = value bound cs := by
  cases bound with
  | zero => rfl
  | succ bound => rw [value, value, skipTwice]

theorem elementsSkip (bound : Nat) (cs : List Char) : elements bound (skip cs) = elements bound cs := by
  cases bound with
  | zero => rfl
  | succ bound => rw [elements, elements, valueSkip]

theorem membersSkip (bound : Nat) (cs : List Char) : members bound (skip cs) = members bound cs := by
  cases bound with
  | zero => rfl
  | succ bound => rw [members, members, skipTwice]

theorem valueBlank {b : List Char} (blank : Blank b) (bound : Nat) (cs : List Char) :
    value bound (b ++ cs) = value bound cs := by
  rw [← valueSkip, skipBlank blank, valueSkip]

theorem blankEnds {a rest : List Char} (blank : Blank a) (ends : Ends rest) : Ends (a ++ rest) := by
  cases a with
  | nil => exact ends
  | cons c a =>
    have here := blank c List.mem_cons_self
    simp only [List.mem_cons, List.not_mem_nil, or_false] at here
    rcases here with rfl | rfl | rfl | rfl <;> refine ⟨?_, ?_⟩ <;> rintro _ ⟨⟩ <;> decide

theorem markEnds {c : Char} (mark : c ∈ [',', ']', '}']) (rest : List Char) : Ends (c :: rest) := by
  simp only [List.mem_cons, List.not_mem_nil, or_false] at mark
  rcases mark with rfl | rfl | rfl <;> refine ⟨?_, ?_⟩ <;> rintro _ ⟨⟩ <;> decide

theorem valueUnmarked {c : Char} (inked : c ∉ [' ', '\n', '\t', '\r'])
    (unmarked : c ∉ ['n', 't', 'f', '"', '[', '{']) (bound : Nat) (cs : List Char) :
    value (bound + 1) (c :: cs) = (number (c :: cs)).map fun (n, rest) => (.number n, rest) := by
  rw [value, skipAt inked]
  split
  all_goals first | rfl | (rename_i same; exact absurd (by simp [(List.cons.inj same).1]) unmarked)

theorem numberUnmarked {c : Char} (leads : c = '-' ∨ c.isDigit = true) :
    c ∉ [' ', '\n', '\t', '\r'] ∧ c ∉ ['n', 't', 'f', '"', '[', '{'] := by
  have all : ([' ', '\n', '\t', '\r', 'n', 't', 'f', '"', '[', '{'].all fun c => !c.isDigit) = true := by decide
  have undigited := List.all_eq_true.mp all c
  rcases leads with rfl | digit
  · decide
  · rw [digit] at undigited
    refine ⟨fun mem => ?_, fun mem => ?_⟩
    · cases undigited (List.mem_append_left ['n', 't', 'f', '"', '[', '{'] mem)
    · cases undigited (List.mem_append_right [' ', '\n', '\t', '\r'] mem)

theorem valueNumber {n rest : List Char} (number' : Number n) (ends : Ends rest) (bound : Nat) :
    value (bound + 1) (n ++ rest) = some (.number n, rest) := by
  have read := numberRead number' ends
  obtain ⟨c, tail, rfl, leads⟩ := numberHead number'
  obtain ⟨inked, unmarked⟩ := numberUnmarked leads
  rw [List.cons_append] at read ⊢
  rw [valueUnmarked inked unmarked, read]
  rfl

theorem valueString (bound : Nat) (cs : List Char) :
    value (bound + 1) ('"' :: cs) = (pieces cs).map fun (ps, rest) => (.string ps, rest) := rfl

theorem noElementCloses (bound : Nat) (cs : List Char) : elements bound (']' :: cs) = none := by
  rcases bound with _ | _ | bound
  · rfl
  · rfl
  · rw [elements, valueUnmarked (by decide) (by decide)]
    rfl

theorem noMemberCloses (bound : Nat) (cs : List Char) : members bound ('}' :: cs) = none := by
  cases bound <;> rfl

theorem valueArray {bound : Nat} {cs rest : List Char} {ts : List Tree} :
    value (bound + 1) ('[' :: cs) = some (.array ts, rest) ↔
      ts = [] ∧ skip cs = ']' :: rest ∨ elements bound cs = some (ts, rest) := by
  have inked : '[' ∉ [' ', '\n', '\t', '\r'] := by decide
  simp only [value, skipAt inked]
  split
  · rename_i rest' closes
    rw [closes]
    constructor
    · rintro ⟨⟩
      exact Or.inl ⟨rfl, rfl⟩
    · rintro (⟨rfl, same⟩ | read)
      · cases same
        rfl
      · rw [← elementsSkip, closes, noElementCloses] at read
        cases read
  · rename_i open'
    rw [elementsSkip]
    constructor
    · intro read
      obtain ⟨⟨ts', rest'⟩, inner, same⟩ := Option.map_eq_some_iff.mp read
      cases same
      exact Or.inr inner
    · rintro (⟨_, closes⟩ | read)
      · exact absurd closes (open' rest)
      · rw [read]
        rfl

theorem valueObject {bound : Nat} {cs rest : List Char} {ms : List (List Piece × Tree)} :
    value (bound + 1) ('{' :: cs) = some (.object ms, rest) ↔
      ms = [] ∧ skip cs = '}' :: rest ∨ members bound cs = some (ms, rest) := by
  have inked : '{' ∉ [' ', '\n', '\t', '\r'] := by decide
  simp only [value, skipAt inked]
  split
  · rename_i rest' closes
    rw [closes]
    constructor
    · rintro ⟨⟩
      exact Or.inl ⟨rfl, rfl⟩
    · rintro (⟨rfl, same⟩ | read)
      · cases same
        rfl
      · rw [← membersSkip, closes, noMemberCloses] at read
        cases read
  · rename_i open'
    rw [membersSkip]
    constructor
    · intro read
      obtain ⟨⟨ms', rest'⟩, inner, same⟩ := Option.map_eq_some_iff.mp read
      cases same
      exact Or.inr inner
    · rintro (⟨_, closes⟩ | read)
      · exact absurd closes (open' rest)
      · rw [read]
        rfl

theorem elementsLast {bound : Nat} {cs tail rest : List Char} {t : Tree}
    (read : value bound cs = some (t, tail)) (closes : skip tail = ']' :: rest) :
    elements (bound + 1) cs = some ([t], rest) := by
  simp only [elements, read, closes]

theorem elementsMore {bound : Nat} {cs tail more rest : List Char} {t : Tree} {ts : List Tree}
    (read : value bound cs = some (t, tail)) (comma : skip tail = ',' :: more)
    (others : elements bound more = some (ts, rest)) : elements (bound + 1) cs = some (t :: ts, rest) := by
  simp only [elements, read, comma, others, Option.map_some]

theorem elementsOf {bound : Nat} {cs rest : List Char} {ts : List Tree}
    (read : elements (bound + 1) cs = some (ts, rest)) : ∃ t tail, value bound cs = some (t, tail) ∧
      (ts = [t] ∧ skip tail = ']' :: rest ∨
        ∃ more ts', skip tail = ',' :: more ∧ elements bound more = some (ts', rest) ∧ ts = t :: ts') := by
  rw [elements] at read
  split at read
  · cases read
  · rename_i t tail first
    refine ⟨t, tail, first, ?_⟩
    split at read
    · rename_i more comma
      obtain ⟨⟨ts', rest'⟩, others, same⟩ := Option.map_eq_some_iff.mp read
      cases same
      exact Or.inr ⟨more, ts', comma, others, rfl⟩
    · rename_i rest' closes
      cases read
      exact Or.inl ⟨rfl, closes⟩
    · cases read

structure MemberAt (bound : Nat) (cs k mid v : List Char) (key : List Piece) (t : Tree) (tail : List Char) :
    Prop where
  opens : skip cs = '"' :: k
  named : pieces k = some (key, mid)
  colon : skip mid = ':' :: v
  holds : value bound v = some (t, tail)

theorem membersLast {bound : Nat} {cs k mid v tail rest : List Char} {key : List Piece} {t : Tree}
    (first : MemberAt bound cs k mid v key t tail) (closes : skip tail = '}' :: rest) :
    members (bound + 1) cs = some ([(key, t)], rest) := by
  simp only [members, first.opens, first.named, first.colon, first.holds, closes]

theorem membersMore {bound : Nat} {cs k mid v tail more rest : List Char} {key : List Piece} {t : Tree}
    {ms : List (List Piece × Tree)} (first : MemberAt bound cs k mid v key t tail)
    (comma : skip tail = ',' :: more) (others : members bound more = some (ms, rest)) :
    members (bound + 1) cs = some ((key, t) :: ms, rest) := by
  simp only [members, first.opens, first.named, first.colon, first.holds, comma, others, Option.map_some]

theorem membersOf {bound : Nat} {cs rest : List Char} {ms : List (List Piece × Tree)}
    (read : members (bound + 1) cs = some (ms, rest)) : ∃ k mid v key t tail,
      MemberAt bound cs k mid v key t tail ∧ (ms = [(key, t)] ∧ skip tail = '}' :: rest ∨
        ∃ more ms', skip tail = ',' :: more ∧ members bound more = some (ms', rest) ∧ ms = (key, t) :: ms') := by
  rw [members] at read
  split at read
  · rename_i k opens
    split at read
    · cases read
    · rename_i key mid named
      split at read
      · rename_i v colon
        split at read
        · cases read
        · rename_i t tail holds
          refine ⟨k, mid, v, key, t, tail, ⟨opens, named, colon, holds⟩, ?_⟩
          split at read
          · rename_i more comma
            obtain ⟨⟨ms', rest'⟩, others, same⟩ := Option.map_eq_some_iff.mp read
            cases same
            exact Or.inr ⟨more, ms', comma, others, rfl⟩
          · rename_i rest' closes
            cases read
            exact Or.inl ⟨rfl, closes⟩
          · cases read
      · cases read
  · cases read

def Taken (cs : List Char) : Part → Prop
  | .value t => ∀ bound rest, 2 * cs.length ≤ bound → Ends rest → value bound (cs ++ rest) = some (t, rest)
  | .item t => ∀ bound rest, 2 * cs.length ≤ bound → Ends rest →
      ∃ a, Blank a ∧ value bound (cs ++ rest) = some (t, a ++ rest)
  | .elements ts => ∀ bound rest, 2 * cs.length < bound → elements bound (cs ++ ']' :: rest) = some (ts, rest)
  | .member key t => ∀ bound rest, 2 * cs.length ≤ bound → Ends rest →
      ∃ k mid v a, Blank a ∧ MemberAt bound (cs ++ rest) k mid v key t (a ++ rest)
  | .members ms => ∀ bound rest, 2 * cs.length < bound → members bound (cs ++ '}' :: rest) = some (ms, rest)

theorem taken {part : Part} {cs : List Char} (written : Written part cs) : Taken cs part := by
  -- Each level of nesting costs two steps of the bound, and two marks of the text.
  induction written with
  | null =>
    rintro (_ | bound) rest long ends
    · cases long
    · rfl
  | yes =>
    rintro (_ | bound) rest long ends
    · cases long
    · rfl
  | no =>
    rintro (_ | bound) rest long ends
    · cases long
    · rfl
  | @number n number' =>
    rintro (_ | bound) rest long ends
    · obtain ⟨c, tail, rfl, _⟩ := numberHead number'
      cases long
    · exact valueNumber number' ends bound
  | @string cs ps quoted =>
    rintro (_ | bound) rest long ends
    · cases long
    · rw [List.cons_append, List.cons_append, List.append_assoc, valueString, List.singleton_append,
        piecesRead quoted]
      rfl
  | @noElements b blank =>
    rintro (_ | bound) rest long ends
    · cases long
    · rw [List.cons_append, List.cons_append, List.append_assoc, valueArray]
      exact Or.inl ⟨rfl, (skipBlank blank _).trans (skipAt (by decide) rest)⟩
  | @array ts cs elements ih =>
    rintro (_ | bound) rest long ends
    · cases long
    · rw [List.cons_append, List.cons_append, List.append_assoc, valueArray]
      refine Or.inr (ih bound rest ?_)
      simp only [List.cons_append, List.length_cons, List.length_append, List.length_nil] at long
      omega
  | @noMembers b blank =>
    rintro (_ | bound) rest long ends
    · cases long
    · rw [List.cons_append, List.cons_append, List.append_assoc, valueObject]
      exact Or.inl ⟨rfl, (skipBlank blank _).trans (skipAt (by decide) rest)⟩
  | @object ms cs members ih =>
    rintro (_ | bound) rest long ends
    · cases long
    · rw [List.cons_append, List.cons_append, List.append_assoc, valueObject]
      refine Or.inr (ih bound rest ?_)
      simp only [List.cons_append, List.length_cons, List.length_append, List.length_nil] at long
      omega
  | @item t b cs a before value after ih =>
    intro bound rest long ends
    refine ⟨a, after, ?_⟩
    rw [List.append_assoc, List.append_assoc, valueBlank before]
    refine ih bound (a ++ rest) ?_ (blankEnds after ends)
    simp only [List.length_append] at long
    omega
  | @lastElement t cs item ih =>
    rintro (_ | bound) rest long
    · cases long
    · obtain ⟨a, after, read⟩ := ih bound (']' :: rest) (by omega) (markEnds (by decide) rest)
      exact elementsLast read ((skipBlank after _).trans (skipAt (by decide) rest))
  | @element t ts cs more item others ih ih' =>
    rintro (_ | bound) rest long
    · cases long
    · simp only [List.length_append, List.length_cons] at long
      obtain ⟨a, after, read⟩ := ih bound (',' :: (more ++ ']' :: rest)) (by omega) (markEnds (by decide) _)
      rw [List.append_assoc, List.cons_append]
      exact elementsMore read ((skipBlank after _).trans (skipAt (by decide) _)) (ih' bound rest (by omega))
  | @member key t b k a cs before quoted after item ih =>
    intro bound rest long ends
    simp only [List.length_append, List.length_cons] at long
    obtain ⟨a', after', read⟩ := ih bound rest (by omega) ends
    refine ⟨k ++ '"' :: (a ++ ':' :: (cs ++ rest)), a ++ ':' :: (cs ++ rest), cs ++ rest, a', after', ?_,
      piecesRead quoted _, (skipBlank after _).trans (skipAt (by decide) _), read⟩
    simp only [List.append_assoc, List.cons_append]
    exact (skipBlank before _).trans (skipAt (by decide) _)
  | @lastMember key t cs member ih =>
    rintro (_ | bound) rest long
    · cases long
    · obtain ⟨k, mid, v, a, after, first⟩ := ih bound ('}' :: rest) (by omega) (markEnds (by decide) rest)
      exact membersLast first ((skipBlank after _).trans (skipAt (by decide) rest))
  | @anotherMember key t ms cs more member others ih ih' =>
    rintro (_ | bound) rest long
    · cases long
    · simp only [List.length_append, List.length_cons] at long
      obtain ⟨k, mid, v, a, after, first⟩ :=
        ih bound (',' :: (more ++ '}' :: rest)) (by omega) (markEnds (by decide) _)
      rw [List.append_assoc, List.cons_append]
      exact membersMore first ((skipBlank after _).trans (skipAt (by decide) _)) (ih' bound rest (by omega))

structure Lawful (bound : Nat) : Prop where
  value : ∀ {cs t rest}, value bound cs = some (t, rest) →
    ∃ b text, Blank b ∧ Written (.value t) text ∧ cs = b ++ (text ++ rest)
  elements : ∀ {cs ts rest}, elements bound cs = some (ts, rest) →
    ∃ text, Written (.elements ts) text ∧ cs = text ++ ']' :: rest
  members : ∀ {cs ms rest}, members bound cs = some (ms, rest) →
    ∃ text, Written (.members ms) text ∧ cs = text ++ '}' :: rest

variable {bound : Nat}

theorem valueLawful (lawful : Lawful bound) {cs rest : List Char} {t : Tree}
    (read : value (bound + 1) cs = some (t, rest)) : ∃ text, Written (.value t) text ∧ skip cs = text ++ rest := by
  rw [value] at read
  split at read
  · rename_i opens
    cases read
    exact ⟨_, .null, opens⟩
  · rename_i opens
    cases read
    exact ⟨_, .yes, opens⟩
  · rename_i opens
    cases read
    exact ⟨_, .no, opens⟩
  · rename_i tail opens
    obtain ⟨⟨ps, rest'⟩, inner, same⟩ := Option.map_eq_some_iff.mp read
    cases same
    obtain ⟨text, quoted, rfl⟩ := piecesOf inner
    exact ⟨_, .string quoted, by simp [opens]⟩
  · rename_i tail opens
    split at read
    · rename_i rest' closes
      cases read
      obtain ⟨b, blank, same⟩ := skipped tail
      exact ⟨_, .noElements blank, by rw [opens, same, closes]; simp⟩
    · obtain ⟨⟨ts, rest'⟩, inner, same⟩ := Option.map_eq_some_iff.mp read
      cases same
      rw [elementsSkip] at inner
      obtain ⟨text, written, rfl⟩ := lawful.elements inner
      exact ⟨_, .array written, by simp [opens]⟩
  · rename_i tail opens
    split at read
    · rename_i rest' closes
      cases read
      obtain ⟨b, blank, same⟩ := skipped tail
      exact ⟨_, .noMembers blank, by rw [opens, same, closes]; simp⟩
    · obtain ⟨⟨ms, rest'⟩, inner, same⟩ := Option.map_eq_some_iff.mp read
      cases same
      rw [membersSkip] at inner
      obtain ⟨text, written, rfl⟩ := lawful.members inner
      exact ⟨_, .object written, by simp [opens]⟩
  · obtain ⟨⟨n, rest'⟩, inner, same⟩ := Option.map_eq_some_iff.mp read
    cases same
    obtain ⟨number, followed⟩ := numberOf inner
    exact ⟨n, .number number, followed⟩

theorem itemLawful (lawful : Lawful bound) {cs tail next : List Char} {t : Tree}
    (read : value bound cs = some (t, tail)) (stops : skip tail = next) :
    ∃ text, Written (.item t) text ∧ cs = text ++ next := by
  obtain ⟨b, text, before, written, same⟩ := lawful.value read
  obtain ⟨a, after, followed⟩ := skipped tail
  exact ⟨_, .item before written after, by rw [same, followed, stops]; simp⟩

theorem elementsLawful (lawful : Lawful bound) {cs rest : List Char} {ts : List Tree}
    (read : elements (bound + 1) cs = some (ts, rest)) :
    ∃ text, Written (.elements ts) text ∧ cs = text ++ ']' :: rest := by
  obtain ⟨t, tail, first, ⟨rfl, closes⟩ | ⟨more, ts', comma, others, rfl⟩⟩ := elementsOf read
  · obtain ⟨text, item, rfl⟩ := itemLawful lawful first closes
    exact ⟨text, .lastElement item, rfl⟩
  · obtain ⟨text, item, rfl⟩ := itemLawful lawful first comma
    obtain ⟨text', written, rfl⟩ := lawful.elements others
    exact ⟨_, .element item written, by simp⟩

theorem memberLawful (lawful : Lawful bound) {cs k mid v tail next : List Char} {key : List Piece} {t : Tree}
    (first : MemberAt bound cs k mid v key t tail) (stops : skip tail = next) :
    ∃ text, Written (.member key t) text ∧ cs = text ++ next := by
  obtain ⟨b, before, same⟩ := skipped cs
  obtain ⟨name, quoted, rfl⟩ := piecesOf first.named
  obtain ⟨a, after, followed⟩ := skipped mid
  obtain ⟨text, item, rfl⟩ := itemLawful lawful first.holds stops
  refine ⟨_, .member before quoted after item, ?_⟩
  rw [same, first.opens, followed, first.colon]
  simp

theorem membersLawful (lawful : Lawful bound) {cs rest : List Char} {ms : List (List Piece × Tree)}
    (read : members (bound + 1) cs = some (ms, rest)) :
    ∃ text, Written (.members ms) text ∧ cs = text ++ '}' :: rest := by
  obtain ⟨k, mid, v, key, t, tail, first, ⟨rfl, closes⟩ | ⟨more, ms', comma, others, rfl⟩⟩ := membersOf read
  · obtain ⟨text, member, rfl⟩ := memberLawful lawful first closes
    exact ⟨text, .lastMember member, rfl⟩
  · obtain ⟨text, member, rfl⟩ := memberLawful lawful first comma
    obtain ⟨text', written, rfl⟩ := lawful.members others
    exact ⟨_, .anotherMember member written, by simp⟩

theorem lawful (bound : Nat) : Lawful bound := by
  induction bound with
  | zero => exact ⟨nofun, nofun, nofun⟩
  | succ bound ih =>
    refine ⟨fun {cs t rest} read => ?_, elementsLawful ih, membersLawful ih⟩
    obtain ⟨b, blank, same⟩ := skipped cs
    obtain ⟨text, written, followed⟩ := valueLawful ih read
    exact ⟨b, text, blank, written, by rw [← followed]; exact same⟩

theorem readExact (text : List Char) (t : Tree) : read text = some t ↔ Spells text t := by
  constructor
  · intro taken
    unfold read at taken
    split at taken
    · rename_i t' rest value'
      split at taken
      · rename_i closed
        cases taken
        obtain ⟨text', item, same⟩ := itemLawful (lawful _) value' (List.isEmpty_iff.mp closed)
        rw [same, List.append_nil]
        exact item
      · cases taken
    · cases taken
  · intro spells
    have ends : Ends [] := ⟨nofun, nofun⟩
    obtain ⟨a, after, value'⟩ := taken spells (2 * text.length + 2) [] (by omega) ends
    rw [List.append_nil] at value'
    unfold read
    rw [value']
    dsimp only
    rw [skipBlank after]
    rfl

end AtomicUpdate.Json.Reader
