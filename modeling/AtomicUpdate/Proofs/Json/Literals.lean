import AtomicUpdate.Json.Reader
import AtomicUpdate.Proofs.Json.Grammar
import Mathlib.Data.List.TakeWhile

/-! Blanks, strings and numbers as the reader takes them from the front of a text: just what the grammar has
there. A number is taken as far as it goes, so something has to stop it. -/
namespace AtomicUpdate.Json.Reader

theorem blankExact (c : Char) : isBlank c = true ↔ c ∈ [' ', '\n', '\t', '\r'] := by
  simp [isBlank, or_assoc]

theorem skipBlank {b : List Char} (blank : Blank b) (cs : List Char) : skip (b ++ cs) = skip cs := by
  induction b with
  | nil => rfl
  | cons c b ih =>
    have here : isBlank c = true := (blankExact c).mpr (blank c List.mem_cons_self)
    rw [List.cons_append, skip, List.dropWhile_cons_of_pos here]
    exact ih fun c mem => blank c (List.mem_cons_of_mem _ mem)

theorem skipAt {c : Char} (inked : c ∉ [' ', '\n', '\t', '\r']) (cs : List Char) :
    skip (c :: cs) = c :: cs := by
  have here : ¬ isBlank c = true := fun blank => inked ((blankExact c).mp blank)
  rw [skip, List.dropWhile_cons_of_neg here]

theorem skipped (cs : List Char) : ∃ b, Blank b ∧ cs = b ++ skip cs :=
  ⟨cs.takeWhile isBlank, fun c mem => (blankExact c).mp (List.mem_takeWhile_imp mem),
    List.takeWhile_append_dropWhile.symm⟩

section Strings

theorem hexRead {c : Char} {n : Nat} (digit : HexDigit c n) : hexDigit? c = some n := by
  have small : ∀ n < 16, "0123456789abcdef".toList[n]?.bind hexDigit? = some n := by decide
  have large : ∀ n < 16, "0123456789ABCDEF".toList[n]?.bind hexDigit? = some n := by decide
  rcases digit with lower | upper
  · have read := small n (List.getElem?_eq_some_iff.mp lower).1
    rwa [lower] at read
  · have read := large n (List.getElem?_eq_some_iff.mp upper).1
    rwa [upper] at read

theorem notAbove {c d : Char} (below : c ≤ d) : c.toNat ≤ d.toNat := by
  rw [Char.le_def, UInt32.le_iff_toNat_le] at below
  exact below

theorem hexOf {c : Char} {n : Nat} (read : hexDigit? c = some n) : HexDigit c n := by
  have all : ∀ k < 128, ∀ n ∈ hexDigit? (Char.ofNat k), HexDigit (Char.ofNat k) n := by
    unfold HexDigit
    decide
  have bound : c ≤ '9' ∨ c ≤ 'f' ∨ c ≤ 'F' := by
    unfold hexDigit? at read
    split at read
    · rename_i digit
      simp only [Char.isDigit, Bool.and_eq_true, decide_eq_true_eq] at digit
      exact Or.inl digit.2
    split at read
    · rename_i lower
      simp only [Bool.and_eq_true, decide_eq_true_eq] at lower
      exact Or.inr (Or.inl lower.2)
    split at read
    · rename_i upper
      simp only [Bool.and_eq_true, decide_eq_true_eq] at upper
      exact Or.inr (Or.inr upper.2)
    · cases read
  have small : c.toNat < 128 := by
    rcases bound with below | below | below <;> exact Nat.lt_of_le_of_lt (notAbove below) (by decide)
  have same := Char.ofNat_toNat c
  rw [← same] at read ⊢
  exact all c.toNat small n read

theorem codeOf {a b c d : Char} {n : Nat} (read : hex4? a b c d = some n) : ∃ i j k l, HexDigit a i ∧
    HexDigit b j ∧ HexDigit c k ∧ HexDigit d l ∧ n = ((i * 16 + j) * 16 + k) * 16 + l := by
  simp only [hex4?, bind, Option.bind_eq_some_iff] at read
  obtain ⟨i, first, j, second, k, third, l, fourth, same⟩ := read
  exact ⟨i, j, k, l, hexOf first, hexOf second, hexOf third, hexOf fourth, (Option.some.inj same).symm⟩

theorem escapeExact (c d : Char) : escaped? c = some d ↔ (c, d) ∈ escapes := by
  unfold escaped? escapes
  constructor
  · intro read
    split at read
    · rename_i same
      cases read
      simp only [Bool.or_eq_true, decide_eq_true_eq] at same
      rcases same with (rfl | rfl) | rfl <;> decide
    repeat' split at read
    all_goals simp_all
    all_goals exact read.symm
  · intro mem
    simp only [List.mem_cons, Prod.mk.injEq, List.not_mem_nil, or_false] at mem
    rcases mem with ⟨rfl, rfl⟩ | ⟨rfl, rfl⟩ | ⟨rfl, rfl⟩ | ⟨rfl, rfl⟩ | ⟨rfl, rfl⟩ | ⟨rfl, rfl⟩ | ⟨rfl, rfl⟩ |
      ⟨rfl, rfl⟩ <;> rfl

theorem piecesRead {cs : List Char} {ps : List Piece} (quoted : Quoted cs ps) (rest : List Char) :
    pieces (cs ++ '"' :: rest) = some (ps, rest) := by
  induction quoted with
  | empty => simp [pieces]
  | @plain c cs ps visible unquoted unescaped more ih =>
    rw [List.cons_append, pieces.eq_4 _ _ (fun _ _ _ _ _ same => absurd same unescaped)
      (fun _ _ same => absurd same unescaped), if_neg unquoted, if_neg, ih]
    · rfl
    · simp [unescaped, Nat.not_lt.mpr visible]
  | @escape c d cs ps letter more ih =>
    have read := (escapeExact c d).mpr letter
    have notCode : c ≠ 'u' := by
      rintro rfl
      cases read
    rw [List.cons_append, List.cons_append, pieces.eq_3 _ _ (fun _ _ _ _ _ same => absurd same notCode), read, ih]
    rfl
  | @code a b c d i j k l cs ps first second third fourth more ih =>
    have read : hex4? a b c d = some (((i * 16 + j) * 16 + k) * 16 + l) := by
      rw [hex4?, hexRead first, hexRead second, hexRead third, hexRead fourth]
      rfl
    simp only [List.cons_append]
    rw [pieces.eq_2, read, ih]
    rfl

theorem piecesOf {cs rest : List Char} {ps : List Piece} (read : pieces cs = some (ps, rest)) :
    ∃ text, Quoted text ps ∧ cs = text ++ '"' :: rest := by
  fun_induction pieces cs generalizing ps with
  | case1 => cases read
  | case2 a b c d more ih =>
    simp only [bind, Option.bind_eq_some_iff] at read
    obtain ⟨n, code, ⟨ps', rest'⟩, inner, same⟩ := read
    cases same
    obtain ⟨text, quoted, rfl⟩ := ih inner
    obtain ⟨i, j, k, l, first, second, third, fourth, rfl⟩ := codeOf code
    exact ⟨_, .code first second third fourth quoted, rfl⟩
  | case3 c more other ih =>
    simp only [bind, Option.bind_eq_some_iff] at read
    obtain ⟨d, letter, ⟨ps', rest'⟩, inner, same⟩ := read
    cases same
    obtain ⟨text, quoted, rfl⟩ := ih inner
    exact ⟨_, .escape ((escapeExact c d).mp letter) quoted, rfl⟩
  | case4 cs other other' =>
    cases read
    exact ⟨[], .empty, rfl⟩
  | case5 c cs other other' unquoted barred => cases read
  | case6 c cs other other' unquoted free ih =>
    simp only [bind, Option.bind_eq_some_iff] at read
    obtain ⟨⟨ps', rest'⟩, inner, same⟩ := read
    cases same
    obtain ⟨text, quoted, rfl⟩ := ih inner
    simp only [Bool.or_eq_true, decide_eq_true_eq, not_or, Nat.not_lt] at free
    exact ⟨_, .plain free.1 unquoted free.2 quoted, rfl⟩

end Strings

def Undigited (rest : List Char) : Prop := ∀ c ∈ rest.head?, c.isDigit = false

def Ends (rest : List Char) : Prop := Undigited rest ∧ ∀ c ∈ rest.head?, c ∉ ['.', 'e', 'E']

section Numbers
variable {rest : List Char}

theorem digitsRead {ds : List Char} (number : Digits ds) (stop : Undigited rest) :
    digits (ds ++ rest) = some (ds, rest) := by
  obtain ⟨some', all⟩ := number
  have every : ∀ c ∈ ds, c.isDigit = true := List.all_eq_true.mp all
  have none : rest.takeWhile Char.isDigit = [] ∧ rest.dropWhile Char.isDigit = rest := by
    cases rest with
    | nil => exact ⟨rfl, rfl⟩
    | cons c rest => simp [stop c rfl]
  unfold digits
  rw [List.takeWhile_append_of_pos every, List.dropWhile_append_of_pos every, none.1, none.2, List.append_nil]
  cases ds with
  | nil => exact absurd rfl some'
  | cons d ds => rfl

theorem digitsOf {cs ds : List Char} (read : digits cs = some (ds, rest)) : Digits ds ∧ cs = ds ++ rest := by
  unfold digits at read
  split at read
  · cases read
  · rename_i d ds' taken
    cases read
    refine ⟨⟨List.cons_ne_nil _ _, ?_⟩, ?_⟩
    · rw [← taken]
      exact List.all_takeWhile
    · rw [← taken]
      exact List.takeWhile_append_dropWhile.symm

theorem wholeRead {w : List Char} (number : Whole w) (stop : Undigited rest) :
    whole (w ++ rest) = some (w, rest) := by
  cases number with
  | zero => rfl
  | @number d ds number leads =>
    rw [List.cons_append, whole.eq_2 _ fun _ same => leads (List.cons.inj same).1]
    exact digitsRead number stop

theorem wholeOf {cs w : List Char} (read : whole cs = some (w, rest)) : Whole w ∧ cs = w ++ rest := by
  unfold whole at read
  split at read
  · cases read
    exact ⟨.zero, rfl⟩
  · rename_i notZero
    obtain ⟨number, rfl⟩ := digitsOf read
    cases w with
    | nil => exact absurd rfl number.1
    | cons d ds => exact ⟨.number number fun same => notZero (ds ++ rest) (by rw [same]; rfl), rfl⟩

theorem fractionRead {f : List Char} (number : Fraction f) (stop : Undigited rest)
    (past : ∀ c ∈ rest.head?, c ≠ '.') : fraction (f ++ rest) = some (f, rest) := by
  cases number with
  | none =>
    rw [List.nil_append, fraction.eq_2]
    rintro tail rfl
    exact past '.' rfl rfl
  | point number =>
    rw [List.cons_append, fraction, digitsRead number stop]
    rfl

theorem fractionOf {cs f : List Char} (read : fraction cs = some (f, rest)) : Fraction f ∧ cs = f ++ rest := by
  unfold fraction at read
  split at read
  · obtain ⟨⟨ds, rest'⟩, inner, same⟩ := Option.map_eq_some_iff.mp read
    cases same
    obtain ⟨number, rfl⟩ := digitsOf inner
    exact ⟨.point number, rfl⟩
  · cases read
    exact ⟨.none, rfl⟩

theorem exponentRead {x : List Char} (number : Exponent x) (ends : Ends rest) :
    exponent (x ++ rest) = some (x, rest) := by
  cases number with
  | none =>
    cases rest with
    | nil => rfl
    | cons c rest =>
      have other := ends.2 c rfl
      simp only [List.mem_cons, List.not_mem_nil, or_false, not_or] at other
      change (if _ then _ else some ([], c :: rest)) = _
      rw [if_neg (by simp [other])]
  | @plain e ds letter number =>
    obtain ⟨d, tail, rfl⟩ := List.exists_cons_of_ne_nil number.1
    have digit : d.isDigit = true := List.all_eq_true.mp number.2 d List.mem_cons_self
    have unsigned : ¬ (decide (d = '+') || decide (d = '-')) = true := by
      rintro sign
      simp only [Bool.or_eq_true, decide_eq_true_eq] at sign
      rcases sign with rfl | rfl <;> cases digit
    have read := digitsRead number ends.1
    rw [List.cons_append] at read
    rw [List.cons_append, List.cons_append]
    unfold exponent
    dsimp only
    rw [if_pos (by simpa using letter), if_neg unsigned, read]
    rfl
  | @signed e s ds letter sign number =>
    rw [List.cons_append, List.cons_append]
    unfold exponent
    dsimp only
    rw [if_pos (by simpa using letter), if_pos (by simpa using sign), digitsRead number ends.1]
    rfl

theorem exponentOf {cs x : List Char} (read : exponent cs = some (x, rest)) : Exponent x ∧ cs = x ++ rest := by
  unfold exponent at read
  split at read
  · rename_i e tail
    split at read
    · rename_i letter
      replace letter : e = 'e' ∨ e = 'E' := by simpa using letter
      split at read
      · rename_i s tail'
        split at read
        · rename_i sign
          replace sign : s = '+' ∨ s = '-' := by simpa using sign
          obtain ⟨⟨ds, rest'⟩, inner, same⟩ := Option.map_eq_some_iff.mp read
          cases same
          obtain ⟨number, rfl⟩ := digitsOf inner
          exact ⟨.signed letter sign number, rfl⟩
        · obtain ⟨⟨ds, rest'⟩, inner, same⟩ := Option.map_eq_some_iff.mp read
          cases same
          obtain ⟨number, followed⟩ := digitsOf inner
          rw [followed]
          exact ⟨.plain letter number, rfl⟩
      · cases read
    · cases read
      exact ⟨.none, rfl⟩
  · cases read
    exact ⟨.none, rfl⟩

theorem exponentHead {x : List Char} (number : Exponent x) (ends : Ends rest) :
    Undigited (x ++ rest) ∧ ∀ c ∈ (x ++ rest).head?, c ≠ '.' := by
  have lettered : ∀ {e : Char} {tail : List Char}, e = 'e' ∨ e = 'E' →
      Undigited (e :: tail) ∧ ∀ c ∈ (e :: tail).head?, c ≠ '.' := by
    rintro e tail (rfl | rfl) <;> refine ⟨?_, ?_⟩ <;> rintro _ ⟨⟩ <;> decide
  cases number with
  | none => exact ⟨ends.1, fun c here => fun same => ends.2 c here (by simp [same])⟩
  | plain letter number => exact lettered letter
  | signed letter sign number => exact lettered letter

theorem fractionHead {f : List Char} (number : Fraction f) (stop : Undigited rest) : Undigited (f ++ rest) := by
  cases number with
  | none => exact stop
  | point number =>
    rintro _ ⟨⟩
    decide

theorem unsignedRead {w f x : List Char} (w' : Whole w) (f' : Fraction f) (x' : Exponent x) (ends : Ends rest) :
    unsigned (w ++ f ++ x ++ rest) = some (w ++ f ++ x, rest) := by
  obtain ⟨stop, past⟩ := exponentHead x' ends
  have first := wholeRead w' (fractionHead f' stop)
  have second := fractionRead f' stop past
  have text : w ++ f ++ x ++ rest = w ++ (f ++ (x ++ rest)) := by simp only [List.append_assoc]
  rw [unsigned, text, first]
  change (fraction (f ++ (x ++ rest)) >>= fun _ => _) = _
  rw [second]
  change (exponent (x ++ rest) >>= fun _ => _) = _
  rw [exponentRead x' ends]
  rfl

theorem unsignedOf {cs n : List Char} (read : unsigned cs = some (n, rest)) : ∃ w f x, Whole w ∧ Fraction f ∧
    Exponent x ∧ n = w ++ f ++ x ∧ cs = n ++ rest := by
  simp only [unsigned, bind, Option.bind_eq_some_iff] at read
  obtain ⟨⟨w, tail⟩, first, ⟨f, tail'⟩, second, ⟨x, tail''⟩, third, same⟩ := read
  cases same
  obtain ⟨w', rfl⟩ := wholeOf first
  obtain ⟨f', followed⟩ := fractionOf second
  obtain ⟨x', followed'⟩ := exponentOf third
  dsimp only at followed followed'
  exact ⟨w, f, x, w', f', x', rfl, by rw [followed, followed', List.append_assoc, List.append_assoc]⟩

theorem wholeHead {w : List Char} (number : Whole w) : ∃ d tail, w = d :: tail ∧ d.isDigit = true := by
  cases number with
  | zero => exact ⟨'0', [], rfl, rfl⟩
  | @number d ds number leads => exact ⟨d, ds, rfl, List.all_eq_true.mp number.2 d List.mem_cons_self⟩

theorem numberHead {n : List Char} (number : Number n) :
    ∃ c tail, n = c :: tail ∧ (c = '-' ∨ c.isDigit = true) := by
  cases number with
  | positive w' f' x' =>
    obtain ⟨d, tail, rfl, digit⟩ := wholeHead w'
    exact ⟨d, _, rfl, Or.inr digit⟩
  | negative w' f' x' => exact ⟨'-', _, rfl, Or.inl rfl⟩

theorem numberRead {n : List Char} (number' : Number n) (ends : Ends rest) :
    number (n ++ rest) = some (n, rest) := by
  cases number' with
  | @positive w f x w' f' x' =>
    have unsigned' : ∀ tail, w ++ f ++ x ++ rest = '-' :: tail → False := by
      obtain ⟨d, tail, rfl, digit⟩ := wholeHead w'
      rintro _ ⟨⟩
      cases digit
    rw [number.eq_2 _ unsigned']
    exact unsignedRead w' f' x' ends
  | negative w' f' x' =>
    rw [List.cons_append, number, unsignedRead w' f' x' ends]
    rfl

theorem numberOf {cs n : List Char} (read : number cs = some (n, rest)) : Number n ∧ cs = n ++ rest := by
  unfold number at read
  split at read
  · obtain ⟨⟨n', rest'⟩, inner, same⟩ := Option.map_eq_some_iff.mp read
    cases same
    obtain ⟨w, f, x, w', f', x', rfl, rfl⟩ := unsignedOf inner
    exact ⟨.negative w' f' x', rfl⟩
  · obtain ⟨w, f, x, w', f', x', rfl, rfl⟩ := unsignedOf read
    exact ⟨.positive w' f' x', rfl⟩

end Numbers

end AtomicUpdate.Json.Reader
