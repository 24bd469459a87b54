import AtomicUpdate.Json.Tree

/-! The texts that say a JSON value, by the grammar of the notation. What stands between two values, or
around them, may have blanks; an object may repeat a key, and a number has many spellings. -/
namespace AtomicUpdate.Json

def Blank (cs : List Char) : Prop := ∀ c ∈ cs, c ∈ [' ', '\n', '\t', '\r']

def escapes : List (Char × Char) :=
  [('"', '"'), ('\\', '\\'), ('/', '/'), ('b', '\x08'), ('f', '\x0c'), ('n', '\n'), ('r', '\r'), ('t', '\t')]

def HexDigit (c : Char) (n : Nat) : Prop :=
  "0123456789abcdef".toList[n]? = some c ∨ "0123456789ABCDEF".toList[n]? = some c

inductive Quoted : List Char → List Piece → Prop
  | empty : Quoted [] []
  | plain {c cs ps} (visible : 0x20 ≤ c.toNat) (unquoted : c ≠ '"') (unescaped : c ≠ '\\') (rest : Quoted cs ps) :
      Quoted (c :: cs) (.char c :: ps)
  | escape {c d cs ps} (letter : (c, d) ∈ escapes) (rest : Quoted cs ps) :
      Quoted ('\\' :: c :: cs) (.char d :: ps)
  | code {a b c d i j k l cs ps} (first : HexDigit a i) (second : HexDigit b j) (third : HexDigit c k)
      (fourth : HexDigit d l) (rest : Quoted cs ps) :
      Quoted ('\\' :: 'u' :: a :: b :: c :: d :: cs) (Piece.ofCode (((i * 16 + j) * 16 + k) * 16 + l) :: ps)

def Digits (cs : List Char) : Prop := cs ≠ [] ∧ cs.all Char.isDigit = true

inductive Whole : List Char → Prop
  | zero : Whole ['0']
  | number {d ds} (digits : Digits (d :: ds)) (leads : d ≠ '0') : Whole (d :: ds)

inductive Fraction : List Char → Prop
  | none : Fraction []
  | point {ds} (digits : Digits ds) : Fraction ('.' :: ds)

inductive Exponent : List Char → Prop
  | none : Exponent []
  | plain {e ds} (letter : e = 'e' ∨ e = 'E') (digits : Digits ds) : Exponent (e :: ds)
  | signed {e s ds} (letter : e = 'e' ∨ e = 'E') (sign : s = '+' ∨ s = '-') (digits : Digits ds) :
      Exponent (e :: s :: ds)

inductive Number : List Char → Prop
  | positive {w f e} (whole : Whole w) (fraction : Fraction f) (exponent : Exponent e) : Number (w ++ f ++ e)
  | negative {w f e} (whole : Whole w) (fraction : Fraction f) (exponent : Exponent e) :
      Number ('-' :: (w ++ f ++ e))

inductive Part
  | value (t : Tree)
  | item (t : Tree)
  | elements (ts : List Tree)
  | member (key : List Piece) (t : Tree)
  | members (ms : List (List Piece × Tree))

inductive Written : Part → List Char → Prop
  | null : Written (.value .null) ['n', 'u', 'l', 'l']
  | yes : Written (.value (.bool true)) ['t', 'r', 'u', 'e']
  | no : Written (.value (.bool false)) ['f', 'a', 'l', 's', 'e']
  | number {n} (number : Number n) : Written (.value (.number n)) n
  | string {cs ps} (quoted : Quoted cs ps) : Written (.value (.string ps)) ('"' :: cs ++ ['"'])
  | noElements {b} (blank : Blank b) : Written (.value (.array [])) ('[' :: b ++ [']'])
  | array {ts cs} (elements : Written (.elements ts) cs) : Written (.value (.array ts)) ('[' :: cs ++ [']'])
  | noMembers {b} (blank : Blank b) : Written (.value (.object [])) ('{' :: b ++ ['}'])
  | object {ms cs} (members : Written (.members ms) cs) : Written (.value (.object ms)) ('{' :: cs ++ ['}'])
  | item {t b cs a} (before : Blank b) (value : Written (.value t) cs) (after : Blank a) :
      Written (.item t) (b ++ cs ++ a)
  | lastElement {t cs} (item : Written (.item t) cs) : Written (.elements [t]) cs
  | element {t ts cs rest} (item : Written (.item t) cs) (more : Written (.elements ts) rest) :
      Written (.elements (t :: ts)) (cs ++ ',' :: rest)
  | member {key t b k a cs} (before : Blank b) (quoted : Quoted k key) (after : Blank a)
      (item : Written (.item t) cs) : Written (.member key t) (b ++ '"' :: k ++ '"' :: a ++ ':' :: cs)
  | lastMember {key t cs} (member : Written (.member key t) cs) : Written (.members [(key, t)]) cs
  | anotherMember {key t ms cs rest} (member : Written (.member key t) cs) (more : Written (.members ms) rest) :
      Written (.members ((key, t) :: ms)) (cs ++ ',' :: rest)

def Spells (text : List Char) (t : Tree) : Prop := Written (.item t) text

end AtomicUpdate.Json
