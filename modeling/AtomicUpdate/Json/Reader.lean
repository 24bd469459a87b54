import AtomicUpdate.Json.Tree

/-! Reading a JSON text. Objects and arrays may nest to any depth; a bound on the recursion is
taken from the length of the text and is never what refuses one. -/
namespace AtomicUpdate.Json.Reader

def isBlank (c : Char) : Bool := c = ' ' || c = '\n' || c = '\t' || c = '\r'

def skip (cs : List Char) : List Char := cs.dropWhile isBlank

def hexDigit? (c : Char) : Option Nat :=
  if c.isDigit then some (c.toNat - 48)
  else if 'a' ≤ c && c ≤ 'f' then some (c.toNat - 87)
  else if 'A' ≤ c && c ≤ 'F' then some (c.toNat - 55)
  else none

def hex4? (a b c d : Char) : Option Nat := do
  let a ← hexDigit? a
  let b ← hexDigit? b
  let c ← hexDigit? c
  let d ← hexDigit? d
  some (((a * 16 + b) * 16 + c) * 16 + d)

def escaped? (c : Char) : Option Char :=
  if c = '"' || c = '\\' || c = '/' then some c
  else if c = 'b' then some '\x08'
  else if c = 'f' then some '\x0c'
  else if c = 'n' then some '\n'
  else if c = 'r' then some '\r'
  else if c = 't' then some '\t'
  else none

def pieces : List Char → Option (List Piece × List Char)
  | [] => none
  | '\\' :: 'u' :: a :: b :: c :: d :: rest => do
      let code ← hex4? a b c d
      let (ps, rest) ← pieces rest
      some (Piece.ofCode code :: ps, rest)
  | '\\' :: c :: rest => do
      let c ← escaped? c
      let (ps, rest) ← pieces rest
      some (.char c :: ps, rest)
  | c :: rest =>
      if c = '"' then some ([], rest)
      else if c.toNat < 0x20 || c = '\\' then none
      else do
        let (ps, rest) ← pieces rest
        some (.char c :: ps, rest)

def digits (cs : List Char) : Option (List Char × List Char) :=
  match cs.takeWhile Char.isDigit with
  | [] => none
  | d :: ds => some (d :: ds, cs.dropWhile Char.isDigit)

def whole : List Char → Option (List Char × List Char)
  | '0' :: rest => some (['0'], rest)
  | cs => digits cs

def fraction : List Char → Option (List Char × List Char)
  | '.' :: rest => (digits rest).map fun (ds, rest) => ('.' :: ds, rest)
  | cs => some ([], cs)

def exponent : List Char → Option (List Char × List Char)
  | e :: rest =>
      if e = 'e' || e = 'E' then
        match rest with
        | s :: tail =>
            if s = '+' || s = '-' then (digits tail).map fun (ds, rest) => (e :: s :: ds, rest)
            else (digits rest).map fun (ds, rest) => (e :: ds, rest)
        | [] => none
      else some ([], e :: rest)
  | [] => some ([], [])

def unsigned (cs : List Char) : Option (List Char × List Char) := do
  let (w, cs) ← whole cs
  let (f, cs) ← fraction cs
  let (e, cs) ← exponent cs
  some (w ++ f ++ e, cs)

def number : List Char → Option (List Char × List Char)
  | '-' :: rest => (unsigned rest).map fun (n, rest) => ('-' :: n, rest)
  | cs => unsigned cs

mutual

def value : Nat → List Char → Option (Tree × List Char)
  | 0, _ => none
  | bound + 1, cs =>
    match skip cs with
    | 'n' :: 'u' :: 'l' :: 'l' :: rest => some (.null, rest)
    | 't' :: 'r' :: 'u' :: 'e' :: rest => some (.bool true, rest)
    | 'f' :: 'a' :: 'l' :: 's' :: 'e' :: rest => some (.bool false, rest)
    | '"' :: rest => (pieces rest).map fun (ps, rest) => (.string ps, rest)
    | '[' :: rest =>
        match skip rest with
        | ']' :: rest => some (.array [], rest)
        | rest => (elements bound rest).map fun (ts, rest) => (.array ts, rest)
    | '{' :: rest =>
        match skip rest with
        | '}' :: rest => some (.object [], rest)
        | rest => (members bound rest).map fun (ms, rest) => (.object ms, rest)
    | rest => (number rest).map fun (n, rest) => (.number n, rest)

def elements : Nat → List Char → Option (List Tree × List Char)
  | 0, _ => none
  | bound + 1, cs =>
    match value bound cs with
    | none => none
    | some (t, rest) =>
        match skip rest with
        | ',' :: rest => (elements bound rest).map fun (ts, rest) => (t :: ts, rest)
        | ']' :: rest => some ([t], rest)
        | _ => none

def members : Nat → List Char → Option (List (List Piece × Tree) × List Char)
  | 0, _ => none
  | bound + 1, cs =>
    match skip cs with
    | '"' :: rest =>
        match pieces rest with
        | none => none
        | some (key, rest) =>
            match skip rest with
            | ':' :: rest =>
                match value bound rest with
                | none => none
                | some (t, rest) =>
                    match skip rest with
                    | ',' :: rest =>
                        (members bound rest).map fun (ms, rest) => ((key, t) :: ms, rest)
                    | '}' :: rest => some ([(key, t)], rest)
                    | _ => none
            | _ => none
    | _ => none

end

def read (text : List Char) : Option Tree :=
  match value (2 * text.length + 2) text with
  | some (t, rest) => if (skip rest).isEmpty then some t else none
  | none => none

end AtomicUpdate.Json.Reader
