import AtomicUpdate.Text.Lossy

/-! Paths as bytes, and what can be said of a path without looking at any file: the names in
it, its parent and its last name. Repeated and trailing slashes do not count, nor does a name
`.`, except where a relative path begins with it. -/
namespace AtomicUpdate

abbrev Bytes := List UInt8

abbrev Name := Bytes

abbrev Path := Bytes

namespace Path

def slash : UInt8 := 47

def dot : Name := [46]

def dotDot : Name := [46, 46]

def ofString (s : String) : Path := s.toUTF8.data.toList

def text? (p : Path) : Option String := String.fromUTF8? ⟨p.toArray⟩

def display (p : Path) : String := Text.Lossy.decode p

def segments : Path → List Name
  | [] => [[]]
  | c :: rest =>
      if c = slash then [] :: segments rest
      else match segments rest with
        | [] => [[c]]
        | s :: ss => (c :: s) :: ss

def join : List Name → Path
  | [] => []
  | [n] => n
  | n :: m :: rest => n ++ slash :: join (m :: rest)

def names (p : Path) : List Name := (segments p).filter (fun n => n ≠ [])

def isAbsolute (p : Path) : Bool := p.head? = some slash

def endsInSlash (p : Path) : Bool := p.getLast? = some slash

def steps (p : Path) : List Name := if p.endsInSlash then p.names ++ [dot] else p.names

def lead (p : Path) : Path :=
  match p with
  | [] => []
  | [c] => if c = slash || c = 46 then [c] else []
  | c :: d :: _ => if c = slash || (c = 46 && d = slash) then [c] else []

def isIdle (n : Name) : Bool := n = [] || n = dot

def backwards (p : Path) : List Name :=
  (segments (p.drop p.lead.length)).reverse.dropWhile isIdle

def parent? (p : Path) : Option Path :=
  match p.backwards with
  | _ :: rest => some (p.lead ++ join (rest.dropWhile isIdle).reverse)
  | [] => if p.lead = dot then some [] else none

def fileName? (p : Path) : Option Name :=
  match p.backwards with
  | n :: _ => if n = dotDot then none else some n
  | [] => none

/-- The directory that the last name is looked up in, written so that it can be opened. -/
def folder (p : Path) : Path :=
  match p.parent? with
  | some q => if q = [] then dot else q
  | none => dot

def forbidNul {ε : Type} (refusal : ε) (p : Path) : Except ε Unit :=
  if p.contains 0 then .error refusal else .ok ()

theorem segmentsNeNil (p : Path) : segments p ≠ [] := by
  cases p with
  | nil => simp [segments]
  | cons c rest =>
      unfold segments
      split
      · simp
      · split <;> simp

theorem joinSegments (p : Path) : join (segments p) = p := by
  induction p with
  | nil => rfl
  | cons c rest ih =>
      unfold segments
      split
      · rename_i h
        cases hs : segments rest with
        | nil => exact absurd hs (segmentsNeNil rest)
        | cons s ss => rw [hs] at ih; simp [join, ih, h]
      · cases hs : segments rest with
        | nil => exact absurd hs (segmentsNeNil rest)
        | cons s ss =>
            rw [hs] at ih
            cases ss with
            | nil => simpa [join] using ih
            | cons t ts => simpa [join] using ih

end Path
end AtomicUpdate
