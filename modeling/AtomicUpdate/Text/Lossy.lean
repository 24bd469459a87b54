/-! Reading bytes as UTF-8 when they need not be: the longest start of a character that never
gets finished becomes one replacement character. -/
namespace AtomicUpdate.Text.Lossy

structure Partial where
  due : Nat
  bits : Nat
  low : UInt8
  high : UInt8

def replacement : Char := '\ufffd'

def start (b : UInt8) : List Char × Option Partial :=
  if b < 0x80 then ([Char.ofNat b.toNat], none)
  else if b < 0xc2 then ([replacement], none)
  else if b < 0xe0 then ([], some ⟨1, b.toNat - 0xc0, 0x80, 0xbf⟩)
  else if b = 0xe0 then ([], some ⟨2, 0, 0xa0, 0xbf⟩)
  else if b = 0xed then ([], some ⟨2, 0xd, 0x80, 0x9f⟩)
  else if b < 0xf0 then ([], some ⟨2, b.toNat - 0xe0, 0x80, 0xbf⟩)
  else if b = 0xf0 then ([], some ⟨3, 0, 0x90, 0xbf⟩)
  else if b < 0xf4 then ([], some ⟨3, b.toNat - 0xf0, 0x80, 0xbf⟩)
  else if b = 0xf4 then ([], some ⟨3, 4, 0x80, 0x8f⟩)
  else ([replacement], none)

def resume (p : Partial) (b : UInt8) : List Char × Option Partial :=
  if p.low ≤ b && b ≤ p.high then
    let bits := p.bits * 64 + (b.toNat - 0x80)
    if p.due ≤ 1 then ([Char.ofNat bits], none) else ([], some ⟨p.due - 1, bits, 0x80, 0xbf⟩)
  else
    let (chars, next) := start b
    (replacement :: chars, next)

def chars (under : Option Partial) : List UInt8 → List Char
  | [] => match under with
    | none => []
    | some _ => [replacement]
  | b :: rest =>
      let (out, next) := match under with
        | none => start b
        | some p => resume p b
      out ++ chars next rest

def decode (bytes : List UInt8) : String := String.ofList (chars none bytes)

end AtomicUpdate.Text.Lossy
