/-! Points in time, counted in milliseconds from the start of 1970, and their written form in
universal time: date, `T`, time of day, a fraction where there is one, `Z`. -/
namespace AtomicUpdate.Clock

def zero : String := "1970-01-01T00:00:00Z"

structure Date where
  year : Nat
  month : Nat
  day : Nat
  deriving DecidableEq, Repr

/-- The date of a day, counted in years that begin in March so that a leap day ends one. -/
def Date.ofDays (days : Nat) : Date :=
  let shifted := days + 719468
  let era := shifted / 146097
  let dayOfEra := shifted % 146097
  let yearOfEra := (dayOfEra - dayOfEra / 1460 + dayOfEra / 36524 - dayOfEra / 146096) / 365
  let dayOfYear := dayOfEra - (365 * yearOfEra + yearOfEra / 4 - yearOfEra / 100)
  let monthFromMarch := (5 * dayOfYear + 2) / 153
  let month := if monthFromMarch < 10 then monthFromMarch + 3 else monthFromMarch - 9
  { year := yearOfEra + era * 400 + (if month ≤ 2 then 1 else 0)
    month
    day := dayOfYear - (153 * monthFromMarch + 2) / 5 + 1 }

def padded (width n : Nat) : String :=
  let digits := Nat.toDigits 10 n
  String.ofList (List.replicate (width - digits.length) '0' ++ digits)

def fraction (ms : Nat) : String :=
  if ms = 0 then ""
  else "." ++ String.ofList ((padded 3 ms).toList.reverse.dropWhile (· = '0')).reverse

def text (ms : Nat) : String :=
  let date := Date.ofDays (ms / 86400000)
  let seconds := ms / 1000 % 86400
  padded 4 date.year ++ "-" ++ padded 2 date.month ++ "-" ++ padded 2 date.day ++ "T" ++
    padded 2 (seconds / 3600) ++ ":" ++ padded 2 (seconds / 60 % 60) ++ ":" ++
    padded 2 (seconds % 60) ++ fraction (ms % 1000) ++ "Z"

end AtomicUpdate.Clock
