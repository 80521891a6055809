import ConsoleScript.Text.Bytes

/-!
Points in time as text: a date of the calendar and a time of day, without a time zone.
-/

namespace ConsoleScript.Timestamp

/-- Days from the first of March of year zero to the first day of 1970. -/
def epochDay : Nat := 719468

/-- Days of four centuries. -/
def eraDays : Nat := 146097

/-- The year, month and day of a number of days since the first day of 1970. Years are counted from
March on, so that the day that leap years add is the last. -/
def civil (days : Nat) : Nat × Nat × Nat :=
  let z := days + epochDay
  let era := z / eraDays
  let doe := z % eraDays
  let yoe := (doe - doe / 1460 + doe / 36524 - doe / 146096) / 365
  let doy := doe - (365 * yoe + yoe / 4 - yoe / 100)
  let mp := (5 * doy + 2) / 153
  let month := if mp < 10 then mp + 3 else mp - 9
  let year := yoe + era * 400 + if month ≤ 2 then 1 else 0
  (year, month, doy - (153 * mp + 2) / 5 + 1)

/-- A number with a least number of digits. -/
def padded (width n : Nat) : Bytes := Bytes.padLeft 0x30 width (Bytes.ofNat n)

/-- The text of a number of seconds since the first day of 1970. -/
def text (seconds : Nat) : Bytes :=
  let (year, month, day) := civil (seconds / 86400)
  let rest := seconds % 86400
  padded 4 year ++ utf8 "-" ++ padded 2 month ++ utf8 "-" ++ padded 2 day ++ utf8 " " ++
    padded 2 (rest / 3600) ++ utf8 ":" ++ padded 2 (rest / 60 % 60) ++ utf8 ":" ++
    padded 2 (rest % 60)

end ConsoleScript.Timestamp
