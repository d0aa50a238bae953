import ByteHive.Native.Trash

/-!
# Timestamps (`core/src/logging.rs`, `filesync/src/client.rs`)

The two functions that print a Unix time as a UTC date, each with its own copy of the conversion of
days to a date. The steps are those of the source in its integer types; a result that its type does
not hold is `none`, where a build with overflow checks panics and another wraps around.
-/

namespace ByteHive

/-! ## Integer types -/

/-- The result of a checked operation in the type from `min` to `max`. -/
def fits (min max x : Int) : Option Int := if min ≤ x ∧ x ≤ max then some x else none

def i64 (x : Int) : Option Int := fits (-2 ^ 63) (2 ^ 63 - 1) x

def u64 (x : Int) : Option Int := fits 0 (2 ^ 64 - 1) x

/-- `as i64` -/
def asI64 (x : Int) : Int := x.bmod (2 ^ 64)

/-- `as u64` -/
def asU64 (x : Int) : Int := x % 2 ^ 64

/-- `as u32` -/
def asU32 (x : Int) : Int := x % 2 ^ 32

/-! ## Days to a date -/

/-- `civil_from_days` -/
def civilFromDays (z : Int) : Option (Int × Int × Int) := do
  let z ← i64 (z + 719468)
  let shifted ← if z ≥ 0 then some z else i64 (z - 146096)
  let era := shifted.tdiv 146097
  let eraDays ← i64 (era * 146097)
  let doe := asU64 (← i64 (z - eraDays))
  -- the days of the era without its leap days
  let withoutFourths ← u64 (doe - doe / 1460)
  let withCenturies ← u64 (withoutFourths + doe / 36524)
  let plain ← u64 (withCenturies - doe / 146096)
  let yoe := plain / 365
  let eraYears ← i64 (era * 400)
  let y ← i64 (asI64 yoe + eraYears)
  let yearDays ← u64 (365 * yoe)
  let leapDays ← u64 (yearDays + yoe / 4)
  let before ← u64 (leapDays - yoe / 100)
  let doy ← u64 (doe - before)
  let fiveDoy ← u64 (5 * doy)
  let mp := (← u64 (fiveDoy + 2)) / 153
  let monthDays ← u64 (153 * mp)
  let beforeMonth := (← u64 (monthDays + 2)) / 5
  let d := asU32 (← u64 ((← u64 (doy - beforeMonth)) + 1))
  let m := asU32 (← if mp < 10 then u64 (mp + 3) else u64 (mp - 9))
  let y ← if m ≤ 2 then i64 (y + 1) else some y
  return (y, m, d)

/-- The conversion in `format_unix_secs`, in `i64` all along. -/
def unixDate (days : Int) : Option (Int × Int × Int) := do
  let z ← i64 (days + 719468)
  let shifted ← if z ≥ 0 then some z else i64 (z - 146096)
  let era := shifted.tdiv 146097
  let eraDays ← i64 (era * 146097)
  let doe ← i64 (z - eraDays)
  let withoutFourths ← i64 (doe - doe.tdiv 1460)
  let withCenturies ← i64 (withoutFourths + doe.tdiv 36524)
  let plain ← i64 (withCenturies - doe.tdiv 146096)
  let yoe := plain.tdiv 365
  let eraYears ← i64 (era * 400)
  let y ← i64 (yoe + eraYears)
  let yearDays ← i64 (365 * yoe)
  let leapDays ← i64 (yearDays + yoe.tdiv 4)
  let before ← i64 (leapDays - yoe.tdiv 100)
  let doy ← i64 (doe - before)
  let fiveDoy ← i64 (5 * doy)
  let mp := (← i64 (fiveDoy + 2)).tdiv 153
  let monthDays ← i64 (153 * mp)
  let beforeMonth := (← i64 (monthDays + 2)).tdiv 5
  let d ← i64 ((← i64 (doy - beforeMonth)) + 1)
  let m ← if mp < 10 then i64 (mp + 3) else i64 (mp - 9)
  let y ← if m ≤ 2 then i64 (y + 1) else some y
  return (y, m, d)

/-! ## Printing -/

/-- `{n:0width}` -/
def zeroPadded (width : Nat) (n : Int) : List Char :=
  if 0 ≤ n then padded width n.natAbs else '-' :: padded (width - 1) n.natAbs

/-- `{y:04}-{m:02}-{d:02}` -/
def dateText (y m d : Int) : List Char :=
  zeroPadded 4 y ++ '-' :: zeroPadded 2 m ++ '-' :: zeroPadded 2 d

/-- `format_utc_ms`: `YYYY-MM-DDTHH:MM:SS.mmmZ`. -/
def formatUtcMs (ms : Nat) : Option String := do
  let secs := ms / 1000
  let millis := ms % 1000
  let days := asI64 (secs / 86400)
  let sod := secs % 86400
  let (y, m, d) ← civilFromDays days
  return String.ofList (dateText y m d ++ 'T' :: padded 2 (sod / 3600) ++
    ':' :: padded 2 (sod % 3600 / 60) ++ ':' :: padded 2 (sod % 60) ++ '.' :: padded 3 millis ++ ['Z'])

/-- `format_unix_secs`: `YYYY-MM-DD HH:MM`. -/
def formatUnixSecs (secs : Nat) : Option String := do
  let days := asI64 (secs / 86400)
  let rem := secs % 86400
  let hour := rem / 3600
  let minute := rem % 3600 / 60
  let (y, m, d) ← unixDate days
  return String.ofList (dateText y m d ++ ' ' :: padded 2 hour ++ ':' :: padded 2 minute)

end ByteHive
