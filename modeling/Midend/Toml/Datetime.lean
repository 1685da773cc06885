import Midend.Text.Numeral
import Midend.Toml.Value

/-!
# Dates and times in TOML

A date is `2006-01-02`, a time is `15:04:05` with an optional fraction, and both may be combined
with a `T` or a blank between them and an optional zone behind them.  Days must exist in their
month.  The hour may have one digit.

## Main definitions

* `datetime`: the value of a date, a time, or both.
-/

namespace Midend.Toml

namespace Datetime

/-- A reader of a piece of text: what it read and the rest, if the piece is there. -/
abbrev Reader (α : Type) := StateT (List Char) Option α

/-- Takes one character that must be there. -/
def mark (m : Char) : Reader Unit := fun cs =>
  match cs with
  | c :: rest => if c = m then some ((), rest) else none
  | [] => none

/-- The value of a digit. -/
def digit : Reader Nat := fun cs =>
  match cs with
  | c :: rest => if Text.isAsciiDigit c then some (c.toNat - '0'.toNat, rest) else none
  | [] => none

/-- A number of two digits. -/
def two : Reader Nat := do
  let a ← digit
  let b ← digit
  pure (a * 10 + b)

/-- A number of one or two digits. -/
def oneOrTwo : Reader Nat := do
  let a ← digit
  match (← get).head? with
  | some c =>
    if Text.isAsciiDigit c then
      let b ← digit
      pure (a * 10 + b)
    else pure a
  | none => pure a

/-- A number of four digits. -/
def four : Reader Nat := do
  let a ← two
  let b ← two
  pure (a * 100 + b)

/-- Demands that a number lies in a range. -/
def inRange (low high n : Nat) : Reader Unit :=
  if low ≤ n && n ≤ high then pure () else failure

/-- Does the year have a leap day? -/
def isLeap (year : Nat) : Bool := year % 4 = 0 && (year % 100 != 0 || year % 400 = 0)

/-- The number of days of a month. -/
def daysIn (year month : Nat) : Nat :=
  if month = 2 then (if isLeap year then 29 else 28)
  else if month = 4 || month = 6 || month = 9 || month = 11 then 30
  else 31

/-- A date. -/
def date : Reader Unit := do
  let year ← four
  mark '-'
  let month ← two
  inRange 1 12 month
  mark '-'
  let day ← two
  inRange 1 (daysIn year month) day

/-- The fraction of a second, if one is there: a point and digits. -/
def fraction : Reader Unit := do
  match ← get with
  | '.' :: c :: rest =>
    if Text.isAsciiDigit c then set (rest.dropWhile Text.isAsciiDigit) else pure ()
  | _ => pure ()

/-- A time of day. -/
def time : Reader Unit := do
  let hour ← oneOrTwo
  inRange 0 23 hour
  mark ':'
  let minute ← two
  inRange 0 59 minute
  mark ':'
  let second ← two
  inRange 0 59 second
  fraction

/-- A zone: `Z`, or a sign and the hours and minutes from the prime meridian. -/
def zone : Reader Unit := do
  match (← get).head? with
  | some 'Z' => mark 'Z'
  | some '+' => mark '+'; offset
  | _ => mark '-'; offset
where
  /-- Hours and minutes. -/
  offset : Reader Unit := do
    let hours ← two
    inRange 0 24 hours
    mark ':'
    let minutes ← two
    inRange 0 60 minutes

/-- A date and a time. -/
def dateAndTime : Reader Unit := do
  date
  mark 'T'
  time

/-- Does a reader take the whole text? -/
def covers (r : Reader Unit) (cs : List Char) : Bool :=
  match r.run cs with
  | some ((), []) => true
  | _ => false

/-- The marks in one spelling. -/
def normalMark (c : Char) : Char :=
  if c = 'z' then 'Z' else if c = 't' || c = ' ' then 'T' else c

/-- Is the text a date, a time or both? -/
def isValid (cs : List Char) : Bool :=
  covers (do dateAndTime; zone) cs || covers dateAndTime cs || covers date cs || covers time cs

end Datetime

/-- The value of a text that looks like a date or a time. -/
def datetime (cs : List Char) : Except Error Value :=
  let cs := cs.map Datetime.normalMark
  let text := String.ofList cs
  if Datetime.isValid cs then .ok (.datetime text) else .error (.badDatetime text)

end Midend.Toml
