import Midend.Pass.Session

/-!
# Lines of the log

A record of the log is written on one line as names with values.  A value is quoted if it could not
be read back otherwise: if it is empty, or has blanks, equals signs, quotes or characters that
cannot be printed.

## Main definitions

* `needsQuotes`: must a value be quoted?
* `logLine`: the line of a record.
-/

namespace Midend.Report

/-- Does a character make quotes necessary? -/
def forcesQuotes (c : Char) : Bool :=
  if c.toNat < 0x80 then c.toNat < 0x20 || c = ' ' || c = '=' || c = '"'
  else c = '�' || !Text.isPrintable c

/-- Must a value be quoted? -/
def needsQuotes (s : String) : Bool := s = "" || s.toList.any forcesQuotes

/-- A name or value of a log line. -/
def logText (s : String) : String := if needsQuotes s then Text.quote s else s

/-- The line of a record. -/
def logLine (r : LogRecord) : String :=
  let pairs := ("level", r.level.text) :: ("msg", r.message) :: r.attrs
  " ".intercalate (pairs.map fun (k, v) => logText k ++ "=" ++ logText v) ++ "\n"

end Midend.Report
