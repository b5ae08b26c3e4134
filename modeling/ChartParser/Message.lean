/-
Messages for whoever watches a parse.

A message has a level and a text.  Functions that have something to report
return their messages in the order they arise; nothing here prints.
-/
namespace ChartParser

/-- How much attention a message asks for. -/
inductive Level where
  | warn
  | debug
  | trace
deriving DecidableEq, Repr

/-- The name of a level, in capitals. -/
def Level.label : Level → String
  | warn => "WARN"
  | debug => "DEBUG"
  | trace => "TRACE"

/-- A message of some level. -/
structure Message where
  level : Level
  text : String
deriving DecidableEq, Repr

end ChartParser
