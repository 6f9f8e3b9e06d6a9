/-!
# Log records

What the library reports on the way: a level and a line. Which levels are shown is up to whoever
shows them.
-/

namespace SceneSearch

/-- How much a record matters. -/
inductive LogLevel where
  | debug
  | info
  | warning
  | error
deriving DecidableEq, Repr, Inhabited

namespace LogLevel

def rank : LogLevel → Nat
  | debug => 0
  | info => 1
  | warning => 2
  | error => 3

def name : LogLevel → String
  | debug => "DEBUG"
  | info => "INFO"
  | warning => "WARNING"
  | error => "ERROR"

/-- The mark in front of the records of a level. -/
def icon : LogLevel → String
  | debug => "🐞"
  | info => "ℹ️"
  | warning => "⚠️"
  | error => "❌"

end LogLevel

structure LogRecord where
  /-- How much it matters. -/
  level : LogLevel
  /-- What it says. -/
  message : String
deriving DecidableEq, Repr

def LogRecord.render (r : LogRecord) : String := r.level.icon ++ " " ++ r.message

end SceneSearch
