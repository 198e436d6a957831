/-
  RefineCheck.Log

  The levels of log messages and the names they are configured by.
-/

import RefineCheck.Text.Quoted

namespace RefineCheck.Log

/-- How severe a message is, in increasing order. -/
inductive Level
  | debug | info | warn | error | dpanic | panic | fatal
deriving DecidableEq, Repr

namespace Level

/-- All levels, the least severe first. -/
def all : List Level := [.debug, .info, .warn, .error, .dpanic, .panic, .fatal]

/-- The name of the level in a configuration. -/
def name : Level → String
  | .debug => "debug"
  | .info => "info"
  | .warn => "warn"
  | .error => "error"
  | .dpanic => "dpanic"
  | .panic => "panic"
  | .fatal => "fatal"

/-- The lower-case form of a character, as far as the names of levels need it: of the characters
    beyond the Latin capitals only the dotted capital I has a lower-case form in them. -/
def lower (c : Char) : Char := if c = '\u0130' then 'i' else c.toLower

/-- The level a text names, in any case. No text stands for info, and warn has a longer name. -/
def ofName? (text : String) : Option Level :=
  let text := text.map lower
  if text.isEmpty then some .info
  else if text = "warning" then some .warn
  else all.find? fun level => level.name == text

/-- The levels of the messages that are written if this is the least one. -/
def enabled (level : Level) : List Level := all.dropWhile fun l => l != level

end Level

/-- What is said about a text that names no level. -/
def unrecognized (text : String) : String := "logging: unrecognized level: " ++ Text.quote text

end RefineCheck.Log
