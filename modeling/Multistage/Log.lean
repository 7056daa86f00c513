/-!
# Log lines

What an operation has to report is part of its result, as lines with a level and a topic.
-/

namespace Multistage.Log

/-- How urgent a line is, the most urgent first. -/
inductive Level where
  | error
  | warn
  | info
  | debug
  | trace
  deriving DecidableEq, Repr

namespace Level

/-- Rank of the level: the less, the more urgent. -/
def rank : Level → Nat
  | error => 1
  | warn => 2
  | info => 3
  | debug => 4
  | trace => 5

/-- The word in front of a line. -/
def text : Level → String
  | error => "ERROR"
  | warn => "WARN"
  | info => "INFO"
  | debug => "DEBUG"
  | trace => "TRACE"

end Level

/-- What a line is about: the program as a whole, the building of tables, or the making of
properties. -/
inductive Topic where
  | program
  | encode
  | catalog
  deriving DecidableEq, Repr

/-- The name of the program, with which the names of all topics start. -/
def programName : String := "trie_bakery"

/-- The name of a topic. -/
def Topic.name : Topic → String
  | .program => programName
  | .encode => programName ++ "::encode"
  | .catalog => programName ++ "::catalog"

structure Line where
  level : Level
  topic : Topic
  message : String
  deriving DecidableEq, Repr

/-- The level and the message. -/
def Line.text (line : Line) : String :=
  line.level.text ++ " " ++ line.message

end Multistage.Log
