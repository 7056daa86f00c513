import Multistage.Log
import Multistage.Pattern.Parser

/-!
# Log filters

A filter says which lines are written.  It is given as a text: directives, separated by commas, and
possibly a slash and a pattern that has to occur in a message.  A directive is a level for all topics,
the name of topics that are written at every level, or a name, an equals sign and a level.  Of two
directives with the same name the later one holds, in the place of the earlier.

* `Filter.parse` — the filter of a text; directives and patterns that make no sense are left out.
* `Filter.ofSetting` — the filter of a setting that may be missing.
* `Filter.admits` — whether a line is written: of the directives whose name the topic starts with, the
  one with the longest name decides.
-/

namespace Multistage.Log

/-- The lowest rank of level that is not written: `off` writes nothing. -/
inductive Threshold where
  | off
  | upTo (level : Level)
  deriving DecidableEq, Repr

namespace Threshold

/-- A line of this level is written. -/
def admits : Threshold → Level → Bool
  | off, _ => false
  | upTo limit, level => level.rank ≤ limit.rank

/-- Every line is written. -/
def all : Threshold := upTo .trace

/-- The threshold of a word, in capital or small letters. -/
def ofWord? (word : String) : Option Threshold :=
  match word.toUpper with
  | "OFF" => some off
  | "ERROR" => some (upTo .error)
  | "WARN" => some (upTo .warn)
  | "INFO" => some (upTo .info)
  | "DEBUG" => some (upTo .debug)
  | "TRACE" => some (upTo .trace)
  | _ => none

end Threshold

/-- A threshold for the topics whose name starts in a given way, or for all. -/
structure Directive where
  name : Option String
  threshold : Threshold
  deriving DecidableEq, Repr

namespace Directive

/-- Characters of the name. -/
def weight (d : Directive) : Nat :=
  match d.name with
  | none => 0
  | some name => name.utf8ByteSize

/-- The topic starts with the name. -/
def concerns (d : Directive) (topic : String) : Bool :=
  match d.name with
  | none => true
  | some name => topic.startsWith name

/-- The directive of a text without commas. -/
def parse? (text : String) : Option Directive :=
  match text.splitOn "=" with
  | [word] =>
    match Threshold.ofWord? word with
    | some threshold => some ⟨none, threshold⟩
    | none => some ⟨some word, .all⟩
  | [name, level] =>
    let level := Text.trim level
    if level = "" then some ⟨some name, .all⟩
    else (Threshold.ofWord? level).map fun threshold => ⟨some name, threshold⟩
  | _ => none

end Directive

structure Filter where
  directives : List Directive
  /-- What has to occur in a message. -/
  pattern : Option Pattern
  deriving DecidableEq, Repr

namespace Filter

/-- One more directive, which takes the place of one with the same name. -/
def put (d : Directive) : List Directive → List Directive
  | [] => [d]
  | e :: rest => if e.name = d.name then d :: rest else e :: put d rest

/-- The directives of a text, in order; without any, errors only are written. -/
def parseDirectives (text : String) : List Directive :=
  let parts := (text.splitOn ",").map Text.trim
  let directives := (parts.filter (· ≠ "")).filterMap Directive.parse?
  match directives.foldl (fun all d => put d all) [] with
  | [] => [⟨none, .upTo .error⟩]
  | directives => directives

/-- The filter of a text.  One with more than one slash is left out as a whole. -/
def parse (text : String) : Filter :=
  match text.splitOn "/" with
  | [directives] => ⟨parseDirectives directives, none⟩
  | [directives, pattern] => ⟨parseDirectives directives, Pattern.ofText? pattern⟩
  | _ => ⟨parseDirectives "", none⟩

/-- The filter of a setting; without one, lines are written up to informations. -/
def ofSetting (setting : Option String) : Filter :=
  parse (setting.getD "info")

/-- The directive with the longest name that concerns the topic; the later one of equally long. -/
def directive? (f : Filter) (topic : String) : Option Directive :=
  (f.directives.filter (·.concerns topic)).foldl
    (fun best d =>
      match best with
      | none => some d
      | some b => if b.weight ≤ d.weight then some d else some b)
    none

/-- The line is written. -/
def admits (f : Filter) (line : Line) : Bool :=
  let allowed := match f.directive? line.topic.name with
    | none => false
    | some d => d.threshold.admits line.level
  let found := match f.pattern with
    | none => true
    | some pattern => pattern.occursIn line.message
  allowed && found

end Filter

end Multistage.Log
