import Multistage.Arith
import Multistage.Kind
import Multistage.Range

/-!
# Causes of failure

Every operation that can fail says why with an `Error`.  The causes are data; their wording is in one
place, `Error.message`.

* `ConfigCause` — a request that makes no sense: level widths, packing, side tables, names.
* `RangeCause` — ranges that are inverted or do not follow each other.
* `FormatCause` — data that do not form tables, side tables or catalogs.
* `Error` — any of these, or a value too large for its width, an unknown property, a failure inside a
  named property, a file that cannot be written.
* `Error.whenLoading` — what a broken rule becomes when the data came from outside.
-/

namespace Multistage

/-- Requests that are refused. -/
inductive ConfigCause where
  | unsupportedWidth (bits : Nat)
  | domainWidth (bits limit : Nat)
  | noLevels
  | emptyLevel (levels : List Nat)
  | levelsTooNarrow (levels : List Nat) (domainBits : Nat)
  | levelsTooWide (levels : List Nat) (limit : Nat)
  | unpackable (bits : Nat)
  | leafBelowByte (leafBits valuesPerByte : Nat)
  | outsideDomain (range : CodeRange) (domainBits : Nat)
  | noSearchLevels
  | searchBounds (minBits maxBits : Nat)
  | recordLength (length limit : Nat)
  | payloadLength (length limit : Nat)
  | danglingRecord (value records : Nat)
  | emptyName
  | noSideTable (name : String)
  | sideTableUnused (name : String) (kind : Kind)
  | duplicateName
  | unexpectedValue (value : String)
  | sampleUnavailable (reason : String)
  deriving DecidableEq, Repr

/-- Ranges that do not form a map. -/
inductive RangeCause where
  | inverted (range : CodeRange)
  | misplaced (range before : CodeRange)
  deriving DecidableEq, Repr

/-- Data that do not have the expected form. -/
inductive FormatCause where
  | stageCount (stages levels : Nat)
  | leafMismatch
  | raggedLevel (level cells blockSize : Nat)
  | topLevel (cells expected : Nat)
  | danglingPage (level block blocks : Nat)
  | unusedBlock (block level : Nat)
  | raggedRecords (cells stride : Nat)
  | malformedRecord (index : Nat)
  | truncated
  | magic (found : List UInt8)
  | version (found expected : Nat)
  | packingFlag (flag : Nat)
  | levelCells (count : Nat)
  | cellWidth (width : Nat)
  | sideTableFlag (flag : Nat)
  | nameLength (bytes : Nat)
  | nameEncoding
  | kindTag (tag : Nat)
  | trailing (bytes : Nat)
  /-- The data describe something that would be refused as a request. -/
  | refused (cause : ConfigCause)
  /-- A property of the data is refused, with the message given. -/
  | refusedProperty (name message : String)
  deriving DecidableEq, Repr

/-- Why an operation failed. -/
inductive Error where
  | config (cause : ConfigCause)
  | rangeOrder (cause : RangeCause)
  | valueOverflow (value : UInt32) (bits : Nat)
  | unknownProperty (name : String)
  | property (name : String) (source : Error)
  | format (cause : FormatCause)
  | io
  deriving DecidableEq, Repr

namespace ConfigCause

/-- The wording of a refusal. -/
def message : ConfigCause → String
  | unsupportedWidth bits => s!"unsupported value width: {bits} bits"
  | domainWidth bits limit => s!"domain width {bits} is outside 1..={limit}"
  | noLevels => "no levels declared"
  | emptyLevel levels => "level widths must be non-zero: " ++ Text.list levels
  | levelsTooNarrow levels domainBits =>
    let total := levels.sum
    "levels " ++ Text.list levels ++ s!" cover {total} bits, domain needs {domainBits}"
  | levelsTooWide levels limit =>
    let total := levels.sum
    "levels " ++ Text.list levels ++ s!" cover {total} bits, at most {limit} allowed"
  | unpackable bits => s!"{bits}-bit values cannot be packed into bytes"
  | leafBelowByte leafBits valuesPerByte =>
    s!"leaf level of {leafBits} bits is narrower than one packed byte ({valuesPerByte} values)"
  | outsideDomain range domainBits =>
    "range " ++ range.text ++ s!" lies outside the {domainBits}-bit domain"
  | noSearchLevels => "split search needs at least one level"
  | searchBounds minBits maxBits => s!"bad split search bounds: {minBits}..={maxBits} bits"
  | recordLength length limit => s!"side table records hold 1..={limit} codepoints, not {length}"
  | payloadLength length limit =>
    s!"side table payload of {length} codepoints, records hold 1..={limit}"
  | danglingRecord value records =>
    s!"trie value {value} points past the {records} side table records"
  | emptyName => "property name is empty"
  | noSideTable name => "codepoint list property `" ++ name ++ "` has no side table"
  | sideTableUnused name kind =>
    "property `" ++ name ++ "` of kind " ++ kind.name ++ " has a side table"
  | duplicateName => "duplicate property name"
  | unexpectedValue value => "unexpected value " ++ value
  | sampleUnavailable reason => "builtin catalog is unavailable: " ++ reason

end ConfigCause

namespace RangeCause

/-- The wording of a range that is out of order. -/
def message : RangeCause → String
  | inverted range => "inverted range " ++ range.text
  | misplaced range before => "range " ++ range.text ++ " does not follow " ++ before.text

end RangeCause

namespace FormatCause

/-- The wording of malformed data. -/
def message : FormatCause → String
  | stageCount stages levels => s!"{stages} reference levels for a {levels}-level trie"
  | leafMismatch => "leaf level does not match the descriptor"
  | raggedLevel level cells blockSize =>
    s!"level {level} holds {cells} cells, not whole blocks of {blockSize}"
  | topLevel cells expected => s!"top level holds {cells} cells, expected {expected}"
  | danglingPage level block blocks => s!"level {level} references block {block} of {blocks}"
  | unusedBlock block level => s!"block {block} of level {level} is never referenced"
  | raggedRecords cells stride => s!"{cells} side table cells do not form records of {stride}"
  | malformedRecord index => s!"malformed side table record {index}"
  | truncated => "unexpected end of data"
  | magic found => "bad magic " ++ Text.list (found.map UInt8.toNat)
  | version found expected => s!"unsupported format version {found} (expected {expected})"
  | packingFlag flag => s!"bad packing flag {flag}"
  | levelCells count => s!"level of {count} cells"
  | cellWidth width => s!"bad cell width {width}"
  | sideTableFlag flag => s!"bad side table flag {flag}"
  | nameLength bytes => s!"property name of {bytes} bytes"
  | nameEncoding => "property name is not utf-8"
  | kindTag tag => s!"unknown property kind {tag}"
  | trailing bytes => s!"{bytes} trailing bytes after catalog"
  | refused cause => cause.message
  | refusedProperty name message => "property `" ++ name ++ "`: " ++ message

end FormatCause

namespace Error

/-- The wording of an error, with what kind of error it is in front. -/
def message : Error → String
  | config cause => "config error: " ++ cause.message
  | rangeOrder cause => "range order error: " ++ cause.message
  | valueOverflow value bits =>
    "value " ++ Text.hexMarked value.toNat ++ s!" does not fit into {bits} bits"
  | unknownProperty name => "unknown property: " ++ name
  | property name source => "property `" ++ name ++ "`: " ++ source.message
  | format cause => "format error: " ++ cause.message
  | io => "I/O error"

/-- Data from outside that break a rule are malformed data: refusals keep their wording and become
errors of form, every other error stays what it is. -/
def whenLoading : Error → Error
  | config cause => format (.refused cause)
  | property name source => format (.refusedProperty name source.message)
  | error => error

end Error

end Multistage
