import Multistage.Catalog
import Multistage.Sample.AsciiClass

/-!
# A sample catalog

One or two properties of each kind over the standard domain.  The data illustrate the kinds; they are
not the full properties of Unicode.

* `Sample.row`, `Sample.specs` — the specifications of the properties.
* `Sample.catalog` — the catalog of all of them.
* `Sample.whiteSpace`, `Sample.hexDigit`, `Sample.asciiClass`, `Sample.simpleLowercaseDelta`,
  `Sample.fullCaseFolding`, `Sample.caseVariants` — the properties as functions.
-/

namespace Multistage.Sample

/-! ## Data -/

/-- White space, as ranges. -/
def whiteSpaceRanges : List (UInt32 × UInt32) := [
  (0x0009, 0x000D), (0x0020, 0x0020), (0x0085, 0x0085), (0x00A0, 0x00A0),
  (0x1680, 0x1680), (0x2000, 0x200A), (0x2028, 0x2029), (0x202F, 0x202F),
  (0x205F, 0x205F), (0x3000, 0x3000)]

/-- Hexadecimal digits, the full-width ones included. -/
def hexDigitRanges : List (UInt32 × UInt32) := [
  (0x0030, 0x0039), (0x0041, 0x0046), (0x0061, 0x0066),
  (0xFF10, 0xFF19), (0xFF21, 0xFF26), (0xFF41, 0xFF46)]

/-- The classes of the ASCII characters. -/
def asciiClassRanges : List (UInt32 × UInt32 × AsciiClass) := [
  (0x00, 0x1F, .control), (0x20, 0x20, .space), (0x21, 0x2F, .punctuation),
  (0x30, 0x39, .digit), (0x3A, 0x40, .punctuation), (0x41, 0x5A, .upper),
  (0x5B, 0x60, .punctuation), (0x61, 0x7A, .lower), (0x7B, 0x7E, .punctuation),
  (0x7F, 0x7F, .control)]

/-- The distance from a capital letter to the small one. -/
def simpleLowercaseRanges : List (UInt32 × UInt32 × Int) := [
  (0x0041, 0x005A, 32),
  (0x00C0, 0x00D6, 32),
  (0x00D8, 0x00DE, 32),
  (0x0391, 0x03A1, 32),
  (0x03A3, 0x03AB, 32),
  (0x0400, 0x040F, 80),
  (0x0410, 0x042F, 32),
  (0x2126, 0x2126, -7517),
  (0x212A, 0x212A, -8383),
  (0x212B, 0x212B, -8262),
  (0xFF21, 0xFF3A, 32)]

/-- The capital letters of ASCII, each with its small letter. -/
def asciiFoldings : List (UInt32 × List UInt32) :=
  (List.range' 0x41 26).map fun c => (UInt32.ofNat c, [UInt32.ofNat (c + 0x20)])

/-- Code points that fold to more than one. -/
def specialFoldings : List (UInt32 × List UInt32) := [
  (0x00DF, [0x0073, 0x0073]),
  (0x0149, [0x02BC, 0x006E]),
  (0x01F0, [0x006A, 0x030C]),
  (0x0390, [0x03B9, 0x0308, 0x0301]),
  (0x03B0, [0x03C5, 0x0308, 0x0301]),
  (0x0587, [0x0565, 0x0582]),
  (0x1E96, [0x0068, 0x0331]),
  (0x1E9E, [0x0073, 0x0073]),
  (0xFB00, [0x0066, 0x0066]),
  (0xFB03, [0x0066, 0x0066, 0x0069]),
  (0xFB04, [0x0066, 0x0066, 0x006C]),
  (0xFB05, [0x0073, 0x0074]),
  (0xFB06, [0x0073, 0x0074])]

/-- Capital K, small k and the Kelvin sign. -/
def kLetters : List UInt32 := [0x004B, 0x006B, 0x212A]

/-- Capital S, small s and the long s. -/
def sLetters : List UInt32 := [0x0053, 0x0073, 0x017F]

/-- The micro sign, capital Mu and small mu. -/
def muLetters : List UInt32 := [0x00B5, 0x039C, 0x03BC]

/-- Capital A with ring, small a with ring and the Angstrom sign. -/
def ringLetters : List UInt32 := [0x00C5, 0x00E5, 0x212B]

/-- Capital Omega, small omega and the Ohm sign. -/
def omegaLetters : List UInt32 := [0x03A9, 0x03C9, 0x2126]

/-- Letters with all that differ from them in case only. -/
def caseVariantLists : List (UInt32 × List UInt32) := [
  (0x004B, kLetters), (0x0053, sLetters), (0x006B, kLetters), (0x0073, sLetters),
  (0x00B5, muLetters), (0x00C5, ringLetters), (0x00E5, ringLetters), (0x017F, sLetters),
  (0x039C, muLetters), (0x03A9, omegaLetters), (0x03BC, muLetters), (0x03C9, omegaLetters),
  (0x2126, omegaLetters), (0x212A, kLetters), (0x212B, ringLetters)]

/-! ## Specifications -/

def whiteSpaceName : String := "white_space"

def hexDigitName : String := "hex_digit"

def asciiClassName : String := "ascii_class"

def simpleLowercaseName : String := "simple_lowercase_delta"

def fullCaseFoldingName : String := "full_case_folding"

def caseVariantsName : String := "case_variants"

/-- A specification with fixed widths of the levels. -/
def withLevels (levels : List Nat) : Except Error Spec → Except Error Spec
  | .error e => .error e
  | .ok s => .ok { s with split := .fixed levels }

def whiteSpaceSpec : Except Error Spec :=
  withLevels [8, 7, 6] (Spec.ofFlags whiteSpaceName whiteSpaceRanges)

def hexDigitSpec : Except Error Spec :=
  withLevels [8, 7, 6] (Spec.ofFlags hexDigitName hexDigitRanges)

def asciiClassSpec : Except Error Spec :=
  match RangeMap.ofRanges (asciiClassRanges.map fun (first, last, c) => ⟨first, last, c.ordinal⟩)
      AsciiClass.other.ordinal with
  | .error e => .error e
  | .ok map =>
    .ok { name := asciiClassName, kind := .enumeration, width := .four, map, packed := true,
          split := .fixed [11, 5, 5] }

def simpleLowercaseSpec : Except Error Spec :=
  withLevels [9, 6, 6] (Spec.ofDeltas simpleLowercaseName .sixteen simpleLowercaseRanges)

def fullCaseFoldingSpec : Except Error Spec :=
  withLevels [9, 6, 6]
    (Spec.ofLists fullCaseFoldingName 3 (asciiFoldings ++ specialFoldings))

def caseVariantsSpec : Except Error Spec :=
  withLevels [9, 6, 6] (Spec.ofLists caseVariantsName 3 caseVariantLists)

/-- What becomes of each specification, in the order of the catalog. -/
def row : List (Except Error Spec) :=
  [whiteSpaceSpec, hexDigitSpec, asciiClassSpec, simpleLowercaseSpec, fullCaseFoldingSpec,
    caseVariantsSpec]

/-- The specifications, or the first that cannot be made. -/
def specs : Except Error (List Spec) :=
  row.mapM id

/-- The making of the catalog. -/
def construction : Except Error Catalog.Construction :=
  match specs with
  | .error e => .error e
  | .ok specs => .ok (Catalog.build specs)

/-- The catalog, if all of it can be made. -/
def catalog : Except Error Catalog :=
  let made : Except Error Catalog := match construction with
    | .error e => .error e
    | .ok c => c.result
  match made with
  | .error e => .error (.config (.sampleUnavailable e.message))
  | .ok c => .ok c

/-! ## Properties as functions -/

/-- A property whose value has another kind. -/
def unexpected {α : Type} (name : String) (value : Value) : Except Error α :=
  .error (.property name (.config (.unexpectedValue value.text)))

/-- What a property of the sample says about a code point. -/
def get (name : String) (code : UInt32) : Except Error Value :=
  match catalog with
  | .error e => .error e
  | .ok c => c.get name code

def flag (name : String) (code : UInt32) : Except Error Bool :=
  match get name code with
  | .error e => .error e
  | .ok (.boolean value) => .ok value
  | .ok other => unexpected name other

def codepoints (name : String) (code : UInt32) : Except Error CodePoints :=
  match get name code with
  | .error e => .error e
  | .ok (.codepoints codes) => .ok codes
  | .ok other => unexpected name other

/-- The code point is white space. -/
def whiteSpace (code : UInt32) : Except Error Bool :=
  flag whiteSpaceName code

/-- The code point is a hexadecimal digit. -/
def hexDigit (code : UInt32) : Except Error Bool :=
  flag hexDigitName code

/-- The class of an ASCII character. -/
def asciiClass (code : UInt32) : Except Error AsciiClass :=
  match get asciiClassName code with
  | .error e => .error e
  | .ok (.enumeration ordinal) => .ok (AsciiClass.ofOrdinal ordinal)
  | .ok other => unexpected asciiClassName other

/-- The distance to the small letter, zero if there is none. -/
def simpleLowercaseDelta (code : UInt32) : Except Error Int :=
  match get simpleLowercaseName code with
  | .error e => .error e
  | .ok (.signedDelta delta) => .ok delta
  | .ok other => unexpected simpleLowercaseName other

/-- The code points a code point folds to, or itself. -/
def fullCaseFolding (code : UInt32) : Except Error CodePoints :=
  codepoints fullCaseFoldingName code

/-- The letters that differ from a letter in case only, itself included. -/
def caseVariants (code : UInt32) : Except Error CodePoints :=
  codepoints caseVariantsName code

end Multistage.Sample
