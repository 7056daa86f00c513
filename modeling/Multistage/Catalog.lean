import Std.Data.HashMap
import Multistage.Property.Spec

/-!
# Catalogs

A catalog holds properties in the order in which they came in, and finds them by name.  Names are
distinct.

* `Catalog.insert` — one more property; a name that is taken is refused.
* `Catalog.find`, `Catalog.get` — a property by name, and what it says about a code point.
* `Catalog.query`, `Catalog.readers` — one property, or all of them, to be asked about code points.
* `Catalog.build` — the catalog of some specifications; the failure of one leaves the others alone.
-/

namespace Multistage

structure Catalog where
  properties : Array Property
  /-- The position of each property by its name. -/
  index : Std.HashMap String Nat

namespace Catalog

/-- No properties. -/
def empty : Catalog :=
  ⟨#[], ∅⟩

/-- The catalog with one more property. -/
def insert (c : Catalog) (p : Property) : Except Error Catalog :=
  if c.index.contains p.name then .error (.property p.name (.config .duplicateName))
  else .ok ⟨c.properties.push p, c.index.insert p.name c.properties.size⟩

/-- The property of a name. -/
def find? (c : Catalog) (name : String) : Option Property :=
  match c.index[name]? with
  | some position => c.properties[position]?
  | none => none

/-- The property of a name, or that there is none. -/
def find (c : Catalog) (name : String) : Except Error Property :=
  match c.find? name with
  | some p => .ok p
  | none => .error (.unknownProperty name)

/-- What the property of a name says about a code point. -/
def get (c : Catalog) (name : String) (code : UInt32) : Except Error Value :=
  match c.find name with
  | .error e => .error e
  | .ok p => .ok (p.get code)

/-- The name of a property and what it says about code points, by its name. -/
def query (c : Catalog) (name : String) : Except Error (String × (UInt32 → Value)) :=
  match c.find name with
  | .error e => .error e
  | .ok p => .ok (p.name, p.get)

/-- Number of properties. -/
def size (c : Catalog) : Nat :=
  c.properties.size

/-- The names in the order of the properties. -/
def names (c : Catalog) : List String :=
  c.properties.toList.map (·.name)

/-- For each property its name and what it says about code points, in the order of the properties. -/
def readers (c : Catalog) : List (String × (UInt32 → Value)) :=
  c.properties.toList.map fun p => (p.name, p.get)

/-- Bytes of all tables and side tables. -/
def bytes (c : Catalog) : Nat :=
  (c.properties.toList.map Property.bytes).sum

/-- A catalog, the failures on the way to it, and what there is to report. -/
structure Construction where
  catalog : Catalog
  failures : List Error
  log : List Log.Line

/-- Put the outcome of one specification into the catalog, or note its failure. -/
def Construction.add (b : Construction) (o : Spec.Outcome) : Construction :=
  let failed (e : Error) : Construction :=
    ⟨b.catalog, b.failures ++ [e], b.log ++ o.log ++ [⟨.warn, .catalog, e.message⟩]⟩
  match o.result with
  | .error e => failed e
  | .ok p =>
    match b.catalog.insert p with
    | .error e => failed e
    | .ok catalog => ⟨catalog, b.failures, b.log ++ o.log⟩

/-- Make all specifications, in order. -/
def build (specs : List Spec) : Construction :=
  specs.foldl (fun b s => b.add s.run) ⟨empty, [], []⟩

/-- The catalog if nothing failed, or else the first failure. -/
def Construction.result (b : Construction) : Except Error Catalog :=
  match b.failures with
  | [] => .ok b.catalog
  | e :: _ => .error e

end Catalog

end Multistage
