import Multistage.Property.Spec
import Multistage.Proofs.Rebuild
import Multistage.Proofs.SplitOptimal
import Multistage.Proofs.StoredForm

/-!
# What making a property comes to

A specification is first made into a table, with a split that is given or searched for, and then into a
property.  Whichever way the split is found, the table gives every code point the value of the range
map, and it is missing for a request that makes no sense or for a value without room only.

* `Error.RefusesTable` — a table was asked for in a way that makes no sense.
* `Spec.compile_eq_error` — why there is no table.
* `Spec.compile_get` — what a table that was made gives.
* `Spec.build_eq_ok`, `Spec.build_eq_error` — when there is a property, and why there is none.
* `Spec.build_stored` — what a property that was made stores.
-/

namespace Multistage

/-- Refusals that are about the domain, the levels, the packing, the ranges or the search, as against
names, side tables and what is in a catalog. -/
def ConfigCause.aboutTable : ConfigCause → Bool
  | .domainWidth .. | .noLevels | .emptyLevel .. | .levelsTooNarrow .. | .levelsTooWide .. => true
  | .unpackable .. | .leafBelowByte .. | .outsideDomain .. => true
  | .noSearchLevels | .searchBounds .. => true
  | _ => false

/-- A table was asked for in a way that makes no sense. -/
def Error.RefusesTable (e : Error) : Prop :=
  ∃ cause, e = .config cause ∧ cause.aboutTable = true

/-! ## Tables -/

theorem Layout.ofLevels_refuses {domainBits : Nat} {levels : List Nat} {width : Width}
    {packed : Bool} {e : Error} (h : ofLevels domainBits levels width packed = .error e) :
    e.RefusesTable := by
  unfold ofLevels at h
  split_ifs at h <;> cases h <;> exact ⟨_, rfl, rfl⟩

theorem RangeMap.requireDomain_refuses {m : RangeMap} {domainBits : Nat} {e : Error}
    (h : m.requireDomain domainBits = .error e) : e.RefusesTable := by
  unfold requireDomain at h
  split at h
  · split at h <;> cases h
    exact ⟨_, rfl, rfl⟩
  · cases h

theorem Compilation.build_eq_error {layout : Layout} {map : RangeMap} {e : Error}
    (h : build layout map = .error e) :
    e.RefusesTable ∨ map.requireWidth layout.width = .error e := by
  rcases (build_eq_error_iff layout map e).mp h with hd | ⟨-, hw⟩
  · exact .inl (RangeMap.requireDomain_refuses hd)
  · exact .inr hw

namespace Split

variable {map : RangeMap} {width : Width} {packed : Bool} {domainBits : Nat} {bounds : SearchBounds}

theorem search_eq_error {e : Error} (h : search map width packed domainBits bounds = .error e) :
    e.RefusesTable ∨ map.requireWidth width = .error e := by
  unfold search at h
  split at h
  · cases h
    exact .inl ⟨_, rfl, rfl⟩
  split at h
  · cases h
    exact .inl ⟨_, rfl, rfl⟩
  split at h
  · rename_i hlayout
    cases h
    exact .inl (Layout.ofLevels_refuses hlayout)
  split at h
  · rename_i hd
    cases h
    exact .inl (RangeMap.requireDomain_refuses hd)
  split at h
  · rename_i hw
    cases h
    exact .inr hw
  · cases h

end Split

namespace Spec

/-! ## The table of a specification -/

/-- Layout and build, as they follow on a split however it was found. -/
def compileWith (s : Spec) (levels : List Nat) : Except Error Compilation :=
  match Layout.ofLevels s.domainBits levels s.width s.packed with
  | .error e => .error e
  | .ok layout => Compilation.build layout s.map

variable {s : Spec} {levels : List Nat} {made : Compilation} {log : List Log.Line} {e : Error}

theorem compileWith_eq_error (h : s.compileWith levels = .error e) :
    e.RefusesTable ∨ s.map.requireWidth s.width = .error e := by
  unfold compileWith at h
  split at h
  · rename_i hlayout
    cases h
    exact .inl (Layout.ofLevels_refuses hlayout)
  · rename_i layout hlayout
    obtain ⟨-, -, hwidth, -⟩ := Layout.ofLevels_eq_ok hlayout
    rw [← hwidth]
    exact Compilation.build_eq_error h

theorem compileWith_eq_ok (h : s.compileWith levels = .ok made) :
    ∃ layout : Layout, layout.domainBits = s.domainBits ∧ layout.levels = levels ∧
      layout.width = s.width ∧ layout.packed = s.packed ∧
      Compilation.build layout s.map = .ok made := by
  unfold compileWith at h
  split at h
  · cases h
  · rename_i layout hlayout
    obtain ⟨hdomain, hlevels, hwidth, hpacked⟩ := Layout.ofLevels_eq_ok hlayout
    exact ⟨layout, hdomain, hlevels, hwidth, hpacked, h⟩

theorem compile_fixed (h : s.split = .fixed levels) :
    s.compile = (s.compileWith levels).map fun made => (made, made.log) := by
  cases hlayout : Layout.ofLevels s.domainBits levels s.width s.packed with
  | error e => simp [compile, compileWith, h, hlayout, Except.map]
  | ok layout =>
    cases hbuild : Compilation.build layout s.map <;>
      simp [compile, compileWith, h, hlayout, hbuild, Except.map]

theorem compile_search {bounds : SearchBounds} {report : SearchResult} (h : s.split = .search bounds)
    (hsearch : Split.search s.map s.width s.packed s.domainBits bounds = .ok report) :
    s.compile = (s.compileWith report.best.levels).map fun made =>
      (made, Split.logLine report :: made.log) := by
  cases hlayout : Layout.ofLevels s.domainBits report.best.levels s.width s.packed with
  | error e => simp [compile, Split.compile, compileWith, h, hsearch, hlayout, Except.map]
  | ok layout =>
    cases hbuild : Compilation.build layout s.map <;>
      simp [compile, Split.compile, compileWith, h, hsearch, hlayout, hbuild, Except.map]

theorem compile_cases (s : Spec) :
    (∃ bounds e, Split.search s.map s.width s.packed s.domainBits bounds = .error e ∧
      s.compile = .error e) ∨
    ∃ (levels : List Nat) (lines : Compilation → List Log.Line),
      s.compile = (s.compileWith levels).map fun made => (made, lines made) := by
  cases hsplit : s.split with
  | fixed levels => exact .inr ⟨levels, _, compile_fixed hsplit⟩
  | search bounds =>
    cases hsearch : Split.search s.map s.width s.packed s.domainBits bounds with
    | error e =>
      refine .inl ⟨bounds, e, hsearch, ?_⟩
      simp [compile, Split.compile, hsplit, hsearch]
    | ok report => exact .inr ⟨report.best.levels, _, compile_search hsplit hsearch⟩

/-- **Why there is no table**: the request makes no sense, or a value has no room in the width. -/
theorem compile_eq_error (h : s.compile = .error e) :
    e.RefusesTable ∨ s.map.requireWidth s.width = .error e := by
  rcases s.compile_cases with ⟨bounds, e', hsearch, hs⟩ | ⟨levels, lines, hs⟩
  · rw [hs] at h
    cases h
    exact Split.search_eq_error hsearch
  · cases hw : s.compileWith levels with
    | error e' =>
      rw [hs, hw] at h
      cases h
      exact compileWith_eq_error hw
    | ok made =>
      rw [hs, hw] at h
      cases h

theorem compile_eq_ok (h : s.compile = .ok (made, log)) :
    ∃ levels, s.compileWith levels = .ok made := by
  rcases s.compile_cases with ⟨bounds, e', -, hs⟩ | ⟨levels, lines, hs⟩
  · rw [hs] at h
    cases h
  · refine ⟨levels, ?_⟩
    cases hw : s.compileWith levels with
    | error e' =>
      rw [hs, hw] at h
      cases h
    | ok made' =>
      rw [hs, hw] at h
      cases h
      rfl

theorem exists_compile_fixed {layout : Layout} (h : s.split = .fixed levels)
    (hlayout : Layout.ofLevels s.domainBits levels s.width s.packed = .ok layout)
    (hd : s.map.requireDomain s.domainBits = .ok ()) (hw : s.map.requireWidth s.width = .ok ()) :
    ∃ made, s.compile = .ok (made, made.log) := by
  obtain ⟨hdomain, -, hwidth, -⟩ := Layout.ofLevels_eq_ok hlayout
  rw [← hdomain] at hd
  rw [← hwidth] at hw
  obtain ⟨made, hbuild⟩ := (Compilation.build_eq_ok_iff layout s.map).mpr ⟨hd, hw⟩
  refine ⟨made, ?_⟩
  simp only [compile_fixed h, compileWith, hlayout, hbuild, Except.map]

/-- **What a table that was made gives**, however the split was found: the values of the range map, in
the width that was asked for.  The ranges lie in the domain. -/
theorem compile_get (h : s.compile = .ok (made, log)) :
    s.domainBits ≤ maxKeyBits ∧ s.map.requireDomain s.domainBits = .ok () ∧
      made.table.layout.width = s.width ∧ ∀ code, made.table.get code = s.map.get code := by
  obtain ⟨levels, hw⟩ := compile_eq_ok h
  obtain ⟨layout, hdomain, -, hwidth, -, hbuild⟩ := compileWith_eq_ok hw
  obtain ⟨hd, -, hlayout, -⟩ := Compilation.build_parts hbuild
  rw [← hdomain, hlayout, hwidth]
  exact ⟨layout.domain_le, hd, rfl, Compilation.table_get hbuild⟩

/-! ## The property of a specification -/

/-- **A property is made exactly if** there is a table and the parts fit together. -/
theorem build_eq_ok {p : Property} : s.build = .ok p ↔ ∃ made log, s.compile = .ok (made, log) ∧
    Property.ofParts s.name s.kind made.table s.sideTable made.report = .ok p := by
  unfold build run
  cases hc : s.compile with
  | error e => simp
  | ok out =>
    obtain ⟨made, log⟩ := out
    cases hp : Property.ofParts s.name s.kind made.table s.sideTable made.report <;> simp [hp]

theorem build_domain {p : Property} (h : s.build = .ok p) :
    s.domainBits ≤ maxKeyBits ∧ s.map.requireDomain s.domainBits = .ok () := by
  obtain ⟨made, log, hc, -⟩ := build_eq_ok.mp h
  obtain ⟨hbits, hd, -⟩ := compile_get hc
  exact ⟨hbits, hd⟩

/-- **What a property that was made stores**: the values of the range map, for every code point. -/
theorem build_stored {p : Property} (h : s.build = .ok p) :
    p.kind = s.kind ∧ p.sideTable = s.sideTable ∧ p.table.layout.width = s.width ∧
      ∀ code, p.stored code = s.map.get code := by
  obtain ⟨made, log, hc, hparts⟩ := build_eq_ok.mp h
  obtain ⟨-, -, hwidth, hget⟩ := compile_get hc
  obtain ⟨-, hkind, htable, hside, -⟩ := Property.ofParts_eq_ok hparts
  unfold Property.stored
  rw [htable]
  exact ⟨hkind, hside, hwidth, hget⟩

theorem build_eq_error (h : s.build = .error e) : ∃ source, e = .property s.name source ∧
    (s.compile = .error source ∨ ∃ made log, s.compile = .ok (made, log) ∧
      Property.ofParts s.name s.kind made.table s.sideTable made.report = .error source) := by
  unfold build run at h
  cases hc : s.compile with
  | error source =>
    rw [hc] at h
    cases h
    exact ⟨source, rfl, .inl rfl⟩
  | ok out =>
    obtain ⟨made, log⟩ := out
    cases hp : Property.ofParts s.name s.kind made.table s.sideTable made.report with
    | error source =>
      simp only [hc, hp] at h
      cases h
      exact ⟨source, rfl, .inr ⟨made, log, rfl, hp⟩⟩
    | ok p =>
      simp only [hc, hp] at h
      cases h

end Spec

end Multistage
