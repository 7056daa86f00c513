import Multistage.Proofs.CatalogStore
import Multistage.Proofs.ReadErrors
import Multistage.Proofs.SpecOutcome

/-!
# A specification that fails fails alone

A catalog is made of specifications one after the other.  What one of them comes to depends on the
others in one way only: an earlier one of the same name may have given a property, and then the name is
taken.  An earlier one that failed leaves its name free.

* `Spec.build_source` — a failure carries the name of the property once, around its reason.
* `Spec.Taken`, `Spec.outcomeAfter` — what a specification comes to after others, said without the
  catalog; `Catalog.outcomes` — what each one of a row comes to.
* `Construction.Holds`, `Holds.add`, `build_holds` — after any number of specifications the catalog has
  the properties of the outcomes, and the failures are theirs.
* `outcomes_of_nodup` — under distinct names each comes to what it comes to alone.
* `Catalog.build_isolates` — what a catalog made of specifications holds, and what failed.
-/

namespace Multistage

namespace Spec

variable {s : Spec} {before : List Spec} {p : Property} {e : Error}

/-! ## One specification -/

theorem build_name (h : s.build = .ok p) : p.name = s.name := by
  obtain ⟨made, log, -, hparts⟩ := build_eq_ok.mp h
  exact (Property.ofParts_eq_ok hparts).1

/-- **A failure carries the name of the property once**: what is inside is the reason itself. -/
theorem build_source (h : s.build = .error e) : ∃ source, e = .property s.name source ∧
    ∀ name inner, source ≠ .property name inner := by
  obtain ⟨source, rfl, hc | ⟨made, log, -, hparts⟩⟩ := build_eq_error h
  · refine ⟨source, rfl, ?_⟩
    rintro name inner rfl
    rcases compile_eq_error hc with ⟨cause, hcause, -⟩ | hw
    · cases hcause
    · unfold RangeMap.requireWidth at hw
      split at hw <;> cases hw
  · obtain ⟨cause, rfl⟩ := Property.ofParts_refused hparts
    exact ⟨_, rfl, fun _ _ h => by cases h⟩

theorem exists_of_isOk (h : s.build.isOk = true) : ∃ p, s.build = .ok p := by
  cases hbuild : s.build with
  | error e =>
    rw [hbuild] at h
    cases h
  | ok p => exact ⟨p, rfl⟩

/-- One of the specifications has the name and gives a property. -/
def Taken (before : List Spec) (name : String) : Prop :=
  ∃ t ∈ before, t.name = name ∧ t.build.isOk = true

instance (before : List Spec) (name : String) : Decidable (Taken before name) :=
  inferInstanceAs (Decidable (∃ t ∈ before, t.name = name ∧ t.build.isOk = true))

/-- What a specification comes to after others: its own failure, or its property unless the name is
taken. -/
def outcomeAfter (before : List Spec) (s : Spec) : Except Error Property :=
  match s.build with
  | .error e => .error e
  | .ok p =>
    if Taken before s.name then .error (.property s.name (.config .duplicateName)) else .ok p

theorem outcomeAfter_eq_ok :
    s.outcomeAfter before = .ok p ↔ s.build = .ok p ∧ ¬ Taken before s.name := by
  unfold outcomeAfter
  cases s.build with
  | error e => simp
  | ok q => by_cases ht : Taken before s.name <;> simp [ht]

theorem outcomeAfter_eq_error : s.outcomeAfter before = .error e ↔ s.build = .error e ∨
    (∃ p, s.build = .ok p) ∧ Taken before s.name ∧
      e = .property s.name (.config .duplicateName) := by
  unfold outcomeAfter
  cases s.build with
  | error e' => simp
  | ok q => by_cases ht : Taken before s.name <;> simp [ht, eq_comm]

theorem taken_append_singleton {name : String} : Taken (before ++ [s]) name ↔
    Taken before name ∨ s.name = name ∧ s.build.isOk = true := by
  simp [Taken, or_and_right, exists_or]

/-- After a specification its name is taken if it was, or if this one gave a property. -/
theorem taken_after (before : List Spec) (s : Spec) (name : String) : Taken (before ++ [s]) name ↔
    Taken before name ∨ ∃ p, s.outcomeAfter before = .ok p ∧ p.name = name := by
  rw [taken_append_singleton]
  constructor
  · rintro (h | ⟨rfl, hok⟩)
    · exact .inl h
    · by_cases ht : Taken before s.name
      · exact .inl ht
      · obtain ⟨p, hp⟩ := exists_of_isOk hok
        exact .inr ⟨p, outcomeAfter_eq_ok.mpr ⟨hp, ht⟩, build_name hp⟩
  · rintro (h | ⟨p, hp, rfl⟩)
    · exact .inl h
    · obtain ⟨hbuild, -⟩ := outcomeAfter_eq_ok.mp hp
      exact .inr ⟨(build_name hbuild).symm, by rw [hbuild]; rfl⟩

end Spec

namespace Catalog

/-! ## A row of specifications -/

/-- What each specification comes to after those before it. -/
def outcomes (specs : List Spec) : List (Except Error Property) :=
  specs.mapIdx fun k s => s.outcomeAfter (specs.take k)

/-- The error of an outcome. -/
def failure? : Except Error Property → Option Error
  | .error e => some e
  | .ok _ => none

theorem outcomes_append_singleton (specs : List Spec) (s : Spec) :
    outcomes (specs ++ [s]) = outcomes specs ++ [s.outcomeAfter specs] := by
  unfold outcomes
  rw [List.mapIdx_concat, List.take_left]
  congr 1
  refine List.mapIdx_eq_mapIdx_iff.mpr fun k hk => ?_
  rw [List.take_append_of_le_length (Nat.le_of_lt hk)]

theorem outcomes_length (specs : List Spec) : (outcomes specs).length = specs.length :=
  List.length_mapIdx

theorem length_oks_add_failures : ∀ os : List (Except Error Property),
    (os.filterMap Except.toOption).length + (os.filterMap failure?).length = os.length
  | [] => rfl
  | o :: os => by
    have ih := length_oks_add_failures os
    cases o with
    | ok p =>
      simp only [List.filterMap_cons, Except.toOption, failure?, List.length_cons]
      omega
    | error e =>
      simp only [List.filterMap_cons, Except.toOption, failure?, List.length_cons]
      omega

/-! ## The catalog after a row of specifications -/

/-- What a construction holds after some specifications. -/
structure Construction.Holds (b : Construction) (specs : List Spec) : Prop where
  consistent : Consistent b.catalog
  mem_names : ∀ name, name ∈ b.catalog.names ↔ Spec.Taken specs name
  properties : b.catalog.properties.toList = (outcomes specs).filterMap Except.toOption
  failures : b.failures = (outcomes specs).filterMap failure?

namespace Construction

variable {b : Construction} {specs : List Spec} {s : Spec}

theorem add_of_error {e : Error} (h : s.build = .error e) :
    (b.add s.run).catalog = b.catalog ∧ (b.add s.run).failures = b.failures ++ [e] := by
  unfold Spec.build at h
  unfold add
  rw [h]
  exact ⟨rfl, rfl⟩

theorem add_of_insert_error {p : Property} {e : Error} (h : s.build = .ok p)
    (hinsert : b.catalog.insert p = .error e) :
    (b.add s.run).catalog = b.catalog ∧ (b.add s.run).failures = b.failures ++ [e] := by
  unfold Spec.build at h
  unfold add
  simp only [h, hinsert, and_self]

theorem add_of_insert_ok {p : Property} {c : Catalog} (h : s.build = .ok p)
    (hinsert : b.catalog.insert p = .ok c) :
    (b.add s.run).catalog = c ∧ (b.add s.run).failures = b.failures := by
  unfold Spec.build at h
  unfold add
  simp only [h, hinsert, and_self]

theorem Holds.empty : Holds ⟨empty, [], []⟩ [] where
  consistent := empty_consistent
  mem_names := by simp [names, Catalog.empty, Spec.Taken]
  properties := rfl
  failures := rfl

theorem Holds.of_failed {b' : Construction} {e : Error} (h : Holds b specs)
    (ho : s.outcomeAfter specs = .error e) (hcatalog : b'.catalog = b.catalog)
    (hfailures : b'.failures = b.failures ++ [e]) : Holds b' (specs ++ [s]) where
  consistent := hcatalog ▸ h.consistent
  mem_names name := by
    rw [hcatalog, h.mem_names, Spec.taken_after, ho]
    simp
  properties := by
    rw [hcatalog, h.properties, outcomes_append_singleton, ho]
    simp [Except.toOption]
  failures := by
    rw [hfailures, h.failures, outcomes_append_singleton, ho]
    simp [failure?]

theorem Holds.of_stored {b' : Construction} {p : Property} (h : Holds b specs)
    (ho : s.outcomeAfter specs = .ok p) (hc : Consistent b'.catalog)
    (hprops : b'.catalog.properties = b.catalog.properties.push p)
    (hfailures : b'.failures = b.failures) : Holds b' (specs ++ [s]) where
  consistent := hc
  mem_names name := by
    rw [names_push hprops, List.mem_append, h.mem_names, Spec.taken_after, ho]
    simp [eq_comm]
  properties := by
    rw [hprops, Array.toList_push, h.properties, outcomes_append_singleton, ho]
    simp [Except.toOption]
  failures := by
    rw [hfailures, h.failures, outcomes_append_singleton, ho]
    simp [failure?]

/-- **One more specification.** -/
theorem Holds.add (h : Holds b specs) (s : Spec) : Holds (b.add s.run) (specs ++ [s]) := by
  cases hbuild : s.build with
  | error e =>
    obtain ⟨hcatalog, hfailures⟩ := add_of_error (b := b) hbuild
    exact h.of_failed (Spec.outcomeAfter_eq_error.mpr (.inl hbuild)) hcatalog hfailures
  | ok p =>
    have hname := Spec.build_name hbuild
    by_cases ht : Spec.Taken specs s.name
    · have hinsert := insert_of_mem h.consistent (p := p) (by rwa [hname, h.mem_names])
      obtain ⟨hcatalog, hfailures⟩ := add_of_insert_error hbuild hinsert
      rw [hname] at hfailures
      exact h.of_failed (Spec.outcomeAfter_eq_error.mpr (.inr ⟨⟨p, hbuild⟩, ht, rfl⟩)) hcatalog
        hfailures
    · obtain ⟨c, hinsert, hprops, hc⟩ :=
        insert_of_not_mem h.consistent (p := p) (by rwa [hname, h.mem_names])
      obtain ⟨rfl, hfailures⟩ := add_of_insert_ok hbuild hinsert
      exact h.of_stored (Spec.outcomeAfter_eq_ok.mpr ⟨hbuild, ht⟩) hc hprops hfailures

theorem foldl_add_holds : ∀ (rest : List Spec) {specs : List Spec} {b : Construction}, Holds b specs →
    Holds (rest.foldl (fun b s => b.add s.run) b) (specs ++ rest)
  | [], specs, _, h => by rwa [List.append_nil]
  | s :: rest, specs, _, h => by
    have hrest := foldl_add_holds rest (h.add s)
    rwa [List.append_assoc, List.singleton_append] at hrest

end Construction

/-- **All specifications.** -/
theorem build_holds (specs : List Spec) : (build specs).Holds specs :=
  Construction.foldl_add_holds specs .empty

/-! ## Order -/

/-- **Distinct names**: each specification comes to what it comes to alone. -/
theorem outcomes_of_nodup {specs : List Spec} (h : (specs.map (·.name)).Nodup) :
    outcomes specs = specs.map Spec.build := by
  induction specs using List.reverseRecOn with
  | nil => rfl
  | append_singleton specs s ih =>
    rw [List.map_append, List.nodup_append] at h
    obtain ⟨hspecs, -, hdistinct⟩ := h
    have hfree : ¬ Spec.Taken specs s.name := by
      rintro ⟨t, ht, hname, -⟩
      exact hdistinct _ (List.mem_map_of_mem ht) _ (by simp) hname
    have hsame : s.outcomeAfter specs = s.build := by
      unfold Spec.outcomeAfter
      cases s.build with
      | error e => rfl
      | ok p => exact if_neg hfree
    rw [outcomes_append_singleton, ih hspecs, hsame, List.map_append]
    rfl

/-- **The order of specifications with distinct names** does not matter to a query. -/
theorem build_get_of_perm {specs specs' : List Spec} (hperm : specs.Perm specs')
    (hnodup : (specs.map (·.name)).Nodup) (name : String) (code : UInt32) :
    (build specs).catalog.get name code = (build specs').catalog.get name code := by
  have hnodup' := (hperm.map (·.name)).nodup_iff.mp hnodup
  have hoks : ((build specs).catalog.properties.toList).Perm
      (build specs').catalog.properties.toList := by
    rw [(build_holds specs).properties, (build_holds specs').properties, outcomes_of_nodup hnodup,
      outcomes_of_nodup hnodup']
    exact (hperm.map Spec.build).filterMap _
  refine (build_holds specs).consistent.get_congr (build_holds specs').consistent (fun p => ?_) name code
  rw [← Array.mem_toList_iff, ← Array.mem_toList_iff, hoks.mem_iff]

/-- **A specification that fails fails alone.**  The catalog has the properties of the outcomes, in the
order of the specifications, and the failures are those of the outcomes, in the same order.  The outcome
of a specification is its property exactly if it gives one by itself and none of the earlier ones that
gave one has its name.  Any other outcome carries the name of the specification, once, around the reason:
what the specification fails with by itself, or that its name is taken.  Under distinct names a catalog
gives the same in whatever order the specifications came. -/
theorem build_isolates (specs : List Spec) :
    (build specs).catalog.properties.toList = (outcomes specs).filterMap Except.toOption ∧
    (build specs).failures = (outcomes specs).filterMap failure? ∧
    (build specs).catalog.size + (build specs).failures.length = specs.length ∧
    (outcomes specs).length = specs.length ∧
    (∀ k s, specs[k]? = some s → ∃ o, (outcomes specs)[k]? = some o ∧
      (∀ p, o = .ok p ↔ s.build = .ok p ∧
        ¬ ∃ t ∈ specs.take k, t.name = s.name ∧ t.build.isOk = true) ∧
      ∀ e, o = .error e → ∃ source, e = .property s.name source ∧
        (∀ name inner, source ≠ .property name inner) ∧
        (s.build = .error e ∨ s.build.isOk = true ∧ source = .config .duplicateName)) ∧
    ∀ specs', specs.Perm specs' → (specs.map (·.name)).Nodup → ∀ name code,
      (build specs).catalog.get name code = (build specs').catalog.get name code := by
  obtain ⟨-, -, hprops, hfailures⟩ := build_holds specs
  refine ⟨hprops, hfailures, ?_, outcomes_length specs, fun k s hs => ?_, ?_⟩
  · have hlength := length_oks_add_failures (outcomes specs)
    rwa [← hprops, ← hfailures, Array.length_toList, outcomes_length] at hlength
  · refine ⟨s.outcomeAfter (specs.take k), ?_, fun p => Spec.outcomeAfter_eq_ok, fun e he => ?_⟩
    · rw [outcomes, List.getElem?_mapIdx, hs, Option.map_some]
    · rcases Spec.outcomeAfter_eq_error.mp he with hbuild | ⟨⟨p, hbuild⟩, -, rfl⟩
      · obtain ⟨source, rfl, hsource⟩ := Spec.build_source hbuild
        exact ⟨source, rfl, hsource, .inl hbuild⟩
      · exact ⟨_, rfl, fun _ _ h => (by cases h), .inr ⟨by rw [hbuild]; rfl, rfl⟩⟩
  · exact fun specs' => build_get_of_perm

/-- Three specifications of one name: the first fails and leaves the name free, the second takes it, the
third comes too late.  Two of distinct names may change places. -/
theorem build_isolates_retry : ∃ (broken plain other : Spec) (p : Property),
    plain.build = .ok p ∧ plain.name = "Age" ∧ broken.name = "Age" ∧ other.name = "Block" ∧
    (build [broken, plain, plain]).catalog.properties.toList = [p] ∧
    (build [broken, plain, plain]).failures = [.property "Age" (.config .noLevels),
      .property "Age" (.config .duplicateName)] ∧
    ∀ name code, (build [plain, other]).catalog.get name code =
      (build [other, plain]).catalog.get name code := by
  let layout : Layout := ⟨2, [1, 1], .eight, false, by decide, by decide, by decide, by decide,
    by decide, by decide, by decide, by decide⟩
  let plain : Spec := { name := "Age", kind := .enumeration, width := .eight, domainBits := 2,
                        map := ⟨[⟨1, 2, 5⟩], 0, by decide, by decide⟩, split := .fixed [1, 1] }
  let broken : Spec := { plain with split := .fixed [] }
  obtain ⟨made, hmade⟩ := Spec.exists_compile_fixed (s := plain) rfl layout.ofLevels_self
    (by decide) (by decide)
  let p : Property := ⟨"Age", .enumeration, made.table, none, made.report, by decide, rfl, by simp⟩
  have hplain : plain.build = .ok p := Spec.build_eq_ok.mpr ⟨made, made.log, hmade, p.ofParts_self⟩
  have hbroken : broken.build = .error (.property "Age" (.config .noLevels)) := rfl
  have hfree : ¬ Spec.Taken [broken] plain.name := by
    rintro ⟨t, ht, -, hok⟩
    rw [List.mem_singleton.mp ht, hbroken] at hok
    cases hok
  have htaken : Spec.Taken [broken, plain] plain.name :=
    ⟨plain, by simp, rfl, by rw [hplain]; rfl⟩
  have houtcomes : outcomes [broken, plain, plain] = [broken.outcomeAfter [],
      plain.outcomeAfter [broken], plain.outcomeAfter [broken, plain]] := rfl
  rw [Spec.outcomeAfter_eq_error.mpr (.inl hbroken), Spec.outcomeAfter_eq_ok.mpr ⟨hplain, hfree⟩,
    Spec.outcomeAfter_eq_error.mpr (.inr ⟨⟨p, hplain⟩, htaken, rfl⟩)] at houtcomes
  obtain ⟨hprops, hfailures, -⟩ := build_isolates [broken, plain, plain]
  rw [houtcomes] at hprops hfailures
  obtain ⟨-, -, -, -, -, horder⟩ := build_isolates [plain, { plain with name := "Block" }]
  exact ⟨broken, plain, _, p, hplain, rfl, rfl, rfl, hprops, hfailures,
    horder _ (.swap _ _ _) (by decide)⟩

end Catalog

end Multistage
