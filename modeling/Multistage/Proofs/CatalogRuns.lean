import Multistage.Proofs.CatalogStore
import Multistage.Proofs.Sharing

/-!
# Runs of insertions into a catalog

Of the properties that are offered to a catalog under one name, the first is kept and the others are
refused.  So the catalog after a run is known without its index: it has the first property of each
name, in the order in which the names first came.

* `Catalog.firsts` — the first property of each name.
* `ofInserts_names`, `ofInserts_properties_eq` — names and properties after a run.
* `Consistent.index_iff` — the index has exactly the places of the names.
* `Consistent.guardedFind_eq` — a place in the index is a place in the row.
* `find?_ofInserts` — a name leads to the first property that came in under it.
* `ofInserts_run` — all of it, for every way in which a catalog is asked.
-/

namespace Multistage.Catalog

/-! ## The index of a catalog -/

/-- The property of a name, or that there is none.  A place that the index gives has to be there. -/
def guardedFind (c : Catalog) (name : String) : Option (Except Error Property) :=
  match c.index[name]? with
  | none => some (.error (.unknownProperty name))
  | some k =>
    match c.properties[k]? with
    | none => none
    | some p => some (.ok p)

theorem getElem?_names (c : Catalog) (k : Nat) : c.names[k]? = c.properties[k]?.map (·.name) := by
  rw [names, List.getElem?_map, Array.getElem?_toList]

/-- **The index has exactly the places of the names.** -/
theorem Consistent.index_iff {c : Catalog} (h : Consistent c) (name : String) (k : Nat) :
    c.index[name]? = some k ↔ c.names[k]? = some name := by
  rw [h name k, getElem?_names, Option.map_eq_some_iff]

/-- **Finding never goes outside the row.** -/
theorem Consistent.guardedFind_eq {c : Catalog} (h : Consistent c) (name : String) :
    c.guardedFind name = some (c.find name) := by
  unfold guardedFind find find?
  cases hindex : c.index[name]? with
  | none => rfl
  | some k =>
    obtain ⟨p, hp, -⟩ := (h name k).mp hindex
    simp only [hp]

theorem Consistent.find?_eq_none {c : Catalog} (h : Consistent c) {name : String} :
    c.find? name = none ↔ name ∉ c.names := by
  rw [h.find?_eq, Array.find?_eq_none, names, List.mem_map]
  constructor
  · rintro hall ⟨p, hp, rfl⟩
    exact hall p (Array.mem_toList_iff.mp hp) (beq_self_eq_true _)
  · intro hnot p hp hname
    exact hnot ⟨p, Array.mem_toList_iff.mpr hp, eq_of_beq hname⟩

/-! ## First properties -/

/-- The first property of each name, in the order in which the names first come. -/
def firsts (ps : List Property) : List Property :=
  (ps.map (·.name)).eraseDups.filterMap fun name => ps.find? (·.name == name)

theorem isSome_find?_iff {ps : List Property} {name : String} :
    (ps.find? (·.name == name)).isSome = true ↔ name ∈ ps.map (·.name) := by
  rw [List.find?_isSome, List.mem_map]
  simp only [beq_iff_eq]

theorem name_of_find?_eq_some {ps : List Property} {name : String} {p : Property}
    (h : ps.find? (·.name == name) = some p) : p.name = name := by
  have hbeq := List.find?_some h
  exact eq_of_beq hbeq

theorem find?_concat_of_mem {ps : List Property} {name : String} (h : name ∈ ps.map (·.name))
    (p : Property) : (ps ++ [p]).find? (·.name == name) = ps.find? (·.name == name) := by
  rw [List.find?_append, Option.or_of_isSome (isSome_find?_iff.mpr h)]

theorem firsts_names (ps : List Property) :
    (firsts ps).map (·.name) = (ps.map (·.name)).eraseDups := by
  have hname : ∀ name ∈ (ps.map (·.name)).eraseDups,
      (ps.find? (·.name == name)).map (·.name) = some name := by
    intro name hmem
    obtain ⟨p, hfind⟩ := Option.isSome_iff_exists.mp
      (isSome_find?_iff.mpr (List.mem_eraseDups.mp hmem))
    rw [hfind, Option.map_some, name_of_find?_eq_some hfind]
  rw [firsts, List.map_filterMap, List.filterMap_congr hname, List.filterMap_some]

theorem firsts_concat_of_mem {ps : List Property} {p : Property} (h : p.name ∈ ps.map (·.name)) :
    firsts (ps ++ [p]) = firsts ps := by
  unfold firsts
  rw [List.map_append, List.map_singleton, eraseDups_concat_of_mem h]
  refine List.filterMap_congr fun name hname => ?_
  exact find?_concat_of_mem (List.mem_eraseDups.mp hname) p

theorem firsts_concat_of_not_mem {ps : List Property} {p : Property}
    (h : p.name ∉ ps.map (·.name)) : firsts (ps ++ [p]) = firsts ps ++ [p] := by
  have hnone : ps.find? (·.name == p.name) = none := by
    rwa [← isSome_find?_iff, Option.not_isSome_iff_eq_none] at h
  unfold firsts
  rw [List.map_append, List.map_singleton, eraseDups_concat_of_not_mem h, List.filterMap_append]
  congr 1
  · refine List.filterMap_congr fun name hname => ?_
    exact find?_concat_of_mem (List.mem_eraseDups.mp hname) p
  · simp [hnone]

/-! ## Runs -/

theorem ofInserts_concat (ps : List Property) (p : Property) :
    ofInserts (ps ++ [p]) = (ofInserts ps).offer p := by
  rw [ofInserts, List.foldl_append]
  rfl

/-- **A run keeps the first property of each name**, in order. -/
theorem ofInserts_properties_eq (ps : List Property) :
    (ofInserts ps).properties.toList = firsts ps := by
  induction ps using List.reverseRecOn with
  | nil => rfl
  | append_singleton ps p ih =>
    have hc := ofInserts_consistent ps
    have hnames : (ofInserts ps).names = (ps.map (·.name)).eraseDups := by
      rw [names, ih, firsts_names]
    have hmem : p.name ∈ (ofInserts ps).names ↔ p.name ∈ ps.map (·.name) := by
      rw [hnames, List.mem_eraseDups]
    rw [ofInserts_concat]
    by_cases hp : p.name ∈ (ofInserts ps).names
    · rw [offer_of_mem hc hp, ih, firsts_concat_of_mem (hmem.mp hp)]
    · rw [(offer_of_not_mem hc hp).2.1, Array.toList_push, ih,
        firsts_concat_of_not_mem (mt hmem.mpr hp)]

theorem ofInserts_names (ps : List Property) :
    (ofInserts ps).names = (ps.map (·.name)).eraseDups := by
  rw [names, ofInserts_properties_eq, firsts_names]

theorem mem_firsts {ps : List Property} {p : Property} :
    p ∈ firsts ps ↔ ps.find? (·.name == p.name) = some p := by
  rw [firsts, List.mem_filterMap]
  constructor
  · rintro ⟨name, -, hfind⟩
    rwa [name_of_find?_eq_some hfind]
  · intro hfind
    have hmem : p.name ∈ ps.map (·.name) := isSome_find?_iff.mp (by rw [hfind]; rfl)
    exact ⟨p.name, List.mem_eraseDups.mpr hmem, hfind⟩

/-- **A name leads to the first property that came in under it.** -/
theorem find?_ofInserts (ps : List Property) (name : String) :
    (ofInserts ps).find? name = ps.find? (·.name == name) := by
  have hc := ofInserts_consistent ps
  cases hfind : ps.find? (·.name == name) with
  | none =>
    rw [hc.find?_eq_none, ofInserts_names, List.mem_eraseDups, ← isSome_find?_iff, hfind]
    exact Bool.false_ne_true
  | some p =>
    obtain rfl := name_of_find?_eq_some hfind
    have hmem := mem_firsts.mpr hfind
    rw [← ofInserts_properties_eq, Array.mem_toList_iff] at hmem
    exact hc.find?_eq_some.mpr ⟨hmem, rfl⟩

/-- A property of the name was inserted at some point of the run, and was not refused. -/
def Inserted (ps : List Property) (name : String) : Prop :=
  ∃ (before : List Property) (p : Property) (after : List Property) (c : Catalog),
    ps = before ++ p :: after ∧ p.name = name ∧ (ofInserts before).insert p = .ok c

theorem inserted_iff {ps : List Property} {name : String} :
    Inserted ps name ↔ name ∈ ps.map (·.name) := by
  constructor
  · rintro ⟨before, p, after, c, rfl, rfl, -⟩
    simp
  · intro hmem
    obtain ⟨p, hfind⟩ := Option.isSome_iff_exists.mp (isSome_find?_iff.mpr hmem)
    obtain rfl := name_of_find?_eq_some hfind
    obtain ⟨-, before, after, hps, hbefore⟩ := List.find?_eq_some_iff_append.mp hfind
    have hnew : p.name ∉ (ofInserts before).names := by
      rw [ofInserts_names, List.mem_eraseDups, List.mem_map]
      rintro ⟨q, hq, hqname⟩
      have hne := hbefore q hq
      simp [hqname] at hne
    obtain ⟨c, hinsert, -⟩ := insert_of_not_mem (ofInserts_consistent before) hnew
    exact ⟨before, p, after, c, hps, rfl, hinsert⟩

theorem find_eq_ok {c : Catalog} {name : String} {p : Property} (h : c.find? name = some p) :
    c.find name = .ok p ∧ c.query name = .ok (p.name, p.get) ∧
      ∀ code, c.get name code = .ok (p.get code) := by
  have hfind : c.find name = .ok p := by simp only [find, h]
  exact ⟨hfind, by simp only [query, hfind], fun code => by simp only [get, hfind]⟩

theorem find_eq_error {c : Catalog} {name : String} (h : c.find? name = none) :
    c.find name = .error (.unknownProperty name) ∧
      c.query name = .error (.unknownProperty name) ∧
      ∀ code, c.get name code = .error (.unknownProperty name) := by
  have hfind : c.find name = .error (.unknownProperty name) := by simp only [find, h]
  exact ⟨hfind, by simp only [query, hfind], fun code => by simp only [get, hfind]⟩

/-- **One more insertion**: it is refused exactly if the name is taken, and then nothing changes. -/
theorem insert_outcome {c : Catalog} (hc : Consistent c) (p : Property) :
    ((∃ e, c.insert p = .error e) ↔ p.name ∈ c.names) ∧
      (∀ e, c.insert p = .error e →
        e = .property p.name (.config .duplicateName) ∧ c.offer p = c) ∧
      ∀ c', c.insert p = .ok c' → c' = c.offer p ∧ c'.properties = c.properties.push p := by
  by_cases hp : p.name ∈ c.names
  · rw [insert_of_mem hc hp, offer_of_mem hc hp]
    refine ⟨⟨fun _ => hp, fun _ => ⟨_, rfl⟩⟩, ?_, ?_⟩
    · rintro e ⟨⟩
      exact ⟨rfl, rfl⟩
    · rintro c' ⟨⟩
  · obtain ⟨hinsert, hprops, -⟩ := offer_of_not_mem hc hp
    rw [hinsert]
    refine ⟨⟨?_, fun hmem => absurd hmem hp⟩, ?_, ?_⟩
    · rintro ⟨e, ⟨⟩⟩
    · rintro e ⟨⟩
    · rintro c' ⟨⟩
      exact ⟨rfl, hprops⟩

/-- **A name is unknown exactly if no property ever went in under it.** -/
theorem unknown_iff (ps : List Property) (name : String) :
    ((ofInserts ps).find name = .error (.unknownProperty name) ↔ ¬ Inserted ps name) ∧
      ((ofInserts ps).query name = .error (.unknownProperty name) ↔ ¬ Inserted ps name) ∧
      ∀ code, (ofInserts ps).get name code = .error (.unknownProperty name) ↔
        ¬ Inserted ps name := by
  rw [inserted_iff, ← isSome_find?_iff, ← find?_ofInserts]
  cases hfind : (ofInserts ps).find? name with
  | none =>
    obtain ⟨hf, hq, hg⟩ := find_eq_error hfind
    have hnot : ¬ (none : Option Property).isSome = true := Bool.false_ne_true
    exact ⟨iff_of_true hf hnot, iff_of_true hq hnot, fun code => iff_of_true (hg code) hnot⟩
  | some p =>
    obtain ⟨hf, hq, hg⟩ := find_eq_ok hfind
    rw [hf, hq]
    refine ⟨by simp, by simp, fun code => ?_⟩
    rw [hg code]
    simp

/-- **A catalog after any run of insertions**, of which some were refused.  The names are distinct,
and the index has their places and nothing else.  One more insertion is refused exactly if the name
is there, and then nothing changes.  A name leads, whichever way it is asked for, to the first
property that came in under it; it is unknown exactly if none ever went in.  Names and readers are
listed in the order in which their properties went in. -/
theorem ofInserts_run (ps : List Property) :
    (ofInserts ps).names.Nodup ∧
    (∀ (name : String) (k : Nat),
      (ofInserts ps).index[name]? = some k ↔ (ofInserts ps).names[k]? = some name) ∧
    (∀ p, ((∃ e, (ofInserts ps).insert p = .error e) ↔ p.name ∈ (ofInserts ps).names) ∧
      (∀ e, (ofInserts ps).insert p = .error e →
        e = .property p.name (.config .duplicateName) ∧ ofInserts (ps ++ [p]) = ofInserts ps) ∧
      ∀ c, (ofInserts ps).insert p = .ok c →
        c = ofInserts (ps ++ [p]) ∧ c.properties = (ofInserts ps).properties.push p) ∧
    (∀ name, (ofInserts ps).guardedFind name = some ((ofInserts ps).find name)) ∧
    (∀ name p, ps.find? (·.name == name) = some p →
      (ofInserts ps).find name = .ok p ∧ (ofInserts ps).query name = .ok (p.name, p.get) ∧
        ∀ code, (ofInserts ps).get name code = .ok (p.get code)) ∧
    (∀ name, ((ofInserts ps).find name = .error (.unknownProperty name) ↔ ¬ Inserted ps name) ∧
      ((ofInserts ps).query name = .error (.unknownProperty name) ↔ ¬ Inserted ps name) ∧
      ∀ code, (ofInserts ps).get name code = .error (.unknownProperty name) ↔
        ¬ Inserted ps name) ∧
    (ofInserts ps).names = (ps.map (·.name)).eraseDups ∧
    (ofInserts ps).names = (firsts ps).map (·.name) ∧
    (ofInserts ps).readers = (firsts ps).map fun p => (p.name, p.get) := by
  have hc := ofInserts_consistent ps
  refine ⟨hc.nodup_names, hc.index_iff, fun p => ?_, hc.guardedFind_eq, fun name p hfind => ?_,
    unknown_iff ps, ofInserts_names ps, ?_, ?_⟩
  · rw [ofInserts_concat]
    exact insert_outcome hc p
  · exact find_eq_ok ((find?_ofInserts ps name).trans hfind)
  · rw [names, ofInserts_properties_eq]
  · rw [readers, ofInserts_properties_eq]

/-- A property that comes under a name that is taken is refused, and the name keeps its values. -/
theorem ofInserts_run_taken : ∃ first other late : Property,
    first.get 1 ≠ late.get 1 ∧
    (ofInserts [first, other]).insert late = .error (.property "Age" (.config .duplicateName)) ∧
    ofInserts [first, other, late] = ofInserts [first, other] ∧
    (ofInserts [first, other, late]).find "Age" = .ok first ∧
    (ofInserts [first, other, late]).get "Age" 1 = .ok (first.get 1) ∧
    (ofInserts [first, other, late]).query "Script" = .error (.unknownProperty "Script") ∧
    (ofInserts [first, other, late]).names = ["Age", "Block"] ∧
    (ofInserts [first, other, late]).index["Block"]? = some 1 := by
  let layout : Layout := ⟨1, [1], .eight, false, by decide, by decide, by decide, by decide,
    by decide, by decide, by decide, by decide⟩
  let table : Table := ⟨layout, [], ⟨1, .eight, .plain #[0, 7]⟩, 0, by decide +kernel⟩
  let table' : Table := ⟨layout, [], ⟨1, .eight, .plain #[0, 8]⟩, 0, by decide +kernel⟩
  let first : Property := ⟨"Age", .enumeration, table, none, {}, by decide, rfl, by simp⟩
  let other : Property := ⟨"Block", .enumeration, table, none, {}, by decide, rfl, by simp⟩
  let late : Property := ⟨"Age", .enumeration, table', none, {}, by decide, rfl, by simp⟩
  obtain ⟨-, -, hinsert, -, -, -, hnames, -⟩ := ofInserts_run [first, other]
  obtain ⟨hiff, hrefused, -⟩ := hinsert late
  obtain ⟨e, he⟩ := hiff.mpr (by rw [hnames]; decide)
  obtain ⟨rfl, hsame⟩ := hrefused e he
  obtain ⟨-, hindex, -, -, hfound, hunknown, hnames', -⟩ := ofInserts_run [first, other, late]
  obtain ⟨hfind, -, hget⟩ := hfound "Age" first (by simp [first])
  have hlist : (ofInserts [first, other, late]).names = ["Age", "Block"] := by
    rw [hnames']
    decide
  refine ⟨first, other, late, by decide +kernel, he, hsame, hfind, hget 1,
    (hunknown "Script").2.1.mpr ?_, hlist, (hindex "Block" 1).mpr (by rw [hlist]; rfl)⟩
  rw [inserted_iff]
  decide

end Multistage.Catalog
