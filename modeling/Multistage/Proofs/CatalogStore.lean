import Multistage.Catalog
import Mathlib.Data.List.Nodup

/-!
# What a catalog holds

A catalog keeps its properties in a row and finds them through an index of their names.  Whatever is
inserted, the two agree.

* `Catalog.Consistent` — the index gives exactly the position of each property, by its name.
* `insert_of_not_mem`, `insert_of_mem` — one insertion: a name that is new, and one that is taken.
* `Catalog.ofInserts` — the catalog after a run of insertions, of which some may be refused.
* `ofInserts_consistent` — row and index agree after every run.
* `Consistent.find?_eq` — finding by name, without the index.
* `Consistent.get_congr` — the order of the properties does not matter to a query.
-/

namespace Multistage.Catalog

/-- The index gives the position of each property, and nothing else. -/
def Consistent (c : Catalog) : Prop :=
  ∀ (name : String) (k : Nat),
    c.index[name]? = some k ↔ ∃ p : Property, c.properties[k]? = some p ∧ p.name = name

theorem empty_consistent : Consistent empty := by
  intro name k
  simp [empty]

theorem mem_names {c : Catalog} {name : String} :
    name ∈ c.names ↔ ∃ (k : Nat) (p : Property), c.properties[k]? = some p ∧ p.name = name := by
  unfold names
  rw [List.mem_map]
  constructor
  · rintro ⟨p, hp, hname⟩
    obtain ⟨k, hk⟩ := Array.mem_iff_getElem?.mp (Array.mem_toList_iff.mp hp)
    exact ⟨k, p, hk, hname⟩
  · rintro ⟨k, p, hk, hname⟩
    exact ⟨p, Array.mem_toList_iff.mpr (Array.mem_of_getElem? hk), hname⟩

/-! ## The index -/

theorem Consistent.contains_iff {c : Catalog} (h : Consistent c) (name : String) :
    c.index.contains name = true ↔ name ∈ c.names := by
  rw [Std.HashMap.contains_eq_isSome_getElem?, Option.isSome_iff_exists, mem_names]
  exact exists_congr fun k => h name k

theorem Consistent.nodup_names {c : Catalog} (h : Consistent c) : c.names.Nodup := by
  rw [List.nodup_iff_getElem?_ne_getElem?]
  intro i j hij hj heq
  unfold names at hj heq
  rw [List.length_map, Array.length_toList] at hj
  rw [List.getElem?_map, List.getElem?_map, Array.getElem?_toList, Array.getElem?_toList,
    Array.getElem?_eq_getElem hj, Array.getElem?_eq_getElem (Nat.lt_trans hij hj), Option.map_some,
    Option.map_some, Option.some.injEq] at heq
  -- both positions are the one that the index gives for the name
  have hi := (h _ i).mpr ⟨_, Array.getElem?_eq_getElem (Nat.lt_trans hij hj), rfl⟩
  have hj' := (h _ j).mpr ⟨_, Array.getElem?_eq_getElem hj, heq.symm⟩
  rw [hi, Option.some.injEq] at hj'
  omega

/-- **Finding by name** gives the property of that name in the row. -/
theorem Consistent.find?_eq {c : Catalog} (h : Consistent c) (name : String) :
    c.find? name = c.properties.find? (·.name == name) := by
  unfold find?
  cases hindex : c.index[name]? with
  | none =>
    refine (Array.find?_eq_none.mpr fun p hp hname => ?_).symm
    obtain ⟨k, hk⟩ := Array.mem_iff_getElem?.mp hp
    have hsome := (h name k).mpr ⟨p, hk, eq_of_beq hname⟩
    rw [hindex] at hsome
    cases hsome
  | some k =>
    obtain ⟨p, hk, hname⟩ := (h name k).mp hindex
    cases hfind : c.properties.find? (·.name == name) with
    | none =>
      have hnone := Array.find?_eq_none.mp hfind p (Array.mem_of_getElem? hk)
      exact absurd (beq_of_eq hname) hnone
    | some q =>
      have hbeq := Array.find?_some hfind
      have hq : q.name = name := eq_of_beq hbeq
      obtain ⟨j, hj⟩ := Array.mem_iff_getElem?.mp (Array.mem_of_find?_eq_some hfind)
      have hpos := (h name j).mpr ⟨q, hj, hq⟩
      rw [hindex, Option.some.injEq] at hpos
      exact hpos ▸ hj

theorem Consistent.find?_eq_some {c : Catalog} (h : Consistent c) {name : String} {p : Property} :
    c.find? name = some p ↔ p ∈ c.properties ∧ p.name = name := by
  unfold find?
  constructor
  · cases hindex : c.index[name]? with
    | none => exact fun hp => by cases hp
    | some k =>
      obtain ⟨q, hk, hname⟩ := (h name k).mp hindex
      intro hp
      cases hk.symm.trans hp
      exact ⟨Array.mem_of_getElem? hk, hname⟩
  · rintro ⟨hp, rfl⟩
    obtain ⟨k, hk⟩ := Array.mem_iff_getElem?.mp hp
    rw [(h p.name k).mpr ⟨p, hk, rfl⟩]
    exact hk

/-- Catalogs of the same properties, in whatever order, give the same. -/
theorem Consistent.get_congr {c c' : Catalog} (hc : Consistent c) (hc' : Consistent c')
    (h : ∀ p, p ∈ c.properties ↔ p ∈ c'.properties) (name : String) (code : UInt32) :
    c.get name code = c'.get name code := by
  have hfind : c.find? name = c'.find? name := by
    refine Option.ext fun p => ?_
    rw [hc.find?_eq_some, hc'.find?_eq_some, h]
  unfold get find
  rw [hfind]

/-! ## One insertion -/

/-- **A name that is new**: the property comes last. -/
theorem insert_of_not_mem {c : Catalog} (hc : Consistent c) {p : Property} (hp : p.name ∉ c.names) :
    ∃ c', c.insert p = .ok c' ∧ c'.properties = c.properties.push p ∧ Consistent c' := by
  have hfree : ¬ c.index.contains p.name = true := mt (hc.contains_iff p.name).mp hp
  unfold insert
  rw [if_neg hfree]
  refine ⟨_, rfl, rfl, fun name k => ?_⟩
  rw [Std.HashMap.getElem?_insert, Array.getElem?_push]
  by_cases hname : p.name = name
  · subst hname
    rw [if_pos (beq_self_eq_true _), Option.some.injEq]
    constructor
    · rintro rfl
      exact ⟨p, if_pos rfl, rfl⟩
    · rintro ⟨q, hq, hqname⟩
      by_cases hk : k = c.properties.size
      · exact hk.symm
      · rw [if_neg hk] at hq
        exact absurd (mem_names.mpr ⟨k, q, hq, hqname⟩) hp
  · rw [if_neg (by simpa using hname), hc name k]
    refine exists_congr fun q => and_congr_left fun hqname => ?_
    by_cases hk : k = c.properties.size
    · rw [if_pos hk, hk, Array.getElem?_size, Option.some.injEq]
      constructor
      · intro h
        cases h
      · rintro rfl
        exact absurd hqname hname
    · rw [if_neg hk]

/-- **A name that is taken**: the property is refused. -/
theorem insert_of_mem {c : Catalog} (hc : Consistent c) {p : Property} (hp : p.name ∈ c.names) :
    c.insert p = .error (.property p.name (.config .duplicateName)) := by
  unfold insert
  rw [if_pos ((hc.contains_iff p.name).mpr hp)]

/-! ## Runs of insertions -/

/-- The catalog after an insertion; one that is refused leaves it as it is. -/
def offer (c : Catalog) (p : Property) : Catalog :=
  match c.insert p with
  | .ok c' => c'
  | .error _ => c

/-- The catalog after insertions into the empty one, in order. -/
def ofInserts (ps : List Property) : Catalog :=
  ps.foldl offer empty

theorem offer_of_not_mem {c : Catalog} (hc : Consistent c) {p : Property} (hp : p.name ∉ c.names) :
    c.insert p = .ok (c.offer p) ∧ (c.offer p).properties = c.properties.push p ∧
      Consistent (c.offer p) := by
  obtain ⟨c', hinsert, hprops, hc'⟩ := insert_of_not_mem hc hp
  unfold offer
  rw [hinsert]
  exact ⟨rfl, hprops, hc'⟩

theorem names_push {c c' : Catalog} {p : Property} (h : c'.properties = c.properties.push p) :
    c'.names = c.names ++ [p.name] := by
  unfold names
  rw [h]
  simp

theorem offer_of_mem {c : Catalog} (hc : Consistent c) {p : Property} (hp : p.name ∈ c.names) :
    c.offer p = c := by
  unfold offer
  rw [insert_of_mem hc hp]

/-- **One step of a run.** -/
theorem offer_consistent {c : Catalog} (hc : Consistent c) (p : Property) :
    Consistent (c.offer p) := by
  by_cases hp : p.name ∈ c.names
  · rw [offer_of_mem hc hp]
    exact hc
  · exact (offer_of_not_mem hc hp).2.2

theorem foldl_offer_consistent :
    ∀ (ps : List Property) {c : Catalog}, Consistent c → Consistent (ps.foldl offer c)
  | [], _, hc => hc
  | p :: ps, _, hc => foldl_offer_consistent ps (offer_consistent hc p)

/-- **Row and index agree after every run.** -/
theorem ofInserts_consistent (ps : List Property) : Consistent (ofInserts ps) :=
  foldl_offer_consistent ps empty_consistent

theorem nodup_names_cons {names : List String} {p : Property} {ps : List Property}
    (h : (names ++ (p :: ps).map (·.name)).Nodup) :
    p.name ∉ names ∧ ((names ++ [p.name]) ++ ps.map (·.name)).Nodup := by
  refine ⟨fun hmem => ?_, by simpa using h⟩
  exact List.disjoint_of_nodup_append h hmem (by simp)

theorem foldl_offer_properties :
    ∀ (ps : List Property) {c : Catalog}, Consistent c → (c.names ++ ps.map (·.name)).Nodup →
      (ps.foldl offer c).properties = c.properties ++ ps.toArray
  | [], c, _, _ => by simp
  | p :: ps, c, hc, hnodup => by
    obtain ⟨hp, hnodup'⟩ := nodup_names_cons hnodup
    obtain ⟨-, hprops, hc'⟩ := offer_of_not_mem hc hp
    have hrest := foldl_offer_properties ps hc' (by rwa [names_push hprops])
    rw [List.foldl_cons, hrest, hprops]
    simp

theorem ofInserts_properties {ps : List Property} (h : (ps.map (·.name)).Nodup) :
    (ofInserts ps).properties = ps.toArray := by
  have hprops := foldl_offer_properties ps empty_consistent (by simpa [names, empty] using h)
  rwa [empty, Array.empty_append] at hprops

end Multistage.Catalog
