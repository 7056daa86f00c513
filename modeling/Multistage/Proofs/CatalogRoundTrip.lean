import Multistage.Wire.Catalog
import Multistage.Proofs.CatalogStore
import Multistage.Proofs.TableRoundTrip

/-!
# Catalogs are read back

Side tables, properties and catalogs are read back from their bytes.  The reader checks again what was
checked when the parts were made, and each of these checks accepts what the writer has written.

* `SideTable.ofCells_cells`, `SideTable.reads_decode` — side tables.
* `Property.unreported` — a property without its statistics, which are not stored.
* `Property.encode_eq_ok`, `Property.reads_decode` — properties.
* `Catalog.encodeAll_isOk`, `Catalog.reads_decodeAll` — rows of properties.
* `Catalog.ofBytes_encode` — catalogs: which of them have bytes, and what is read back from these.
-/

namespace Multistage

open Decoder

/-! ## Side tables -/

namespace SideTable

theorem length_row {capacity : Nat} (r : CodeList capacity) : (row r).length = capacity + 1 := by
  have hle := r.length_le
  unfold row CodeList.length
  rw [List.length_cons, List.length_append, List.length_replicate]
  omega

theorem toNat_length {capacity : Nat} (hc : capacity ≤ maxCodes) (r : CodeList capacity) :
    (UInt32.ofNat r.length).toNat = r.length := by
  have hle : r.length ≤ capacity := r.length_le
  unfold maxCodes at hc
  exact UInt32.toNat_ofNat_of_lt' (Nat.lt_of_le_of_lt (Nat.le_trans hle hc) (by decide))

theorem ofRow?_row {capacity : Nat} (hc : capacity ≤ maxCodes) (r : CodeList capacity) :
    ofRow? capacity (row r) = some r := by
  have hle : r.length ≤ capacity := r.length_le
  have hlength := toNat_length hc r
  have hdrop : (r.codes ++ List.replicate (capacity - r.length) 0).drop r.length =
      List.replicate (capacity - r.length) 0 := List.drop_left
  have htake : (r.codes ++ List.replicate (capacity - r.length) 0).take r.length = r.codes :=
    List.take_left
  unfold row ofRow?
  simp only [hlength, hdrop, htake]
  rw [if_pos ⟨hle, by simp⟩, CodeList.ofList?_codes]

/-- All records are read back from their rows.  The induction is on the records still to come. -/
theorem readRows_flatMap_row {capacity : Nat} (hc : capacity ≤ maxCodes) :
    ∀ (rs : List (CodeList capacity)) (index : Nat) (acc : Array (CodeList capacity)),
      readRows capacity rs.length index (rs.flatMap row) acc = .ok (acc ++ rs.toArray)
  | [], _, acc => by simp [readRows]
  | r :: rs, index, acc => by
    have ih := readRows_flatMap_row hc rs (index + 1) (acc.push r)
    rw [List.length_cons, List.flatMap_cons, readRows, List.take_left' (length_row r),
      List.drop_left' (length_row r), ofRow?_row hc r]
    simpa using ih

theorem length_flatMap_row {capacity : Nat} :
    ∀ rs : List (CodeList capacity), (rs.flatMap row).length = rs.length * (capacity + 1)
  | [] => by simp
  | r :: rs => by
    rw [List.flatMap_cons, List.length_append, length_row, length_flatMap_row rs, List.length_cons,
      Nat.succ_mul, Nat.add_comm]

theorem length_cells (t : SideTable) : t.cells.length = t.cellCount := by
  unfold cells cellCount recordCount stride
  rw [List.length_append, List.length_replicate, length_flatMap_row, Array.length_toList,
    Nat.succ_mul, Nat.add_comm]

/-- **A side table is made from its own cells.** -/
theorem ofCells_cells (t : SideTable) : ofCells t.capacity t.cells = .ok t := by
  have hblank : empty t.capacity = .ok ⟨t.capacity, #[], t.capacity_pos, t.capacity_le⟩ := by
    unfold empty
    rw [dif_pos ⟨t.capacity_pos, t.capacity_le⟩]
  have hlength : t.cells.length = (t.records.size + 1) * (t.capacity + 1) := t.length_cells
  have hne : t.cells ≠ [] := by
    intro hnil
    rw [hnil, List.length_nil] at hlength
    exact absurd hlength.symm (Nat.mul_ne_zero (Nat.succ_ne_zero _) (Nat.succ_ne_zero _))
  have hwhole : ¬ (t.cells = [] ∨ t.cells.length % (t.capacity + 1) ≠ 0) := by
    rintro (h | h)
    · exact hne h
    · exact h (by rw [hlength, Nat.mul_mod_left])
  have hcount : t.cells.length / (t.capacity + 1) - 1 = t.records.toList.length := by
    rw [hlength, Nat.mul_div_cancel _ (Nat.succ_pos _), Array.length_toList, Nat.add_sub_cancel]
  have hzero : (t.cells.take (t.capacity + 1)).all (· == 0) = true := by
    have htake : t.cells.take (t.capacity + 1) = List.replicate (t.capacity + 1) 0 :=
      List.take_left' List.length_replicate
    rw [htake]
    simp
  have hread : readRows t.capacity (t.cells.length / (t.capacity + 1) - 1) 1
      (t.cells.drop (t.capacity + 1)) #[] = .ok t.records := by
    have hdrop : t.cells.drop (t.capacity + 1) = t.records.toList.flatMap row :=
      List.drop_left' List.length_replicate
    rw [hcount, hdrop, readRows_flatMap_row t.capacity_le]
    simp
  unfold ofCells
  rw [hblank]
  refine (if_neg hwhole).trans ((if_pos hzero).trans ?_)
  simp only [stride, hread]

/-- **A side table, or its absence, is read back** if it has no more cells than are read. -/
theorem reads_decode {side : Option SideTable}
    (h : ∀ t ∈ side, t.cells.length ≤ Wire.maxCells) : Reads decode (encode side) side := by
  cases side with
  | none => exact (reads_flag _ false).last (reads_pure none)
  | some t =>
    have hcount := h t rfl
    have hcapacity : t.capacity < 256 ^ 1 := Nat.lt_of_le_of_lt t.capacity_le (by decide)
    have hword : ∀ c ∈ t.cells, Reads (word 4) (Wire.number 4 c.toNat) c :=
      fun c _ => reads_word c.toNat_lt
    have hcells := reads_many t.cells hword
    simp only [encode, ← t.length_cells, List.append_assoc]
    refine (reads_flag _ true).bind ((reads_number 1 hcapacity).bind ?_)
    refine (reads_cellCount hcount).bind (hcells.last ?_)
    exact (reads_loaded t.ofCells_cells).last (reads_pure (some t))

end SideTable

/-! ## Properties -/

namespace Property

theorem ofParts_self (p : Property) :
    ofParts p.name p.kind p.table p.sideTable p.report = .ok p := by
  obtain ⟨name, kind, table, side, report, hname, hkind, hindices⟩ := p
  unfold ofParts
  rw [dif_neg hname]
  cases side with
  | none =>
    have hk : kind ≠ .codepointList := by
      simpa using hkind
    simp only [dif_neg hk]
  | some side =>
    have hk : kind = .codepointList := by
      simpa using hkind
    simp only [dif_pos hk]
    split
    · rename_i e he
      rw [hindices side rfl] at he
      cases he
    · rfl

/-- The property without its statistics. -/
def unreported (p : Property) : Property :=
  { p with report := {} }

theorem ofParts_unreported (p : Property) :
    ofParts p.name p.kind p.table p.sideTable {} = .ok p.unreported :=
  p.unreported.ofParts_self

theorem length_nameBytes (p : Property) : p.nameBytes.length = p.name.utf8ByteSize := by
  unfold nameBytes
  rw [Array.length_toList]
  rfl

theorem encode_eq_ok (p : Property) (bytes : List UInt8) :
    p.encode = .ok bytes ↔ p.name.utf8ByteSize ≤ 65535 ∧
      bytes = Wire.number 2 p.nameBytes.length ++ p.nameBytes ++ Wire.number 1 p.kind.tag ++
        p.table.encode ++ SideTable.encode p.sideTable := by
  rw [← length_nameBytes]
  unfold encode
  by_cases hlong : Wire.maxNameBytes < p.nameBytes.length
  · have hno : ¬ p.nameBytes.length ≤ 65535 := Nat.not_le.mpr hlong
    simp [hlong, hno]
  · have hyes : p.nameBytes.length ≤ 65535 := Nat.not_lt.mp hlong
    simp only [if_neg hlong, hyes, true_and, Except.ok.injEq]
    exact eq_comm

theorem reads_decodeName {p : Property} (h : p.name.utf8ByteSize ≤ 65535) :
    Reads decodeName (Wire.number 2 p.nameBytes.length ++ p.nameBytes) p.name := by
  have hlength : p.nameBytes.length < 256 ^ 2 := by
    rw [length_nameBytes]
    omega
  have hname : String.fromUTF8? ⟨p.nameBytes.toArray⟩ = some p.name := by
    simp only [nameBytes, String.fromUTF8?, String.toUTF8_eq_toByteArray, Array.toArray_toList,
      dif_pos p.name.isValidUTF8]
    rfl
  refine (reads_number 2 hlength).bind ((reads_bytes p.nameBytes).last ?_)
  rw [hname]
  exact reads_pure p.name

theorem reads_decodeKind (kind : Kind) : Reads decodeKind (Wire.number 1 kind.tag) kind := by
  have htag : kind.tag < 256 ^ 1 := by
    cases kind <;> decide
  have hkind : Kind.ofTag kind.tag = .ok kind := by
    unfold Kind.ofTag
    rw [kind.ofTag?_tag]
  exact (reads_number 1 htag).last (reads_checked hkind)

/-- **A property is read back**, without its statistics. -/
theorem reads_decode {p : Property} {bytes : List UInt8} (h : p.encode = .ok bytes)
    (hside : ∀ t ∈ p.sideTable, t.cells.length ≤ Wire.maxCells) :
    Reads decode bytes p.unreported := by
  obtain ⟨hname, rfl⟩ := (p.encode_eq_ok bytes).mp h
  simp only [List.append_assoc]
  rw [← List.append_assoc]
  refine (reads_decodeName hname).bind ((reads_decodeKind p.kind).bind ?_)
  refine p.table.reads_decode.bind ((SideTable.reads_decode hside).last ?_)
  exact reads_loaded p.ofParts_unreported

end Property

/-! ## Catalogs -/

namespace Catalog

theorem encodeAll_cons_eq_ok (p : Property) (ps : List Property) (bytes : List UInt8) :
    encodeAll (p :: ps) = .ok bytes ↔
      ∃ first others, p.encode = .ok first ∧ encodeAll ps = .ok others ∧ bytes = first ++ others := by
  rw [encodeAll]
  cases p.encode with
  | error e => simp
  | ok first =>
    cases encodeAll ps with
    | error e => simp
    | ok others => simp [eq_comm]

/-- **A row of properties has bytes exactly if no name is too long.** -/
theorem encodeAll_isOk : ∀ ps : List Property,
    (∃ bytes, encodeAll ps = .ok bytes) ↔ ∀ p ∈ ps, p.name.utf8ByteSize ≤ 65535
  | [] => by simp [encodeAll]
  | p :: ps => by
    have ih := encodeAll_isOk ps
    rw [List.forall_mem_cons, ← ih]
    constructor
    · rintro ⟨bytes, h⟩
      obtain ⟨first, others, hfirst, hothers, -⟩ := (encodeAll_cons_eq_ok p ps bytes).mp h
      exact ⟨((p.encode_eq_ok first).mp hfirst).1, others, hothers⟩
    · rintro ⟨hname, others, hothers⟩
      have hfirst := (p.encode_eq_ok _).mpr ⟨hname, rfl⟩
      exact ⟨_, (encodeAll_cons_eq_ok p ps _).mpr ⟨_, others, hfirst, hothers, rfl⟩⟩

/-- **A row of properties with distinct new names is read back** into a catalog, in order.  The
induction is on the properties still to come; the catalog they go into is general. -/
theorem reads_decodeAll :
    ∀ (ps : List Property) {c : Catalog} {bytes : List UInt8}, encodeAll ps = .ok bytes →
      Consistent c → (c.names ++ ps.map (·.name)).Nodup →
      (∀ p ∈ ps, ∀ t ∈ p.sideTable, t.cells.length ≤ Wire.maxCells) →
      Reads (decodeAll ps.length c) bytes ((ps.map Property.unreported).foldl offer c)
  | [], c, bytes, h, _, _, _ => by
    cases h
    exact reads_pure c
  | p :: ps, c, bytes, h, hc, hnodup, hside => by
    obtain ⟨first, others, hfirst, hothers, rfl⟩ := (encodeAll_cons_eq_ok p ps bytes).mp h
    obtain ⟨hp, hnodup'⟩ := nodup_names_cons hnodup
    have hp' : p.unreported.name ∉ c.names := hp
    obtain ⟨hinsert, hprops, hc'⟩ := offer_of_not_mem hc hp'
    have hnames : ((c.offer p.unreported).names ++ ps.map (·.name)).Nodup := by
      rw [names_push hprops]
      exact hnodup'
    have hrest := reads_decodeAll ps hothers hc' hnames fun q hq => hside q (by simp [hq])
    refine (Property.reads_decode hfirst (hside p (by simp))).bind ?_
    exact (reads_loaded hinsert).bind hrest

theorem encode_eq_ok (c : Catalog) (bytes : List UInt8) :
    c.encode = .ok bytes ↔ ∃ body, encodeAll c.properties.toList = .ok body ∧
      bytes = Wire.catalogMark ++ Wire.number 2 Wire.version ++ Wire.number 4 c.size ++ body := by
  unfold encode
  cases encodeAll c.properties.toList with
  | error e => simp
  | ok body => simp [eq_comm]

theorem reads_decode {c : Catalog} (hc : Consistent c) (hsize : c.size < 2 ^ 32)
    (hside : ∀ p ∈ c.properties, ∀ t ∈ p.sideTable, t.cells.length ≤ Wire.maxCells)
    {bytes : List UInt8} (h : c.encode = .ok bytes) :
    Reads decode bytes (ofInserts (c.properties.toList.map Property.unreported)) := by
  obtain ⟨body, hbody, rfl⟩ := (c.encode_eq_ok bytes).mp h
  have hnames : (empty.names ++ c.properties.toList.map (·.name)).Nodup := by
    simpa [empty, names] using hc.nodup_names
  have hrow := reads_decodeAll c.properties.toList hbody empty_consistent hnames
    fun p hp => hside p (Array.mem_toList_iff.mp hp)
  have hcount : Reads (number 4) (Wire.number 4 c.size) c.size := reads_number 4 hsize
  rw [List.append_assoc]
  exact (reads_header rfl (by decide)).bind (hcount.bind hrow)

theorem names_unreported (c : Catalog) :
    (c.properties.toList.map Property.unreported).map (·.name) = c.names := by
  unfold names
  rw [List.map_map]
  rfl

theorem get_unreported {c c' : Catalog} (hc : Consistent c) (hc' : Consistent c')
    (h : c'.properties = c.properties.map Property.unreported) (name : String) (code : UInt32) :
    c'.get name code = c.get name code := by
  have hfind : c'.find? name = (c.find? name).map Property.unreported := by
    rw [hc'.find?_eq, hc.find?_eq, h, Array.find?_map]
    rfl
  unfold get find
  rw [hfind]
  cases c.find? name with
  | none => rfl
  | some p => rfl

/-- **Catalogs are read back from their bytes.**  A catalog that came about by insertions has bytes
exactly if each name takes at most 65535 of them.  If there are fewer than `2 ^ 32` properties, and at
most `2 ^ 24` cells in each side table, then what is read back are the same properties in the same
order, without their statistics; it says the same for every name and code point. -/
theorem ofBytes_encode (inserted : List Property) :
    ((∃ bytes, (ofInserts inserted).encode = .ok bytes) ↔
      ∀ p ∈ (ofInserts inserted).properties, p.name.utf8ByteSize ≤ 65535) ∧
    ((ofInserts inserted).size < 2 ^ 32 →
      (∀ p ∈ (ofInserts inserted).properties, ∀ t ∈ p.sideTable, t.cells.length ≤ 2 ^ 24) →
      ∀ bytes, (ofInserts inserted).encode = .ok bytes →
        ∃ c, ofBytes bytes = .ok c ∧
          c.properties = (ofInserts inserted).properties.map Property.unreported ∧
          ∀ name code, c.get name code = (ofInserts inserted).get name code) := by
  have hc := ofInserts_consistent inserted
  refine ⟨?_, fun hsize hside bytes hbytes => ?_⟩
  · have hrow := encodeAll_isOk (ofInserts inserted).properties.toList
    simp only [Array.mem_toList_iff] at hrow
    rw [← hrow]
    simp only [encode_eq_ok]
    constructor
    · rintro ⟨_, body, hbody, -⟩
      exact ⟨body, hbody⟩
    · rintro ⟨body, hbody⟩
      exact ⟨_, body, hbody, rfl⟩
  · have hread := reads_decode hc hsize hside hbytes []
    have hnodup := hc.nodup_names
    rw [← names_unreported] at hnodup
    have hprops := ofInserts_properties hnodup
    rw [← List.map_toArray, Array.toArray_toList] at hprops
    refine ⟨_, ?_, hprops, get_unreported hc (ofInserts_consistent _) hprops⟩
    rw [List.append_nil] at hread
    unfold ofBytes
    rw [hread]

/-- A truth value and a list of code points over two bits of key, the latter with a side table. -/
theorem ofBytes_encode_folding :
    ∃ upper fold bytes c, upper.name = "Upper" ∧ fold.name = "Fold" ∧
      fold.sideTable.isSome = true ∧ (ofInserts [upper, fold]).encode = .ok bytes ∧
      ofBytes bytes = .ok c ∧ c.properties = #[upper.unreported, fold.unreported] ∧
      ∀ name code, c.get name code = (ofInserts [upper, fold]).get name code := by
  let layout : Layout := ⟨2, [1, 1], .eight, false, by decide, by decide, by decide, by decide,
    by decide, by decide, by decide, by decide⟩
  let table : Table := ⟨layout, [⟨1, #[0, 1]⟩], ⟨1, .eight, .plain #[0, 1, 1, 0]⟩, 0,
    by decide +kernel⟩
  let side : SideTable := ⟨2, #[⟨[0x73, 0x73], by decide, by decide⟩], by decide, by decide⟩
  let upper : Property := ⟨"Upper", .boolean, table, none, {}, by decide, rfl, by simp⟩
  let fold : Property := ⟨"Fold", .codepointList, table, some side, {}, by decide, rfl, by
    intro t ht
    cases ht
    rfl⟩
  have hprops : (ofInserts [upper, fold]).properties = #[upper, fold] :=
    ofInserts_properties (by decide)
  obtain ⟨hok, hback⟩ := ofBytes_encode [upper, fold]
  obtain ⟨bytes, hbytes⟩ := hok.mpr (by rw [hprops]; decide)
  have hsize : (ofInserts [upper, fold]).size < 2 ^ 32 := by
    unfold size
    rw [hprops]
    decide
  have hside : ∀ p ∈ (ofInserts [upper, fold]).properties, ∀ t ∈ p.sideTable,
      t.cells.length ≤ 2 ^ 24 := by
    rw [hprops]
    decide
  obtain ⟨c, hread, hc, hget⟩ := hback hsize hside bytes hbytes
  rw [hprops, List.map_toArray] at hc
  exact ⟨upper, fold, bytes, c, rfl, rfl, rfl, hbytes, hread, hc, hget⟩

end Catalog

end Multistage
