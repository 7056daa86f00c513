import Multistage.Proofs.StoredForm
import Mathlib.Order.Bounds.Defs

/-!
# Writing out again what was read

Data that are read as a catalog are its bytes with stage cells of some widths, and writing it out again
takes the least of these widths.  Nothing else changes, so the data get no longer, and stay the same
exactly if their stages were stored as narrow as possible.

* `Stage.Narrowest`, `Catalog.Narrowest` — the least widths that hold the page numbers.
* `Catalog.encodeIn_inj` — the bytes determine the widths.
* `Catalog.encode_eq_encodeIn` — the writer takes the least widths.
* `Catalog.reencode_normal` — writing out again what was read.
-/

namespace Multistage

/-! ## Rows of parts, each with a width -/

section Rows

variable {α γ : Type} {R L : α → γ → Prop} {write : α → γ → List UInt8} {least : α → γ}

/-- Parts in a row: if the bytes of each determine its width and where it ends, so do those of all. -/
theorem flatten_zipWith_inj {as : List α} {ws : List γ} (h : List.Forall₂ R as ws)
    (hpart : ∀ a w w' r r', R a w → R a w' → write a w ++ r = write a w' ++ r' → w = w' ∧ r = r') :
    ∀ {ws' : List γ} {r r' : List UInt8}, List.Forall₂ R as ws' →
      (List.zipWith write as ws).flatten ++ r = (List.zipWith write as ws').flatten ++ r' →
      ws = ws' ∧ r = r' := by
  induction h with
  | nil =>
    intro ws' r r' h' heq
    cases h'
    exact ⟨rfl, heq⟩
  | cons hfirst _ ih =>
    intro ws' r r' h' heq
    cases h' with
    | cons hfirst' hrest' =>
      simp only [List.zipWith_cons_cons, List.flatten_cons, List.append_assoc] at heq
      obtain ⟨rfl, hrest⟩ := hpart _ _ _ _ _ hfirst hfirst' heq
      obtain ⟨rfl, hr⟩ := ih hrest' hrest
      exact ⟨rfl, hr⟩

theorem length_flatten_zipWith_le {as : List α} {ws : List γ} (h : List.Forall₂ R as ws)
    (hpart : ∀ a w, R a w → (write a (least a)).length ≤ (write a w).length) :
    (List.zipWith write as (as.map least)).flatten.length ≤
      (List.zipWith write as ws).flatten.length := by
  induction h with
  | nil => exact Nat.le_refl _
  | cons hfirst _ ih =>
    simp only [List.map_cons, List.zipWith_cons_cons, List.flatten_cons, List.length_append]
    exact Nat.add_le_add (hpart _ _ hfirst) ih

/-- What says of each width that it is the least says of a row that it is that of the least widths. -/
theorem forall₂_iff_eq_map {as : List α} {ws : List γ} (h : List.Forall₂ R as ws)
    (hpart : ∀ a w, R a w → ∀ w', L a w' ↔ w' = least a) :
    ∀ {ws' : List γ}, List.Forall₂ L as ws' ↔ ws' = as.map least := by
  induction h with
  | nil =>
    intro ws'
    rw [List.forall₂_nil_left_iff, List.map_nil]
  | cons hfirst _ ih =>
    intro ws'
    rw [List.forall₂_cons_left_iff]
    simp only [hpart _ _ hfirst, ih, List.map_cons, exists_and_left, exists_eq_left]

theorem mem_zipWith_of_forall₂ {as : List α} {ws : List γ} (h : List.Forall₂ R as ws) {a : α}
    (ha : a ∈ as) : ∃ w, write a w ∈ List.zipWith write as ws := by
  induction h with
  | nil => cases ha
  | cons _ _ ih =>
    rw [List.zipWith_cons_cons]
    rcases List.mem_cons.mp ha with rfl | hrest
    · exact ⟨_, List.mem_cons_self⟩
    · obtain ⟨w, hw⟩ := ih hrest
      exact ⟨w, List.mem_cons_of_mem _ hw⟩

end Rows

/-! ## One stage -/

namespace Stage

variable {s : Stage} {width : Nat}

/-- The least of the widths that hold the page numbers. -/
def Narrowest (s : Stage) (width : Nat) : Prop :=
  IsLeast {w | s.Holds w} width

theorem Holds.cellBytes_le (h : s.Holds width) : s.cellBytes ≤ width := by
  obtain ⟨hwidth, hpages⟩ := h
  have hlargest : largest s.pages ≤ 256 ^ width - 1 :=
    largest_le_iff.mpr fun page hpage => Nat.le_sub_one_of_lt (hpages page hpage)
  unfold cellBytes bytesFor
  rcases hwidth with rfl | rfl | rfl
  · rw [if_pos (by omega)]
  · split_ifs <;> omega
  · split_ifs <;> omega

theorem Holds.cellBytes (h : s.Holds width) : s.Holds s.cellBytes := by
  have hle : width ≤ 4 := by
    rcases h.1 with rfl | rfl | rfl <;> decide
  have hpow : 256 ^ width ≤ 256 ^ 4 := Nat.pow_le_pow_right (by decide) hle
  exact ⟨bytesFor_cases _, page_lt fun page hpage => Nat.lt_of_lt_of_le (h.2 page hpage) hpow⟩

/-- **The least width is the one that the writer takes.** -/
theorem Holds.narrowest_iff (h : s.Holds width) (w : Nat) : s.Narrowest w ↔ w = s.cellBytes := by
  constructor
  · rintro ⟨hw, hleast⟩
    exact Nat.le_antisymm (hleast h.cellBytes) hw.cellBytes_le
  · rintro rfl
    exact ⟨h.cellBytes, fun w hw => hw.cellBytes_le⟩

end Stage

namespace Wire

theorem number_inj {size m n : Nat} (hm : m < 256 ^ size) (hn : n < 256 ^ size)
    (h : number size m = number size n) : m = n := by
  have hread := Decoder.reads_number size hm []
  rw [h, Decoder.reads_number size hn []] at hread
  cases hread
  rfl

theorem length_stageIn (s : Stage) (width : Nat) :
    (stageIn s width).length = 5 + s.pages.size * width := by
  simp [stageIn, ← Nat.add_assoc]

/-- The fifth byte of a stage is the width of its cells. -/
theorem stageIn_inj {s : Stage} {w w' : Nat} {r r' : List UInt8} (hw : s.Holds w)
    (hw' : s.Holds w') (h : stageIn s w ++ r = stageIn s w' ++ r') : w = w' ∧ r = r' := by
  have hbyte : ∀ {w}, s.Holds w → w < 256 ^ 1 := by
    rintro w ⟨rfl | rfl | rfl, -⟩ <;> decide
  simp only [stageIn, List.append_assoc] at h
  obtain ⟨hwidth, hcells⟩ := List.append_inj (List.append_cancel_left h)
    ((length_number 1 w).trans (length_number 1 w').symm)
  obtain rfl := number_inj (hbyte hw) (hbyte hw') hwidth
  exact ⟨rfl, List.append_cancel_left hcells⟩

end Wire

/-! ## Tables, properties and catalogs -/

namespace Table

variable {t : Table} {widths : List Nat}

/-- The widths that the writer takes. -/
def cellWidths (t : Table) : List Nat :=
  t.stages.map Stage.cellBytes

/-- The widths are the least that hold the page numbers. -/
def Narrowest (t : Table) (widths : List Nat) : Prop :=
  List.Forall₂ Stage.Narrowest t.stages widths

theorem encodeIn_cellWidths (t : Table) : t.encodeIn t.cellWidths = t.encode := by
  unfold encodeIn cellWidths encode
  rw [List.zipWith_map_right, List.zipWith_self, List.flatMap_def]
  rfl

theorem Holds.narrowest_iff (h : t.Holds widths) (ws : List Nat) :
    t.Narrowest ws ↔ ws = t.cellWidths :=
  forall₂_iff_eq_map h fun _ _ => Stage.Holds.narrowest_iff

theorem encodeIn_inj {ws ws' : List Nat} {r r' : List UInt8} (hw : t.Holds ws) (hw' : t.Holds ws')
    (h : t.encodeIn ws ++ r = t.encodeIn ws' ++ r') : ws = ws' ∧ r = r' := by
  simp only [encodeIn, List.append_assoc] at h
  obtain ⟨hws, hrest⟩ := flatten_zipWith_inj hw (fun _ _ _ _ _ => Wire.stageIn_inj) hw'
    (List.append_cancel_left h)
  exact ⟨hws, List.append_cancel_left hrest⟩

theorem Holds.length_encodeIn_le (h : t.Holds widths) :
    (t.encodeIn t.cellWidths).length ≤ (t.encodeIn widths).length := by
  have hstage : ∀ (s : Stage) (w : Nat), s.Holds w →
      (Wire.stageIn s s.cellBytes).length ≤ (Wire.stageIn s w).length := by
    intro s w hw
    rw [Wire.length_stageIn, Wire.length_stageIn]
    exact Nat.add_le_add_left (Nat.mul_le_mul_left _ hw.cellBytes_le) 5
  have hrow := length_flatten_zipWith_le h hstage
  simp only [encodeIn, List.length_append]
  exact Nat.add_le_add_right (Nat.add_le_add_left hrow _) _

end Table

namespace Property

variable {p : Property}

theorem encodeIn_inj {ws ws' : List Nat} {r r' : List UInt8} (hw : p.table.Holds ws)
    (hw' : p.table.Holds ws') (h : p.encodeIn ws ++ r = p.encodeIn ws' ++ r') :
    ws = ws' ∧ r = r' := by
  simp only [encodeIn, List.append_assoc, List.append_cancel_left_eq] at h
  obtain ⟨hws, hrest⟩ := Table.encodeIn_inj hw hw' h
  exact ⟨hws, List.append_cancel_left hrest⟩

theorem length_encodeIn_le {ws : List Nat} (h : p.table.Holds ws) :
    (p.encodeIn p.table.cellWidths).length ≤ (p.encodeIn ws).length := by
  simp only [encodeIn, List.length_append]
  exact Nat.add_le_add_right (Nat.add_le_add_left h.length_encodeIn_le _) _

theorem encode_eq_encodeIn (h : p.name.utf8ByteSize ≤ 65535) :
    p.encode = .ok (p.encodeIn p.table.cellWidths) := by
  rw [p.encode_eq_ok, encodeIn, p.table.encodeIn_cellWidths]
  exact ⟨h, rfl⟩

/-- The bytes are those of a property that passes the test. -/
def readsAs (bytes : List UInt8) (test : Property → Bool) : Bool :=
  (decode bytes).toOption.any fun read => read.2.isEmpty && test read.1

end Property

namespace Catalog

variable {c : Catalog} {widths : List (List Nat)}

/-- The widths that the writer takes. -/
def cellWidths (c : Catalog) : List (List Nat) :=
  c.properties.toList.map (·.table.cellWidths)

/-- The widths of all tables are the least that hold the page numbers. -/
def Narrowest (c : Catalog) (widths : List (List Nat)) : Prop :=
  List.Forall₂ (fun p ws => p.table.Narrowest ws) c.properties.toList widths

theorem Holds.narrowest_iff (h : c.Holds widths) (ws : List (List Nat)) :
    c.Narrowest ws ↔ ws = c.cellWidths :=
  forall₂_iff_eq_map h fun _ _ => Table.Holds.narrowest_iff

theorem Narrowest.holds (h : c.Narrowest widths) : c.Holds widths :=
  h.imp fun _ _ ht => ht.imp fun _ _ hs => hs.1

/-- **The bytes determine the widths.** -/
theorem encodeIn_inj {ws ws' : List (List Nat)} (hw : c.Holds ws) (hw' : c.Holds ws')
    (h : c.encodeIn ws = c.encodeIn ws') : ws = ws' := by
  have hrow := List.append_cancel_left h
  rw [← List.append_nil (List.flatten _), ← List.append_nil (List.flatten (List.zipWith _ _ ws'))]
    at hrow
  exact (flatten_zipWith_inj hw (fun _ _ _ _ _ => Property.encodeIn_inj) hw' hrow).1

theorem Holds.length_encodeIn_le (h : c.Holds widths) :
    (c.encodeIn c.cellWidths).length ≤ (c.encodeIn widths).length := by
  have hrow := length_flatten_zipWith_le h fun _ _ => Property.length_encodeIn_le
  simp only [encodeIn, List.length_append]
  exact Nat.add_le_add_left hrow _

theorem encodeAll_eq_encodeIn : ∀ {ps : List Property}, (∀ p ∈ ps, p.name.utf8ByteSize ≤ 65535) →
    encodeAll ps =
      .ok (List.zipWith Property.encodeIn ps (ps.map (·.table.cellWidths))).flatten
  | [], _ => rfl
  | p :: ps, h => by
    obtain ⟨hp, hps⟩ := List.forall_mem_cons.mp h
    rw [encodeAll, Property.encode_eq_encodeIn hp, encodeAll_eq_encodeIn hps]
    rfl

/-- **The writer takes the least widths.** -/
theorem encode_eq_encodeIn (h : ∀ p ∈ c.properties, p.name.utf8ByteSize ≤ 65535) :
    c.encode = .ok (c.encodeIn c.cellWidths) := by
  have hrow : encodeAll c.properties.toList = _ :=
    encodeAll_eq_encodeIn fun p hp => h p (Array.mem_toList_iff.mp hp)
  rw [c.encode_eq_ok]
  exact ⟨_, hrow, rfl⟩

theorem ofBytes_eq_ok {bytes : List UInt8} : ofBytes bytes = .ok c ↔ decode bytes = .ok (c, []) := by
  unfold ofBytes
  cases decode bytes with
  | error e => simp
  | ok read =>
    obtain ⟨c', rest⟩ := read
    cases rest <;> simp

theorem exists_ofBytes (hc : Consistent c) (hsize : c.size < 2 ^ 32)
    (hloaded : ∀ p ∈ c.properties, p.Loaded) {bytes : List UInt8} (h : c.encode = .ok bytes) :
    ∃ c', ofBytes bytes = .ok c' ∧ c'.properties = c.properties := by
  have hread := reads_decode hc hsize (fun p hp => (hloaded p hp).cells_le) h []
  have hsame : c.properties.toList.map Property.unreported = c.properties.toList := by
    refine (List.map_congr_left fun p hp => ?_).trans (List.map_id _)
    exact (hloaded p (Array.mem_toList_iff.mp hp)).unreported_eq
  rw [hsame, List.append_nil] at hread
  exact ⟨_, ofBytes_eq_ok.mpr hread, ofInserts_properties hc.nodup_names⟩

theorem ofBytes_single {bytes : List UInt8} {test : Property → Bool}
    (h : Property.readsAs bytes test = true) :
    ∃ c p, ofBytes (Wire.catalogMark ++ Wire.number 2 Wire.version ++ (Wire.number 4 1 ++ bytes)) =
      .ok c ∧ c.properties = #[p] ∧ test p = true := by
  unfold Property.readsAs at h
  cases hread : Property.decode bytes with
  | error e =>
    rw [hread] at h
    cases h
  | ok read =>
    obtain ⟨p, rest⟩ := read
    rw [hread] at h
    simp only [Except.toOption, Option.any_some, Bool.and_eq_true, List.isEmpty_iff] at h
    obtain ⟨rfl, htest⟩ := h
    have hnew : p.name ∉ empty.names := by simp [empty, names]
    obtain ⟨c, hinsert, hprops, -⟩ := insert_of_not_mem empty_consistent hnew
    have hrow : decodeAll 1 empty bytes = .ok (c, []) := by
      refine Decoder.bind_eq_ok.mpr ⟨p, [], hread, Decoder.bind_eq_ok.mpr ⟨c, [], ?_, rfl⟩⟩
      exact Decoder.loaded_eq_ok.mpr ⟨hinsert, rfl⟩
    refine ⟨c, p, ofBytes_eq_ok.mpr ?_, hprops, htest⟩
    refine Decoder.bind_eq_ok.mpr ⟨(), _, Decoder.reads_header rfl (by decide) _, ?_⟩
    exact Decoder.bind_eq_ok.mpr ⟨1, bytes, Decoder.reads_number 4 (by decide) bytes, hrow⟩

/-- **Writing out again what was read.**  Every catalog that was read has bytes; they are no longer than
the data, and give the same properties again.  The data are the bytes of the catalog with stage cells
of certain widths, and with no others; they stay the same exactly if each of these is the least of one,
two and four bytes that holds the page numbers. -/
theorem reencode_normal {bytes : List UInt8} {c : Catalog} (h : ofBytes bytes = .ok c) :
    ∃ again, c.encode = .ok again ∧ again.length ≤ bytes.length ∧
      (∃ c', ofBytes again = .ok c' ∧ c'.properties = c.properties) ∧
      ∃ widths, c.Holds widths ∧ bytes = c.encodeIn widths ∧
        (∀ ws, c.Holds ws → bytes = c.encodeIn ws → ws = widths) ∧
        (again = bytes ↔ c.Narrowest widths) := by
  obtain ⟨hc, hsize, hloaded, widths, hholds, hbytes⟩ := decode_eq_ok (ofBytes_eq_ok.mp h)
  rw [List.append_nil] at hbytes
  have hagain := encode_eq_encodeIn fun p hp => (hloaded p hp).name_le
  have hunique : ∀ ws, c.Holds ws → bytes = c.encodeIn ws → ws = widths :=
    fun ws hws hsame => encodeIn_inj hws hholds (hsame.symm.trans hbytes)
  refine ⟨_, hagain, ?_, exists_ofBytes hc hsize hloaded hagain, widths, hholds, hbytes, hunique, ?_⟩
  · rw [hbytes]
    exact hholds.length_encodeIn_le
  · constructor
    · intro hsame
      have hleast : c.Narrowest c.cellWidths := (hholds.narrowest_iff _).mpr rfl
      rwa [hunique _ hleast.holds hsame.symm] at hleast
    · intro hleast
      rw [hbytes, (hholds.narrowest_iff _).mp hleast]

/-- One property over two bits of key, whose page numbers take two bytes each where one is enough. -/
theorem reencode_normal_wide :
    ∃ c c' again widths,
      ofBytes [0x43, 0x50, 0x43, 0x54, 1, 0, 1, 0, 0, 0, 1, 0, 0x55, 0, 0x43, 0x50, 0x54, 0x52, 1, 0,
        2, 2, 1, 1, 8, 0, 0, 0, 0, 0, 2, 0, 0, 0, 2, 0, 0, 1, 0, 4, 0, 0, 0, 0, 1, 1, 0, 0] = .ok c ∧
      c.encode = .ok again ∧
      again = [0x43, 0x50, 0x43, 0x54, 1, 0, 1, 0, 0, 0, 1, 0, 0x55, 0, 0x43, 0x50, 0x54, 0x52, 1, 0,
        2, 2, 1, 1, 8, 0, 0, 0, 0, 0, 2, 0, 0, 0, 1, 0, 1, 4, 0, 0, 0, 0, 1, 1, 0, 0] ∧
      ofBytes again = .ok c' ∧ c'.properties = c.properties ∧ c.Holds widths ∧
      ¬ c.Narrowest widths := by
  have hcheck : Property.readsAs [1, 0, 0x55, 0, 0x43, 0x50, 0x54, 0x52, 1, 0, 2, 2, 1, 1, 8, 0, 0, 0,
      0, 0, 2, 0, 0, 0, 2, 0, 0, 1, 0, 4, 0, 0, 0, 0, 1, 1, 0, 0] (fun p =>
        p.encodeIn p.table.cellWidths == [1, 0, 0x55, 0, 0x43, 0x50, 0x54, 0x52, 1, 0, 2, 2, 1, 1, 8,
          0, 0, 0, 0, 0, 2, 0, 0, 0, 1, 0, 1, 4, 0, 0, 0, 0, 1, 1, 0, 0]) = true := by decide +kernel
  obtain ⟨c, p, hread, hprops, hbody⟩ := ofBytes_single hcheck
  obtain ⟨again, hagain, -, ⟨c', hread', hprops'⟩, widths, hholds, -, -, hsame⟩ :=
    reencode_normal hread
  have hname : ∀ q ∈ c.properties, q.name.utf8ByteSize ≤ 65535 :=
    fun q hq => ((decode_eq_ok (ofBytes_eq_ok.mp hread)).2.2.1 q hq).name_le
  have hagain' := encode_eq_encodeIn hname
  rw [hagain] at hagain'
  cases hagain'
  have hbytes : c.encodeIn c.cellWidths = Wire.catalogMark ++ Wire.number 2 Wire.version ++
      Wire.number 4 1 ++ p.encodeIn p.table.cellWidths := by
    simp [encodeIn, cellWidths, size, hprops]
  rw [eq_of_beq hbody] at hbytes
  refine ⟨c, c', _, widths, hread, hagain, hbytes, hread', hprops', hholds, ?_⟩
  rw [← hsame, hbytes]
  decide

end Catalog

end Multistage
