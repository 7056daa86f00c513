import Multistage.Proofs.SideTableForm
import Mathlib.Data.List.Forall2

/-!
# What data that are read look like

A reader that accepts data has found in front of them what the writer writes, but for one thing: the
cells of a stage may be wider than its page numbers need.  The form of everything else is forced.

* `Wire.stageIn`, `Table.encodeIn`, `Property.encodeIn`, `Catalog.encodeIn` — the bytes with cells of
  given widths, one for each stage.
* `Stage.Holds`, `Table.Holds`, `Catalog.Holds` — the widths are among those that are read, and hold
  every page number.
* `Decoder.bind_eq_ok` and its companions — what each reader has found if it accepts.
* `Property.Loaded` — what holds of a property that was read.
* `Catalog.decode_eq_ok` — data that are read as a catalog.
-/

namespace Multistage

/-! ## Cells of given widths -/

/-- The bytes of a stage with cells of the given width. -/
def Wire.stageIn (s : Stage) (width : Nat) : List UInt8 :=
  number 4 s.pages.size ++ number 1 width ++ s.pages.toList.flatMap (number width)

/-- The bytes of a table with stage cells of the given widths. -/
def Table.encodeIn (t : Table) (widths : List Nat) : List UInt8 :=
  Wire.layout t.layout t.default ++ (List.zipWith Wire.stageIn t.stages widths).flatten ++
    Wire.leaf t.leaf

/-- The bytes of a property with stage cells of the given widths. -/
def Property.encodeIn (p : Property) (widths : List Nat) : List UInt8 :=
  Wire.number 2 p.nameBytes.length ++ p.nameBytes ++ Wire.number 1 p.kind.tag ++
    p.table.encodeIn widths ++ SideTable.encode p.sideTable

/-- The bytes of a catalog with stage cells of the given widths, a row of them for each property. -/
def Catalog.encodeIn (c : Catalog) (widths : List (List Nat)) : List UInt8 :=
  Wire.catalogMark ++ Wire.number 2 Wire.version ++ Wire.number 4 c.size ++
    (List.zipWith Property.encodeIn c.properties.toList widths).flatten

/-- The width is one of those that are read, and holds every page number of the stage. -/
def Stage.Holds (s : Stage) (width : Nat) : Prop :=
  (width = 1 ∨ width = 2 ∨ width = 4) ∧ ∀ page ∈ s.pages, page < 256 ^ width

/-- There is a width for each stage, which holds its page numbers. -/
def Table.Holds (t : Table) (widths : List Nat) : Prop :=
  List.Forall₂ Stage.Holds t.stages widths

/-- There are widths for each property, which hold the page numbers of its table. -/
def Catalog.Holds (c : Catalog) (widths : List (List Nat)) : Prop :=
  List.Forall₂ (fun p ws => p.table.Holds ws) c.properties.toList widths

namespace Decoder

/-! ## The readers that all formats share -/

variable {α β : Type} {bytes rest : List UInt8}

theorem bind_eq_ok {d : Decoder α} {f : α → Decoder β} {b : β} :
    (d >>= f) bytes = .ok (b, rest) ↔
      ∃ a mid, d bytes = .ok (a, mid) ∧ f a mid = .ok (b, rest) := by
  rw [bind_apply]
  cases d bytes with
  | error e => simp
  | ok p =>
    obtain ⟨a, mid⟩ := p
    simp

theorem pure_eq_ok {a b : α} : (pure a : Decoder α) bytes = .ok (b, rest) ↔ b = a ∧ rest = bytes := by
  show (Except.ok (a, bytes) : Except Error (α × List UInt8)) = .ok (b, rest) ↔ _
  simp [eq_comm]

theorem loaded_eq_ok {result : Except Error α} {a : α} :
    loaded result bytes = .ok (a, rest) ↔ result = .ok a ∧ rest = bytes := by
  cases result <;> simp [loaded, eq_comm]

theorem checked_eq_ok {result : Except Error α} {a : α} :
    checked result bytes = .ok (a, rest) ↔ result = .ok a ∧ rest = bytes := by
  cases result <;> simp [checked, eq_comm]

theorem byte_eq_ok {b : UInt8} (h : byte bytes = .ok (b, rest)) : bytes = b :: rest := by
  cases bytes with
  | nil => cases h
  | cons _ _ =>
    cases h
    rfl

/-- **A number that is read** stands in its own bytes. -/
theorem number_eq_ok : ∀ {size n : Nat} {bytes : List UInt8}, number size bytes = .ok (n, rest) →
    n < 256 ^ size ∧ bytes = Wire.number size n ++ rest
  | 0, n, bytes, h => by
    obtain ⟨rfl, rfl⟩ := pure_eq_ok.mp h
    exact ⟨Nat.one_pos, rfl⟩
  | size + 1, n, bytes, h => by
    obtain ⟨low, mid, hlow, h⟩ := bind_eq_ok.mp h
    obtain ⟨high, last, hhigh, h⟩ := bind_eq_ok.mp h
    obtain ⟨rfl, rfl⟩ := pure_eq_ok.mp h
    obtain ⟨hlt, rfl⟩ := number_eq_ok hhigh
    have hbyte := low.toNat_lt
    have hmod : (low.toNat + 256 * high) % 256 = low.toNat := by omega
    have hdiv : (low.toNat + 256 * high) / 256 = high := by omega
    refine ⟨by rw [Nat.pow_succ]; omega, ?_⟩
    rw [byte_eq_ok hlow, Wire.number, hmod, hdiv, UInt8.ofNat_toNat, List.cons_append]

theorem word_eq_ok {size : Nat} (hsize : size ≤ 4) {v : UInt32}
    (h : word size bytes = .ok (v, rest)) : bytes = Wire.number size v.toNat ++ rest := by
  obtain ⟨n, mid, hn, h⟩ := bind_eq_ok.mp h
  obtain ⟨rfl, rfl⟩ := pure_eq_ok.mp h
  obtain ⟨hlt, rfl⟩ := number_eq_ok hn
  have hle : 256 ^ size ≤ 256 ^ 4 := Nat.pow_le_pow_right (by decide) hsize
  rw [UInt32.toNat_ofNat_of_lt' (Nat.lt_of_lt_of_le hlt hle)]

/-- The induction is on the number of things still to come; those read so far are general. -/
theorem manyFrom_eq_ok {item : Decoder α} {write : α → List UInt8} {P : α → Prop}
    (hitem : ∀ {bytes a rest}, item bytes = .ok (a, rest) → P a ∧ bytes = write a ++ rest) :
    ∀ {count : Nat} {acc xs : Array α} {bytes : List UInt8},
      manyFrom item count acc bytes = .ok (xs, rest) →
      ∃ ys : List α, xs = acc ++ ys.toArray ∧ ys.length = count ∧ (∀ y ∈ ys, P y) ∧
        bytes = ys.flatMap write ++ rest
  | 0, acc, xs, bytes, h => by
    cases h
    exact ⟨[], by simp⟩
  | count + 1, acc, xs, bytes, h => by
    rw [manyFrom] at h
    split at h
    · cases h
    rename_i a mid ha
    obtain ⟨hP, rfl⟩ := hitem ha
    obtain ⟨ys, rfl, hlength, hall, rfl⟩ := manyFrom_eq_ok hitem h
    refine ⟨a :: ys, by simp, by rw [List.length_cons, hlength], ?_, by simp⟩
    exact List.forall_mem_cons.mpr ⟨hP, hall⟩

/-- **A row of things that is read**, each of which stands in its own bytes. -/
theorem many_eq_ok {item : Decoder α} {write : α → List UInt8} {P : α → Prop}
    (hitem : ∀ {bytes a rest}, item bytes = .ok (a, rest) → P a ∧ bytes = write a ++ rest)
    {count : Nat} {xs : Array α} (h : many count item bytes = .ok (xs, rest)) :
    xs.size = count ∧ (∀ x ∈ xs, P x) ∧ bytes = xs.toList.flatMap write ++ rest := by
  obtain ⟨ys, rfl, hlength, hall, rfl⟩ := manyFrom_eq_ok hitem h
  rw [Array.empty_append]
  exact ⟨hlength, by simpa using hall, rfl⟩

theorem many_byte_eq_ok {count : Nat} {xs : Array UInt8}
    (h : many count byte bytes = .ok (xs, rest)) : xs.size = count ∧ bytes = xs.toList ++ rest := by
  have hitem : ∀ {bytes b rest}, byte bytes = .ok (b, rest) → True ∧ bytes = [b] ++ rest :=
    fun h => ⟨trivial, byte_eq_ok h⟩
  obtain ⟨hsize, -, hbytes⟩ := many_eq_ok hitem h
  rw [List.flatMap_singleton'] at hbytes
  exact ⟨hsize, hbytes⟩

theorem header_eq_ok {magic : List UInt8} {version : Nat} {u : Unit}
    (h : header magic version bytes = .ok (u, rest)) :
    bytes = magic ++ Wire.number 2 version ++ rest := by
  obtain ⟨found, mid, hfound, h⟩ := bind_eq_ok.mp h
  split at h
  · cases h
  rename_i hmagic
  obtain ⟨v, last, hv, h⟩ := bind_eq_ok.mp h
  split at h
  · cases h
  rename_i hversion
  obtain ⟨-, rfl⟩ := pure_eq_ok.mp h
  rw [(many_byte_eq_ok hfound).2, (number_eq_ok hv).2, not_not.mp hmagic, not_not.mp hversion,
    List.append_assoc]

theorem flag_eq_ok {cause : Nat → FormatCause} {b : Bool} (h : flag cause bytes = .ok (b, rest)) :
    bytes = Wire.number 1 b.toNat ++ rest := by
  obtain ⟨n, mid, hn, h⟩ := bind_eq_ok.mp h
  split at h
  · obtain ⟨rfl, rfl⟩ := pure_eq_ok.mp h
    exact (number_eq_ok hn).2
  · obtain ⟨rfl, rfl⟩ := pure_eq_ok.mp h
    exact (number_eq_ok hn).2
  · cases h

theorem cellCount_eq_ok {count : Nat} (h : cellCount bytes = .ok (count, rest)) :
    count ≤ Wire.maxCells ∧ bytes = Wire.number 4 count ++ rest := by
  obtain ⟨n, mid, hn, h⟩ := bind_eq_ok.mp h
  split at h
  · cases h
  rename_i hle
  obtain ⟨rfl, rfl⟩ := pure_eq_ok.mp h
  exact ⟨Nat.not_lt.mp hle, (number_eq_ok hn).2⟩

theorem cell_eq_ok {width n : Nat} (h : cell width bytes = .ok (n, rest)) :
    ((width = 1 ∨ width = 2 ∨ width = 4) ∧ n < 256 ^ width) ∧
      bytes = Wire.number width n ++ rest := by
  unfold cell at h
  split at h
  · rename_i hwidth
    obtain ⟨hlt, hbytes⟩ := number_eq_ok h
    exact ⟨⟨hwidth, hlt⟩, hbytes⟩
  · cases h

/-! ## Parts of a table -/

/-- A stage.  The width of its cells is looked at only if there are cells. -/
theorem stage_eq_ok {bits : Nat} {s : Stage} (h : stage bits bytes = .ok (s, rest)) :
    ∃ width, (s.pages ≠ #[] → s.Holds width) ∧ bytes = Wire.stageIn s width ++ rest := by
  obtain ⟨count, afterCount, hcount, h⟩ := bind_eq_ok.mp h
  obtain ⟨width, afterWidth, hwidth, h⟩ := bind_eq_ok.mp h
  obtain ⟨pages, afterPages, hpages, h⟩ := bind_eq_ok.mp h
  obtain ⟨rfl, rfl⟩ := pure_eq_ok.mp h
  obtain ⟨-, rfl⟩ := cellCount_eq_ok hcount
  obtain ⟨-, rfl⟩ := number_eq_ok hwidth
  obtain ⟨rfl, hroom, rfl⟩ := many_eq_ok cell_eq_ok hpages
  refine ⟨width, fun hne => ?_, by simp [Wire.stageIn]⟩
  obtain ⟨page, hpage⟩ := Array.exists_mem_of_ne_empty pages hne
  exact ⟨(hroom page hpage).1, fun page hpage => (hroom page hpage).2⟩

theorem stages_eq_ok : ∀ {levels : List Nat} {ss : List Stage} {bytes : List UInt8},
    stages levels bytes = .ok (ss, rest) →
      ∃ widths, List.Forall₂ (fun s width => s.pages ≠ #[] → Stage.Holds s width) ss widths ∧
        bytes = (List.zipWith Wire.stageIn ss widths).flatten ++ rest
  | [], ss, bytes, h => by
    obtain ⟨rfl, rfl⟩ := pure_eq_ok.mp h
    exact ⟨[], .nil, rfl⟩
  | bits :: levels, ss, bytes, h => by
    obtain ⟨s, mid, hs, h⟩ := bind_eq_ok.mp h
    obtain ⟨others, last, hothers, h⟩ := bind_eq_ok.mp h
    obtain ⟨rfl, rfl⟩ := pure_eq_ok.mp h
    obtain ⟨width, hholds, rfl⟩ := stage_eq_ok hs
    obtain ⟨widths, hall, rfl⟩ := stages_eq_ok hothers
    exact ⟨width :: widths, .cons hholds hall, by simp⟩

theorem leafCells_eq_ok {l : Layout} {cells : Cells} (h : leafCells l bytes = .ok (cells, rest)) :
    bytes = Wire.leaf ⟨l.leafBits, l.width, cells⟩ ++ rest := by
  obtain ⟨count, mid, hcount, h⟩ := bind_eq_ok.mp h
  have hbytes := (cellCount_eq_ok hcount).2
  split at h
  · obtain ⟨xs, last, hxs, h⟩ := bind_eq_ok.mp h
    obtain ⟨rfl, rfl⟩ := pure_eq_ok.mp h
    obtain ⟨rfl, rfl⟩ := many_byte_eq_ok hxs
    rw [hbytes, ← List.append_assoc]
    rfl
  · obtain ⟨values, last, hvalues, h⟩ := bind_eq_ok.mp h
    obtain ⟨rfl, rfl⟩ := pure_eq_ok.mp h
    have hle : l.width.bytes ≤ 4 := by cases l.width <;> decide
    have hitem : ∀ {bytes v rest}, word l.width.bytes bytes = .ok (v, rest) →
        True ∧ bytes = Wire.number l.width.bytes v.toNat ++ rest :=
      fun h => ⟨trivial, word_eq_ok hle h⟩
    obtain ⟨rfl, -, rfl⟩ := many_eq_ok hitem hvalues
    rw [hbytes, ← List.append_assoc]
    rfl

end Decoder

theorem Width.bits_of_ofBits {bits : Nat} {w : Width} (h : ofBits bits = .ok w) : w.bits = bits := by
  unfold ofBits at h
  split at h <;> cases h <;> rfl

theorem Decoder.layout_eq_ok {bytes rest : List UInt8} {l : Layout} {default : UInt32}
    (h : Decoder.layout bytes = .ok ((l, default), rest)) :
    bytes = Wire.layout l default ++ rest := by
  obtain ⟨_, _, hheader, h⟩ := bind_eq_ok.mp h
  obtain ⟨domainBits, _, hdomain, h⟩ := bind_eq_ok.mp h
  obtain ⟨count, _, hcount, h⟩ := bind_eq_ok.mp h
  obtain ⟨levels, _, hlevels, h⟩ := bind_eq_ok.mp h
  obtain ⟨bits, _, hbits, h⟩ := bind_eq_ok.mp h
  obtain ⟨width, _, hwidth, h⟩ := bind_eq_ok.mp h
  obtain ⟨packed, _, hpacked, h⟩ := bind_eq_ok.mp h
  obtain ⟨default, _, hdefault, h⟩ := bind_eq_ok.mp h
  obtain ⟨l, _, hl, h⟩ := bind_eq_ok.mp h
  obtain ⟨hpair, rfl⟩ := pure_eq_ok.mp h
  obtain ⟨rfl, rfl⟩ := Prod.mk.inj hpair
  obtain ⟨hparts, rfl⟩ := loaded_eq_ok.mp hl
  obtain ⟨hofBits, rfl⟩ := loaded_eq_ok.mp hwidth
  obtain ⟨rfl, hsame, rfl, rfl⟩ := Layout.ofLevels_eq_ok hparts
  obtain ⟨hsize, -, hrow⟩ := many_eq_ok number_eq_ok hlevels
  have hdepth : l.depth = count := by
    rw [Layout.depth, hsame, Array.length_toList, hsize]
  rw [header_eq_ok hheader, (number_eq_ok hdomain).2, (number_eq_ok hcount).2, hrow,
    (number_eq_ok hbits).2, flag_eq_ok hpacked, word_eq_ok (Nat.le_refl 4) hdefault,
    ← Width.bits_of_ofBits hofBits, ← hdepth, ← hsame]
  simp only [Wire.layout, List.append_assoc]

namespace Table

theorem ofParts_eq_ok {l : Layout} {stages : List Stage} {leaf : Leaf} {default : UInt32} {t : Table}
    (h : ofParts l stages leaf default = .ok t) :
    t.layout = l ∧ t.stages = stages ∧ t.leaf = leaf ∧ t.default = default := by
  unfold ofParts at h
  split at h
  · cases h
  · cases h
    exact ⟨rfl, rfl, rfl, rfl⟩

theorem Linked.pages_ne_empty {leaf : Leaf} {stages : List Stage} (h : Linked leaf stages) :
    ∀ s ∈ stages, s.pages ≠ #[] := by
  induction h with
  | leaf _ =>
    intro s hs
    cases hs
  | stage hw _ _ ih =>
    refine List.forall_mem_cons.mpr ⟨fun hempty => hw.2 ?_, ih⟩
    rw [hempty]
    rfl

/-- **Data that are read as a table.** -/
theorem decode_eq_ok {bytes rest : List UInt8} {t : Table} (h : decode bytes = .ok (t, rest)) :
    ∃ widths, t.Holds widths ∧ bytes = t.encodeIn widths ++ rest := by
  obtain ⟨⟨l, default⟩, afterLayout, hlayout, h⟩ := Decoder.bind_eq_ok.mp h
  obtain ⟨stages, afterStages, hstages, h⟩ := Decoder.bind_eq_ok.mp h
  obtain ⟨cells, afterCells, hcells, h⟩ := Decoder.bind_eq_ok.mp h
  obtain ⟨hparts, rfl⟩ := Decoder.checked_eq_ok.mp h
  obtain ⟨rfl, rfl, hleaf, rfl⟩ := ofParts_eq_ok hparts
  obtain ⟨widths, hholds, hstages⟩ := Decoder.stages_eq_ok hstages
  refine ⟨widths, ?_, ?_⟩
  · -- a stage of a table has cells, so that their width was looked at
    have hcells := t.wellFormed.linked.pages_ne_empty
    refine List.Forall₂.imp ?_ ((List.forall₂_and_left _ _).mpr ⟨hcells, hholds⟩)
    rintro s width ⟨hne, hroom⟩
    exact hroom hne
  · rw [Decoder.layout_eq_ok hlayout, hstages, Decoder.leafCells_eq_ok hcells, ← hleaf]
    simp only [encodeIn, List.append_assoc]

end Table

/-! ## Side tables, properties and catalogs -/

/-- **Data that are read as a side table**, or as its absence. -/
theorem SideTable.decode_eq_ok {bytes rest : List UInt8} {side : Option SideTable}
    (h : decode bytes = .ok (side, rest)) :
    (∀ t ∈ side, t.cells.length ≤ Wire.maxCells) ∧ bytes = encode side ++ rest := by
  obtain ⟨present, afterFlag, hflag, h⟩ := Decoder.bind_eq_ok.mp h
  have hbytes := Decoder.flag_eq_ok hflag
  split at h
  · rename_i hpresent
    obtain ⟨capacity, _, hcapacity, h⟩ := Decoder.bind_eq_ok.mp h
    obtain ⟨count, _, hcount, h⟩ := Decoder.bind_eq_ok.mp h
    obtain ⟨cells, _, hcells, h⟩ := Decoder.bind_eq_ok.mp h
    obtain ⟨t, _, ht, h⟩ := Decoder.bind_eq_ok.mp h
    obtain ⟨rfl, rfl⟩ := Decoder.pure_eq_ok.mp h
    obtain ⟨hparts, rfl⟩ := Decoder.loaded_eq_ok.mp ht
    obtain ⟨rfl, hsame⟩ := ofCells_eq_ok.mp hparts
    have hitem : ∀ {bytes v rest}, Decoder.word 4 bytes = .ok (v, rest) →
        True ∧ bytes = Wire.number 4 v.toNat ++ rest :=
      fun h => ⟨trivial, Decoder.word_eq_ok (Nat.le_refl 4) h⟩
    obtain ⟨hsize, -, hrow⟩ := Decoder.many_eq_ok hitem hcells
    obtain ⟨hle, hnumber⟩ := Decoder.cellCount_eq_ok hcount
    have hlength : t.cells.length = count := by
      rw [hsame, Array.length_toList, hsize]
    refine ⟨fun t' ht' => ?_, ?_⟩
    · cases ht'
      rwa [hlength]
    · rw [hbytes, hpresent, (Decoder.number_eq_ok hcapacity).2, hnumber, hrow, ← hlength, ← hsame]
      simp only [encode, ← t.length_cells, Bool.toNat_true, List.append_assoc]
  · rename_i habsent
    obtain ⟨rfl, rfl⟩ := Decoder.pure_eq_ok.mp h
    rw [Bool.not_eq_true] at habsent
    refine ⟨fun t ht => ?_, ?_⟩
    · cases ht
    · rw [hbytes, habsent]
      rfl

namespace Property

theorem ofParts_eq_ok {name : String} {kind : Kind} {table : Table} {side : Option SideTable}
    {report : Report} {p : Property} (h : ofParts name kind table side report = .ok p) :
    p.name = name ∧ p.kind = kind ∧ p.table = table ∧ p.sideTable = side ∧ p.report = report := by
  unfold ofParts at h
  split at h
  · cases h
  split at h
  · split at h <;> cases h
    exact ⟨rfl, rfl, rfl, rfl, rfl⟩
  split at h
  · split at h <;> cases h
    exact ⟨rfl, rfl, rfl, rfl, rfl⟩
  · cases h

theorem decodeName_eq_ok {bytes rest : List UInt8} {name : String}
    (h : decodeName bytes = .ok (name, rest)) :
    name.utf8ByteSize ≤ 65535 ∧
      bytes = Wire.number 2 name.toUTF8.data.toList.length ++ name.toUTF8.data.toList ++ rest := by
  obtain ⟨length, _, hlength, h⟩ := Decoder.bind_eq_ok.mp h
  obtain ⟨letters, _, hletters, h⟩ := Decoder.bind_eq_ok.mp h
  cases hname : String.fromUTF8? ⟨letters⟩ with
  | none =>
    rw [hname] at h
    cases h
  | some found =>
    rw [hname] at h
    obtain ⟨rfl, rfl⟩ := Decoder.pure_eq_ok.mp h
    have hsame : name.toUTF8.data = letters := by
      unfold String.fromUTF8? at hname
      split at hname <;> cases hname
      rfl
    obtain ⟨hlt, hnumber⟩ := Decoder.number_eq_ok hlength
    obtain ⟨hsize, hrow⟩ := Decoder.many_byte_eq_ok hletters
    have hcount : name.toUTF8.data.toList.length = length := by
      rw [Array.length_toList, hsame, hsize]
    have hbytes : name.utf8ByteSize = length := by
      rw [← hcount, Array.length_toList]
      rfl
    refine ⟨by omega, ?_⟩
    rw [hnumber, hrow, hcount, hsame, List.append_assoc]

theorem decodeKind_eq_ok {bytes rest : List UInt8} {kind : Kind}
    (h : decodeKind bytes = .ok (kind, rest)) : bytes = Wire.number 1 kind.tag ++ rest := by
  obtain ⟨tag, _, htag, h⟩ := Decoder.bind_eq_ok.mp h
  obtain ⟨hkind, rfl⟩ := Decoder.checked_eq_ok.mp h
  unfold Kind.ofTag at hkind
  split at hkind <;> cases hkind
  rename_i hkind
  rw [Kind.tag_of_ofTag? hkind]
  exact (Decoder.number_eq_ok htag).2

/-- A property that has no statistics, and a name and a side table that can be stored. -/
structure Loaded (p : Property) : Prop where
  report_eq : p.report = {}
  name_le : p.name.utf8ByteSize ≤ 65535
  cells_le : ∀ t ∈ p.sideTable, t.cells.length ≤ Wire.maxCells

theorem Loaded.unreported_eq {p : Property} (h : p.Loaded) : p.unreported = p := by
  unfold unreported
  rw [← h.report_eq]

/-- **Data that are read as a property.** -/
theorem decode_eq_ok {bytes rest : List UInt8} {p : Property} (h : decode bytes = .ok (p, rest)) :
    p.Loaded ∧ ∃ widths, p.table.Holds widths ∧ bytes = p.encodeIn widths ++ rest := by
  obtain ⟨name, _, hname, h⟩ := Decoder.bind_eq_ok.mp h
  obtain ⟨kind, _, hkind, h⟩ := Decoder.bind_eq_ok.mp h
  obtain ⟨table, _, htable, h⟩ := Decoder.bind_eq_ok.mp h
  obtain ⟨side, _, hside, h⟩ := Decoder.bind_eq_ok.mp h
  obtain ⟨hparts, rfl⟩ := Decoder.loaded_eq_ok.mp h
  obtain ⟨rfl, rfl, rfl, rfl, hreport⟩ := ofParts_eq_ok hparts
  obtain ⟨hle, hletters⟩ := decodeName_eq_ok hname
  obtain ⟨hcells, hbytes⟩ := SideTable.decode_eq_ok hside
  obtain ⟨widths, hholds, hlevels⟩ := Table.decode_eq_ok htable
  refine ⟨⟨hreport, hle, hcells⟩, widths, hholds, ?_⟩
  rw [hletters, decodeKind_eq_ok hkind, hlevels, hbytes]
  simp only [encodeIn, nameBytes, List.append_assoc]

end Property

namespace Catalog

theorem insert_eq_ok {c c' : Catalog} (hc : Consistent c) {p : Property} (h : c.insert p = .ok c') :
    c'.properties = c.properties.push p ∧ Consistent c' := by
  by_cases hp : p.name ∈ c.names
  · rw [insert_of_mem hc hp] at h
    cases h
  · obtain ⟨c'', hinsert, hprops, hc''⟩ := insert_of_not_mem hc hp
    rw [hinsert] at h
    cases h
    exact ⟨hprops, hc''⟩

/-- Properties that are read into a catalog.  The induction is on their number; the catalog they go
into is general. -/
theorem decodeAll_eq_ok {c' : Catalog} {rest : List UInt8} :
    ∀ {count : Nat} {c : Catalog} {bytes : List UInt8}, Consistent c →
      decodeAll count c bytes = .ok (c', rest) →
      Consistent c' ∧ ∃ (ps : List Property) (widths : List (List Nat)), ps.length = count ∧
        c'.properties = c.properties ++ ps.toArray ∧ (∀ p ∈ ps, p.Loaded) ∧
        List.Forall₂ (fun p ws => p.table.Holds ws) ps widths ∧
        bytes = (List.zipWith Property.encodeIn ps widths).flatten ++ rest
  | 0, c, bytes, hc, h => by
    obtain ⟨rfl, rfl⟩ := Decoder.pure_eq_ok.mp h
    exact ⟨hc, [], [], rfl, by simp, by simp, .nil, rfl⟩
  | count + 1, c, bytes, hc, h => by
    obtain ⟨p, _, hp, h⟩ := Decoder.bind_eq_ok.mp h
    obtain ⟨next, _, hnext, hothers⟩ := Decoder.bind_eq_ok.mp h
    obtain ⟨hinsert, rfl⟩ := Decoder.loaded_eq_ok.mp hnext
    obtain ⟨hprops, hcnext⟩ := insert_eq_ok hc hinsert
    obtain ⟨hc', ps, widths, rfl, hrest, hall, hwidths, hrow⟩ := decodeAll_eq_ok hcnext hothers
    obtain ⟨hloaded, ws, hholds, rfl⟩ := Property.decode_eq_ok hp
    refine ⟨hc', p :: ps, ws :: widths, rfl, ?_, ?_, .cons hholds hwidths, by simp [hrow]⟩
    · rw [hrest, hprops]
      simp
    · exact List.forall_mem_cons.mpr ⟨hloaded, hall⟩

/-- **Data that are read as a catalog.** -/
theorem decode_eq_ok {bytes rest : List UInt8} {c : Catalog} (h : decode bytes = .ok (c, rest)) :
    Consistent c ∧ c.size < 2 ^ 32 ∧ (∀ p ∈ c.properties, p.Loaded) ∧
      ∃ widths, c.Holds widths ∧ bytes = c.encodeIn widths ++ rest := by
  obtain ⟨_, _, hheader, h⟩ := Decoder.bind_eq_ok.mp h
  obtain ⟨count, _, hcount, h⟩ := Decoder.bind_eq_ok.mp h
  obtain ⟨hc, ps, widths, rfl, hprops, hall, hwidths, hrow⟩ := decodeAll_eq_ok empty_consistent h
  obtain ⟨hlt, hnumber⟩ := Decoder.number_eq_ok hcount
  rw [empty, Array.empty_append] at hprops
  have hlist : c.properties.toList = ps := by rw [hprops]
  have hsize : c.size = ps.length := by
    rw [size, ← Array.length_toList, hlist]
  refine ⟨hc, by rw [hsize]; exact hlt, by rw [hprops]; simpa using hall, widths, ?_, ?_⟩
  · unfold Holds
    rwa [hlist]
  · rw [Decoder.header_eq_ok hheader, hnumber, hrow]
    simp only [encodeIn, hlist, hsize, List.append_assoc]

end Catalog

end Multistage
