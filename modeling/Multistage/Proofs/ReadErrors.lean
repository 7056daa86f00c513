import Multistage.Proofs.Validity
import Multistage.Wire.Catalog
import Mathlib.Tactic.Common

/-!
# How reading fails

Data that cannot be read are malformed, with one exception: a table whose stored default or whose
plain values have no room in the stored width is refused with the value and the width, and so is what
contains such a table.

* `Decoder.FormOnly` — a reader fails for the form of the data only; `Decoder.Refuses` — it fails on
  these data for another reason.
* `Decoder.Assembled` — the reader is put together from that of one byte.
* `refuses_bind`, `refuses_bind_left` — which of two readers in a row refuses.
* `Table.Overflow`, `Property.Overflow`, `Catalog.Overflow` — data with a value that has no room, said
  through the parts that are read before it is noticed.
* `read_failure` — how each reader fails, on all data.
-/

namespace Multistage

/-- The error says that data do not have the expected form. -/
def Error.Malformed (e : Error) : Prop :=
  ∃ cause, e = .format cause

theorem Error.malformed_format (cause : FormatCause) : (Error.format cause).Malformed :=
  ⟨cause, rfl⟩

theorem Error.not_malformed_overflow (value : UInt32) (bits : Nat) :
    ¬ (Error.valueOverflow value bits).Malformed := by
  rintro ⟨_, h⟩
  cases h

namespace Decoder

variable {α β : Type}

/-- If the reader fails, then for the form of the data. -/
def FormOnly (d : Decoder α) : Prop :=
  ∀ bytes e, d bytes = .error e → e.Malformed

/-- On these data the reader fails for another reason than their form. -/
def Refuses (d : Decoder α) (bytes : List UInt8) (e : Error) : Prop :=
  d bytes = .error e ∧ ¬ e.Malformed

theorem FormOnly.not_refuses {d : Decoder α} (h : FormOnly d) {bytes : List UInt8} {e : Error} :
    ¬ Refuses d bytes e :=
  fun hr => hr.2 (h bytes e hr.1)

theorem bind_apply (d : Decoder α) (f : α → Decoder β) (bytes : List UInt8) :
    (d >>= f) bytes =
      match d bytes with
      | .error e => .error e
      | .ok (a, rest) => f a rest := by
  show (d bytes >>= fun p => f p.1 p.2) = _
  cases d bytes <;> rfl

theorem bind_eq_error {d : Decoder α} {f : α → Decoder β} {bytes : List UInt8} {e : Error} :
    (d >>= f) bytes = .error e ↔
      d bytes = .error e ∨ ∃ a rest, d bytes = .ok (a, rest) ∧ f a rest = .error e := by
  rw [bind_apply]
  cases d bytes with
  | error e' => simp
  | ok p =>
    obtain ⟨a, rest⟩ := p
    simp

/-- **One reader after another.** -/
theorem FormOnly.bind {d : Decoder α} {f : α → Decoder β} (h : FormOnly d)
    (h' : ∀ a, FormOnly (f a)) : FormOnly (d >>= f) := by
  intro bytes e hread
  rcases bind_eq_error.mp hread with hd | ⟨a, rest, -, hf⟩
  · exact h bytes e hd
  · exact h' a rest e hf

/-- **A reader that fails for the form only leaves the refusal to the next.** -/
theorem refuses_bind {d : Decoder α} {f : α → Decoder β} (h : FormOnly d) {bytes : List UInt8}
    {e : Error} :
    Refuses (d >>= f) bytes e ↔ ∃ a rest, d bytes = .ok (a, rest) ∧ Refuses (f a) rest e := by
  unfold Refuses
  rw [bind_eq_error]
  constructor
  · rintro ⟨hd | ⟨a, rest, hd, hf⟩, hform⟩
    · exact absurd (h bytes e hd) hform
    · exact ⟨a, rest, hd, hf, hform⟩
  · rintro ⟨a, rest, hd, hf, hform⟩
    exact ⟨.inr ⟨a, rest, hd, hf⟩, hform⟩

/-- **If what follows fails for the form only, then a refusal is one of the first reader.** -/
theorem refuses_bind_left {d : Decoder α} {f : α → Decoder β} (h : ∀ a, FormOnly (f a))
    {bytes : List UInt8} {e : Error} : Refuses (d >>= f) bytes e ↔ Refuses d bytes e := by
  unfold Refuses
  rw [bind_eq_error]
  constructor
  · rintro ⟨hd | ⟨a, rest, -, hf⟩, hform⟩
    · exact ⟨hd, hform⟩
    · exact absurd (h a rest e hf) hform
  · rintro ⟨hd, hform⟩
    exact ⟨.inl hd, hform⟩

theorem checked_eq_error {result : Except Error α} {bytes : List UInt8} {e : Error} :
    checked result bytes = .error e ↔ result = .error e := by
  cases result <;> simp [checked]

/-! ## Readers put together from the reader of one byte -/

/-- The reader is put together from that of one byte, and fails of itself for the form of the data
only. -/
inductive Assembled : {α : Type} → Decoder α → Prop
  | pure {α : Type} (a : α) : Assembled (pure a : Decoder α)
  | byte : Assembled byte
  | fail {α : Type} {e : Error} (h : e.Malformed) : Assembled (fun _ => .error e : Decoder α)
  | bind {α β : Type} {d : Decoder α} {f : α → Decoder β} (h : Assembled d)
      (h' : ∀ a, Assembled (f a)) : Assembled (d >>= f)

theorem Assembled.formOnly {d : Decoder α} (h : Assembled d) : FormOnly d := by
  induction h with
  | pure a =>
    intro bytes e h
    cases h
  | byte =>
    intro bytes e h
    cases bytes with
    | nil =>
      cases h
      exact Error.malformed_format _
    | cons _ _ => cases h
  | fail hform =>
    intro bytes e h
    cases h
    exact hform
  | bind _ _ ih ih' => exact ih.bind ih'

theorem assembled_malformed (cause : FormatCause) : Assembled (malformed cause : Decoder α) :=
  .fail (Error.malformed_format cause)

theorem assembled_loaded {result : Except Error α}
    (h : ∀ e, result = .error e → e.whenLoading.Malformed) : Assembled (loaded result) := by
  cases result with
  | error e => exact .fail (h e rfl)
  | ok a => exact .pure a

theorem assembled_checked {result : Except Error α} (h : ∀ e, result = .error e → e.Malformed) :
    Assembled (checked result) := by
  cases result with
  | error e => exact .fail (h e rfl)
  | ok a => exact .pure a

/-! ## The readers that all formats share -/

theorem assembled_number : ∀ size : Nat, Assembled (number size)
  | 0 => .pure 0
  | size + 1 => Assembled.byte.bind fun _ => (assembled_number size).bind fun _ => .pure _

theorem assembled_word (size : Nat) : Assembled (word size) :=
  (assembled_number size).bind fun _ => .pure _

theorem manyFrom_succ (item : Decoder α) (count : Nat) (acc : Array α) :
    manyFrom item (count + 1) acc = item >>= fun a => manyFrom item count (acc.push a) := by
  funext bytes
  rw [bind_apply]
  rfl

/-- The induction is on the number of things still to come. -/
theorem assembled_manyFrom {item : Decoder α} (h : Assembled item) :
    ∀ (count : Nat) (acc : Array α), Assembled (manyFrom item count acc)
  | 0, acc => .pure acc
  | count + 1, acc => by
    rw [manyFrom_succ]
    exact h.bind fun a => assembled_manyFrom h count (acc.push a)

theorem assembled_many {item : Decoder α} (h : Assembled item) (count : Nat) :
    Assembled (many count item) :=
  assembled_manyFrom h count #[]

theorem assembled_header (magic : List UInt8) (version : Nat) :
    Assembled (header magic version) := by
  refine (assembled_many .byte 4).bind fun found => ?_
  split
  · exact assembled_malformed _
  · refine (assembled_number 2).bind fun v => ?_
    split
    · exact assembled_malformed _
    · exact .pure ()

theorem assembled_flag (cause : Nat → FormatCause) : Assembled (flag cause) := by
  refine (assembled_number 1).bind fun n => ?_
  split
  · exact .pure false
  · exact .pure true
  · exact assembled_malformed _

theorem assembled_cellCount : Assembled cellCount := by
  refine (assembled_number 4).bind fun count => ?_
  split
  · exact assembled_malformed _
  · exact .pure count

theorem assembled_cell (width : Nat) : Assembled (cell width) := by
  unfold cell
  split
  · exact assembled_number width
  · exact assembled_malformed _

theorem assembled_stage (bits : Nat) : Assembled (stage bits) :=
  assembled_cellCount.bind fun count => (assembled_number 1).bind fun width =>
    (assembled_many (assembled_cell width) count).bind fun _ => .pure _

theorem assembled_stages : ∀ widths : List Nat, Assembled (stages widths)
  | [] => .pure []
  | bits :: rest => (assembled_stage bits).bind fun _ =>
      (assembled_stages rest).bind fun _ => .pure _

theorem assembled_leafCells (l : Layout) : Assembled (leafCells l) := by
  refine assembled_cellCount.bind fun count => ?_
  split
  · exact (assembled_many .byte count).bind fun _ => .pure _
  · exact (assembled_many (assembled_word _) count).bind fun _ => .pure _

end Decoder

/-! ## Refusals while loading -/

theorem Width.ofBits_error {bits : Nat} {e : Error} (h : ofBits bits = .error e) :
    e.whenLoading.Malformed := by
  unfold ofBits at h
  split at h <;> cases h
  exact Error.malformed_format _

theorem Layout.ofLevels_error {domainBits : Nat} {levels : List Nat} {width : Width} {packed : Bool}
    {e : Error} (h : ofLevels domainBits levels width packed = .error e) :
    e.whenLoading.Malformed := by
  unfold ofLevels at h
  split_ifs at h <;> cases h <;> exact Error.malformed_format _

theorem Decoder.assembled_layout : Assembled Decoder.layout := by
  refine (assembled_header _ _).bind fun _ => (assembled_number 1).bind fun domainBits =>
    (assembled_number 1).bind fun count => (assembled_many (assembled_number 1) count).bind
      fun levels => (assembled_number 1).bind fun bits => ?_
  refine (assembled_loaded fun _ => Width.ofBits_error).bind fun width =>
    (assembled_flag _).bind fun packed => (assembled_word 4).bind fun default => ?_
  exact (assembled_loaded fun _ => Layout.ofLevels_error).bind fun l => .pure _

namespace SideTable

theorem empty_error {capacity : Nat} {e : Error} (h : empty capacity = .error e) :
    e.whenLoading.Malformed := by
  unfold empty at h
  split at h <;> cases h
  exact Error.malformed_format _

theorem readRows_error {capacity : Nat} {e : Error} : ∀ {count index : Nat} {cells : List UInt32}
    {records : Array (CodeList capacity)}, readRows capacity count index cells records = .error e →
      e.Malformed
  | 0, _, _, _, h => by cases h
  | count + 1, _, _, _, h => by
    rw [readRows] at h
    split at h
    · cases h
      exact Error.malformed_format _
    · exact readRows_error h

theorem ofCells_error {capacity : Nat} {cells : List UInt32} {e : Error}
    (h : ofCells capacity cells = .error e) : e.whenLoading.Malformed := by
  unfold ofCells at h
  split at h
  · rename_i e' he'
    cases h
    exact empty_error he'
  · simp only at h
    split at h
    · cases h
      exact Error.malformed_format _
    · split at h
      · split at h
        · rename_i e' he'
          cases h
          obtain ⟨cause, rfl⟩ := readRows_error he'
          exact Error.malformed_format cause
        · cases h
      · cases h
        exact Error.malformed_format _

theorem assembled_decode : Decoder.Assembled SideTable.decode := by
  refine (Decoder.assembled_flag _).bind fun present => ?_
  split
  · refine (Decoder.assembled_number 1).bind fun capacity => Decoder.assembled_cellCount.bind
      fun count => (Decoder.assembled_many (Decoder.assembled_word 4) count).bind fun cells => ?_
    exact (Decoder.assembled_loaded fun _ => ofCells_error).bind fun t => .pure _
  · exact .pure none

theorem formOnly_decode : Decoder.FormOnly SideTable.decode :=
  assembled_decode.formOnly

end SideTable

namespace Table

/-! ## What the check of a table reports -/

theorem checkShapes_error {e : Error} : ∀ {level : Nat} {widths : List Nat}
    {shapes : List (Nat × Nat)}, checkShapes level widths shapes = .error e → e.Malformed
  | level, declared :: widths, shape :: shapes, h => by
    rw [checkShapes] at h
    split at h
    · rename_i e' he'
      cases h
      unfold checkShape at he'
      simp only at he'
      split at he'
      · cases he'
        exact Error.malformed_format _
      · split at he' <;> cases he'
        exact Error.malformed_format _
    · exact checkShapes_error h
  | _, [], _, h => by simp [checkShapes] at h
  | _, _ :: _, [], h => by simp [checkShapes] at h

theorem checkReferences_error {leaf : Leaf} {e : Error} : ∀ {level : Nat} {stages : List Stage},
    checkReferences leaf level stages = .error e → e.Malformed
  | _, [], h => by cases h
  | level, s :: rest, h => by
    rw [checkReferences_cons] at h
    split at h
    · rename_i e' he'
      cases h
      unfold checkPages at he'
      split at he'
      · cases he'
        exact Error.malformed_format _
      · split at he' <;> cases he'
        exact Error.malformed_format _
    · exact checkReferences_error h

theorem checkReferences_congr {leaf leaf' : Leaf} (h : leaf.blockCount = leaf'.blockCount) :
    ∀ (level : Nat) (stages : List Stage),
      checkReferences leaf level stages = checkReferences leaf' level stages
  | _, [] => rfl
  | level, s :: rest => by
    have htop : topBlocks leaf rest = topBlocks leaf' rest := by
      cases rest with
      | nil => exact h
      | cons _ _ => rfl
    rw [checkReferences_cons, checkReferences_cons, htop, checkReferences_congr h]

variable {l : Layout} {stages : List Stage} {leaf : Leaf} {default : UInt32} {e : Error}

theorem check_error (h : check l stages leaf default = .error e) :
    e.Malformed ∨ (l.width.fits default = false ∧ e = .valueOverflow default l.width.bits) ∨
      checkValues l.width leaf = .error e := by
  unfold check at h
  split at h
  · cases h
    exact .inl (Error.malformed_format _)
  split at h
  · rename_i hfit
    cases h
    exact .inr (.inl ⟨hfit, rfl⟩)
  split at h
  · cases h
    exact .inl (Error.malformed_format _)
  split at h
  · rename_i e' he'
    cases h
    exact .inl (checkShapes_error he')
  split at h
  · rename_i e' he'
    cases h
    exact .inl (checkReferences_error he')
  · exact .inr (.inr h)

/-- The leaves with zero for every value. -/
def zeroed (bits : Nat) (width : Width) (values : Array UInt32) : Leaf :=
  ⟨bits, width, .plain (values.map fun _ => 0)⟩

theorem checkValues_zeroed (w : Width) (bits : Nat) (width : Width) (values : Array UInt32) :
    checkValues w (zeroed bits width values) = .ok () := by
  have hzero : w.fits 0 = true := (w.fits_iff 0).mpr (Nat.two_pow_pos _)
  rw [checkValues_eq_ok]
  intro values' hcells v hv
  cases hcells
  obtain ⟨_, _, rfl⟩ := Array.mem_map.mp hv
  exact hzero

/-- **Values are looked at last**: before that the check does not depend on them. -/
theorem check_plain (l : Layout) (stages : List Stage) (bits : Nat) (width : Width)
    (values : Array UInt32) (default : UInt32) :
    check l stages ⟨bits, width, .plain values⟩ default =
      match check l stages (zeroed bits width values) default with
      | .error e => .error e
      | .ok () => checkValues l.width ⟨bits, width, .plain values⟩ := by
  have hlength : (zeroed bits width values).length = values.size := by
    simp [zeroed, Leaf.length]
  have hshapes : shapes stages (zeroed bits width values) =
      shapes stages ⟨bits, width, .plain values⟩ := by
    unfold shapes
    rw [hlength]
    rfl
  have hblocks : (zeroed bits width values).blockCount =
      Leaf.blockCount ⟨bits, width, .plain values⟩ := by
    unfold Leaf.blockCount
    rw [hlength]
    rfl
  have hbits : (zeroed bits width values).bits = Leaf.bits ⟨bits, width, .plain values⟩ := rfl
  have hwidth : (zeroed bits width values).width = Leaf.width ⟨bits, width, .plain values⟩ := rfl
  have hpacked : (zeroed bits width values).packed = Leaf.packed ⟨bits, width, .plain values⟩ := rfl
  unfold check
  rw [hshapes, checkReferences_congr hblocks, checkValues_zeroed, hbits, hwidth, hpacked]
  split
  · rfl
  split
  · rfl
  split
  · rfl
  cases checkShapes 0 l.levels (shapes stages ⟨bits, width, .plain values⟩) with
  | error e => rfl
  | ok _ => cases checkReferences ⟨bits, width, .plain values⟩ 0 stages <;> rfl

/-! ## Data that overflow -/

/-- The data start with these parts of a table, whatever the check says about them. -/
def Stored (bytes : List UInt8) (l : Layout) (default : UInt32) (stages : List Stage)
    (cells : Cells) : Prop :=
  ∃ afterLayout afterStages rest, Decoder.layout bytes = .ok ((l, default), afterLayout) ∧
    Decoder.stages l.stageBits afterLayout = .ok (stages, afterStages) ∧
    Decoder.leafCells l afterStages = .ok (cells, rest)

/-- The data hold the parts of a table and a value without room in its width: the default, or else the
first such value of leaves that would form a table if their values were zero. -/
def Overflow (bytes : List UInt8) (e : Error) : Prop :=
  ∃ l default stages cells value, Stored bytes l default stages cells ∧
    e = .valueOverflow value l.width.bits ∧
    (l.width.fits default = false ∧ value = default ∨
      ∃ values, cells = .plain values ∧ values.find? (! l.width.fits ·) = some value ∧
        check l stages (zeroed l.leafBits l.width values) default = .ok ())

theorem ofParts_eq_error : ofParts l stages leaf default = .error e ↔
    check l stages leaf default = .error e := by
  unfold ofParts
  split <;> rename_i h <;> simp [h]

theorem length_stages {rest : List UInt8} : ∀ {widths : List Nat} {bytes : List UInt8}
    {stages : List Stage}, Decoder.stages widths bytes = .ok (stages, rest) →
      stages.length = widths.length
  | [], bytes, stages, h => by
    cases h
    rfl
  | bits :: widths, bytes, stages, h => by
    rw [Decoder.stages, Decoder.bind_apply] at h
    split at h
    · cases h
    rw [Decoder.bind_apply] at h
    split at h
    · cases h
    · rename_i hrest
      cases h
      rw [List.length_cons, length_stages hrest, List.length_cons]

theorem refuses_iff (bytes : List UInt8) (e : Error) :
    Decoder.Refuses decode bytes e ↔ ∃ l default stages cells,
      Stored bytes l default stages cells ∧
        check l stages ⟨l.leafBits, l.width, cells⟩ default = .error e ∧ ¬ e.Malformed := by
  unfold decode
  rw [Decoder.refuses_bind Decoder.assembled_layout.formOnly]
  constructor
  · rintro ⟨⟨l, default⟩, afterLayout, hlayout, h⟩
    obtain ⟨stages, afterStages, hstages, h⟩ :=
      (Decoder.refuses_bind (Decoder.assembled_stages _).formOnly).mp h
    obtain ⟨cells, rest, hcells, hcheck, hform⟩ :=
      (Decoder.refuses_bind (Decoder.assembled_leafCells l).formOnly).mp h
    rw [Decoder.checked_eq_error, ofParts_eq_error] at hcheck
    exact ⟨l, default, stages, cells, ⟨_, _, _, hlayout, hstages, hcells⟩, hcheck, hform⟩
  · rintro ⟨l, default, stages, cells, ⟨_, _, rest, hlayout, hstages, hcells⟩, hcheck, hform⟩
    refine ⟨(l, default), _, hlayout, (Decoder.refuses_bind (Decoder.assembled_stages _).formOnly).mpr
      ⟨stages, _, hstages, (Decoder.refuses_bind (Decoder.assembled_leafCells l).formOnly).mpr
        ⟨cells, rest, hcells, ?_, hform⟩⟩⟩
    rw [Decoder.checked_eq_error, ofParts_eq_error]
    exact hcheck

theorem checkValues_error {w : Width} (h : checkValues w leaf = .error e) :
    ∃ values value, leaf.cells = .plain values ∧ values.find? (! w.fits ·) = some value ∧
      e = .valueOverflow value w.bits := by
  unfold checkValues at h
  split at h
  · cases h
  · rename_i values hcells
    split at h
    · rename_i value hvalue
      cases h
      exact ⟨values, value, hcells, hvalue, rfl⟩
    · cases h

/-- **A table is refused for another reason than its form exactly if its data overflow.** -/
theorem overflow_iff (bytes : List UInt8) (e : Error) :
    Decoder.Refuses decode bytes e ↔ Overflow bytes e := by
  rw [refuses_iff]
  constructor
  · rintro ⟨l, default, stages, cells, hstored, hcheck, hform⟩
    rcases (check_error hcheck).resolve_left hform with ⟨hfit, rfl⟩ | hvalues
    · exact ⟨l, default, stages, cells, default, hstored, rfl, .inl ⟨hfit, rfl⟩⟩
    obtain ⟨values, value, rfl, hvalue, rfl⟩ := checkValues_error hvalues
    rw [check_plain] at hcheck
    split at hcheck
    · -- the check of zeroed leaves can only fail for the default
      rename_i e' he'
      cases hcheck
      rcases (check_error he').resolve_left hform with ⟨hfit, hsame⟩ | hzeroed
      · cases hsame
        exact ⟨l, _, stages, _, _, hstored, rfl, .inl ⟨hfit, rfl⟩⟩
      · rw [checkValues_zeroed] at hzeroed
        cases hzeroed
    · rename_i hzeroed
      exact ⟨l, default, stages, _, value, hstored, rfl, .inr ⟨values, rfl, hvalue, hzeroed⟩⟩
  · rintro ⟨l, default, stages, cells, value, hstored, rfl, hcase⟩
    refine ⟨l, default, stages, cells, hstored, ?_, Error.not_malformed_overflow _ _⟩
    rcases hcase with ⟨hfit, rfl⟩ | ⟨values, rfl, hvalue, hzeroed⟩
    · obtain ⟨_, _, _, -, hstages, -⟩ := hstored
      have hcount : stages.length = l.stageCount := by
        rw [length_stages hstages, l.length_stageBits]
      unfold check
      rw [if_neg (not_not.mpr hcount), if_pos hfit]
    · rw [check_plain, hzeroed]
      simp only [checkValues, hvalue]

end Table

/-! ## Properties and catalogs -/

namespace Property

theorem ofParts_refused {name : String} {kind : Kind} {table : Table} {side : Option SideTable}
    {report : Report} {e : Error} (h : ofParts name kind table side report = .error e) :
    ∃ cause, e = .config cause := by
  unfold ofParts at h
  split at h
  · cases h
    exact ⟨_, rfl⟩
  split at h
  · split at h <;> cases h
    exact ⟨_, rfl⟩
  split at h
  · split at h
    · rename_i e' he'
      cases h
      unfold SideTable.requireCovers at he'
      split at he' <;> cases he'
      exact ⟨_, rfl⟩
    · cases h
  · cases h
    exact ⟨_, rfl⟩

theorem ofParts_error {name : String} {kind : Kind} {table : Table} {side : Option SideTable}
    {report : Report} {e : Error} (h : ofParts name kind table side report = .error e) :
    e.whenLoading.Malformed := by
  obtain ⟨cause, rfl⟩ := ofParts_refused h
  exact Error.malformed_format _

theorem assembled_decodeName : Decoder.Assembled decodeName := by
  refine (Decoder.assembled_number 2).bind fun length =>
    (Decoder.assembled_many .byte length).bind fun bytes => ?_
  split
  · exact .pure _
  · exact Decoder.assembled_malformed _

theorem assembled_decodeKind : Decoder.Assembled decodeKind := by
  refine (Decoder.assembled_number 1).bind fun tag => Decoder.assembled_checked fun e h => ?_
  unfold Kind.ofTag at h
  split at h <;> cases h
  exact Error.malformed_format _

/-- The data hold a name, a kind, and a table that overflows. -/
def Overflow (bytes : List UInt8) (e : Error) : Prop :=
  ∃ name afterName kind afterKind, decodeName bytes = .ok (name, afterName) ∧
    decodeKind afterName = .ok (kind, afterKind) ∧ Table.Overflow afterKind e

/-- **A property is refused for another reason than its form exactly if its table overflows.** -/
theorem overflow_iff (bytes : List UInt8) (e : Error) :
    Decoder.Refuses decode bytes e ↔ Overflow bytes e := by
  have hrest (name : String) (kind : Kind) (table : Table) : Decoder.FormOnly
      (SideTable.decode >>= fun side => Decoder.loaded (ofParts name kind table side {})) :=
    SideTable.formOnly_decode.bind fun _ => (Decoder.assembled_loaded fun _ => ofParts_error).formOnly
  unfold decode
  simp only [Decoder.refuses_bind assembled_decodeName.formOnly,
    Decoder.refuses_bind assembled_decodeKind.formOnly, Decoder.refuses_bind_left (hrest _ _),
    Table.overflow_iff]
  constructor
  · rintro ⟨name, afterName, hname, kind, afterKind, hkind, h⟩
    exact ⟨name, afterName, kind, afterKind, hname, hkind, h⟩
  · rintro ⟨name, afterName, kind, afterKind, hname, hkind, h⟩
    exact ⟨name, afterName, hname, kind, afterKind, hkind, h⟩

end Property

namespace Catalog

theorem assembled_insert (c : Catalog) (p : Property) :
    Decoder.Assembled (Decoder.loaded (c.insert p)) := by
  apply Decoder.assembled_loaded
  intro e h
  unfold insert at h
  split at h <;> cases h
  exact Error.malformed_format _

/-- The properties in front of the one that is refused are read.  The induction is on the number of
properties; the catalog so far is general. -/
theorem refuses_decodeAll {e : Error} : ∀ (count : Nat) (c : Catalog) (bytes : List UInt8),
    Decoder.Refuses (decodeAll count c) bytes e ↔ ∃ before < count, ∃ c' rest,
      decodeAll before c bytes = .ok (c', rest) ∧ Property.Overflow rest e
  | 0, c, bytes => by
    have hnone : ¬ Decoder.Refuses (decodeAll 0 c) bytes e :=
      (Decoder.Assembled.pure c).formOnly.not_refuses
    simp [hnone]
  | count + 1, c, bytes => by
    unfold decodeAll Decoder.Refuses
    rw [Decoder.bind_eq_error]
    constructor
    · rintro ⟨hfirst | ⟨p, mid, hp, h⟩, hform⟩
      · exact ⟨0, Nat.succ_pos _, c, bytes, rfl, (Property.overflow_iff _ _).mp ⟨hfirst, hform⟩⟩
      obtain ⟨c₁, rest, hinsert, hlater⟩ :=
        (Decoder.refuses_bind (assembled_insert c p).formOnly).mp ⟨h, hform⟩
      obtain ⟨before, hlt, c', rest', hread, hover⟩ := (refuses_decodeAll count c₁ rest).mp hlater
      refine ⟨before + 1, Nat.succ_lt_succ hlt, c', rest', ?_, hover⟩
      simp only [Decoder.bind_apply, hp, hinsert, hread]
    · rintro ⟨before, hlt, c', rest', hread, hover⟩
      cases before with
      | zero =>
        cases hread
        obtain ⟨h, hform⟩ := (Property.overflow_iff _ _).mpr hover
        exact ⟨.inl h, hform⟩
      | succ before =>
        simp only [Decoder.bind_apply] at hread
        split at hread
        · cases hread
        rename_i p mid hp
        split at hread
        · cases hread
        rename_i c₁ rest hinsert
        have hlater := (refuses_decodeAll count c₁ rest).mpr
          ⟨before, Nat.lt_of_succ_lt_succ hlt, c', rest', hread, hover⟩
        obtain ⟨h, hform⟩ :=
          (Decoder.refuses_bind (assembled_insert c p).formOnly).mpr ⟨c₁, rest, hinsert, hlater⟩
        exact ⟨.inr ⟨p, mid, hp, h⟩, hform⟩

/-- The data hold the head of a catalog and some of its properties, and then one that overflows. -/
def Overflow (bytes : List UInt8) (e : Error) : Prop :=
  ∃ afterHead count afterCount, Decoder.header Wire.catalogMark Wire.version bytes =
      .ok ((), afterHead) ∧ Decoder.number 4 afterHead = .ok (count, afterCount) ∧
    ∃ before < count, ∃ c rest, decodeAll before empty afterCount = .ok (c, rest) ∧
      Property.Overflow rest e

/-- **A catalog is refused for another reason than its form exactly if one of its tables overflows.** -/
theorem overflow_iff (bytes : List UInt8) (e : Error) :
    Decoder.Refuses decode bytes e ↔ Overflow bytes e := by
  unfold decode
  simp only [Decoder.refuses_bind (Decoder.assembled_header _ _).formOnly,
    Decoder.refuses_bind (Decoder.assembled_number 4).formOnly, refuses_decodeAll]
  constructor
  · rintro ⟨⟨⟩, afterHead, hhead, count, afterCount, hcount, h⟩
    exact ⟨afterHead, count, afterCount, hhead, hcount, h⟩
  · rintro ⟨afterHead, count, afterCount, hhead, hcount, h⟩
    exact ⟨(), afterHead, hhead, count, afterCount, hcount, h⟩

theorem ofBytes_eq_error {bytes : List UInt8} {e : Error} (hform : ¬ e.Malformed) :
    ofBytes bytes = .error e ↔ decode bytes = .error e := by
  unfold ofBytes
  split
  · rename_i e' he'
    simp [he']
  · rename_i c hc
    simp [hc]
  · rename_i c rest _ hc
    constructor
    · intro h
      cases h
      exact absurd (Error.malformed_format _) hform
    · intro h
      rw [hc] at h
      cases h

end Catalog

/-- **How reading fails.**  On all data: a side table fails for their form only; a table, a property and
a catalog, also one that has to take all the data, fail for their form or because a table in them
overflows, and the latter exactly if it does.  The error of an overflow names the first value without
room and the width stored for the table. -/
theorem read_failure (bytes : List UInt8) (e : Error) :
    (SideTable.decode bytes = .error e → e.Malformed) ∧
    ((Table.decode bytes = .error e ∧ ¬ e.Malformed) ↔ Table.Overflow bytes e) ∧
    ((Property.decode bytes = .error e ∧ ¬ e.Malformed) ↔ Property.Overflow bytes e) ∧
    ((Catalog.decode bytes = .error e ∧ ¬ e.Malformed) ↔ Catalog.Overflow bytes e) ∧
    ((Catalog.ofBytes bytes = .error e ∧ ¬ e.Malformed) ↔ Catalog.Overflow bytes e) := by
  refine ⟨SideTable.formOnly_decode bytes e, Table.overflow_iff bytes e,
    Property.overflow_iff bytes e, Catalog.overflow_iff bytes e, ?_⟩
  rw [← Catalog.overflow_iff]
  constructor
  · rintro ⟨h, hform⟩
    exact ⟨(Catalog.ofBytes_eq_error hform).mp h, hform⟩
  · rintro ⟨h, hform⟩
    exact ⟨(Catalog.ofBytes_eq_error hform).mpr h, hform⟩

/-- A default of 256 for values of eight bits: the data are refused, and not for their form. -/
theorem read_default_overflow :
    Table.decode [0x43, 0x50, 0x54, 0x52, 1, 0, 4, 2, 2, 2, 8, 0, 0, 1, 0, 0, 4, 0, 0, 0, 1, 0, 0, 1,
        1, 8, 0, 0, 0, 0, 0, 0, 0, 1, 1, 1, 1] = .error (.valueOverflow 256 8) ∧
      ¬ (Error.valueOverflow 256 8).Malformed :=
  ⟨rfl, Error.not_malformed_overflow 256 8⟩

end Multistage
