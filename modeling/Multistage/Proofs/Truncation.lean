import Multistage.Proofs.Reencoding

/-!
# Data that are cut short, and data with something after them

A reader that accepts data goes by the bytes that it takes: what follows them makes no difference, and
if the data end before the last of them, then that is what it reports.  No check fails earlier on a cut
than on the whole, since each is made as soon as what it looks at was read.

* `Decoder.SelfDelimiting` — readers of this kind.
* `SelfDelimiting.bind` — one such reader after another.
* `Assembled.selfDelimiting` — readers that are put together from that of one byte.
* `Catalog.selfDelimiting_decode` — the reader of catalogs is one.
* `Catalog.damage_detected` — a catalog that was cut short, and one with something after it.
-/

namespace Multistage

open Decoder

namespace Decoder

variable {α β : Type}

/-- Data that are read start with bytes that are read in the same way whatever follows, and of which
none can be missing. -/
def SelfDelimiting (d : Decoder α) : Prop :=
  ∀ bytes a rest, d bytes = .ok (a, rest) →
    ∃ taken, bytes = taken ++ rest ∧ Reads d taken a ∧
      ∀ part more, taken = part ++ more → more ≠ [] → d part = .error (.format .truncated)

/-- **One reader after another.**  A cut falls into what the first one takes, or into what the second
one takes; if it falls between them, then nothing is left for the second. -/
theorem SelfDelimiting.bind {d : Decoder α} {f : α → Decoder β} (h : SelfDelimiting d)
    (h' : ∀ a, SelfDelimiting (f a)) : SelfDelimiting (d >>= f) := by
  intro bytes b rest hread
  obtain ⟨a, mid, hd, hf⟩ := bind_eq_ok.mp hread
  obtain ⟨first, rfl, hfirst, hcut⟩ := h _ _ _ hd
  obtain ⟨second, rfl, hsecond, hcut'⟩ := h' a _ _ _ hf
  refine ⟨first ++ second, (List.append_assoc ..).symm, hfirst.bind hsecond, ?_⟩
  intro part more heq hmore
  rcases List.append_eq_append_iff.mp heq with ⟨tail, rfl, rfl⟩ | ⟨tail, rfl, rfl⟩
  · exact hfirst.bind_error (hcut' tail more rfl hmore)
  · by_cases htail : tail = []
    · subst htail
      have hpart := Reads.bind_error hfirst (hcut' [] second rfl hmore)
      rwa [List.append_nil, List.append_nil] at hpart
    · exact bind_eq_error.mpr (.inl (hcut part tail rfl htail))

theorem selfDelimiting_of_reads_nil {d : Decoder α}
    (h : ∀ bytes a rest, d bytes = .ok (a, rest) → rest = bytes ∧ Reads d [] a) :
    SelfDelimiting d := by
  intro bytes a rest hread
  obtain ⟨rfl, hreads⟩ := h bytes a rest hread
  refine ⟨[], rfl, hreads, fun part more heq hmore => ?_⟩
  exact absurd (List.append_eq_nil_iff.mp heq.symm).2 hmore

theorem selfDelimiting_loaded (result : Except Error α) : SelfDelimiting (loaded result) := by
  refine selfDelimiting_of_reads_nil fun bytes a rest h => ?_
  obtain ⟨hresult, hrest⟩ := loaded_eq_ok.mp h
  exact ⟨hrest, reads_loaded hresult⟩

theorem selfDelimiting_checked (result : Except Error α) : SelfDelimiting (checked result) := by
  refine selfDelimiting_of_reads_nil fun bytes a rest h => ?_
  obtain ⟨hresult, hrest⟩ := checked_eq_ok.mp h
  exact ⟨hrest, reads_checked hresult⟩

theorem selfDelimiting_byte : SelfDelimiting byte := by
  intro bytes b rest h
  refine ⟨[b], byte_eq_ok h, reads_byte b, fun part more heq hmore => ?_⟩
  cases part with
  | nil => rfl
  | cons b' part =>
    have htail : part ++ more = [] := (List.cons.inj heq).2.symm
    exact absurd (List.append_eq_nil_iff.mp htail).2 hmore

/-- **Readers that are put together from that of one byte go by the bytes that they take.** -/
theorem Assembled.selfDelimiting {d : Decoder α} (h : Assembled d) : SelfDelimiting d := by
  induction h with
  | pure a =>
    refine selfDelimiting_of_reads_nil fun bytes b rest h => ?_
    obtain ⟨rfl, hrest⟩ := pure_eq_ok.mp h
    exact ⟨hrest, reads_pure b⟩
  | byte => exact selfDelimiting_byte
  | fail _ =>
    intro bytes a rest h
    cases h
  | bind _ _ ih ih' => exact ih.bind ih'

end Decoder

/-! ## Tables, properties and catalogs -/

theorem Table.selfDelimiting_decode : SelfDelimiting Table.decode :=
  assembled_layout.selfDelimiting.bind fun _ => (assembled_stages _).selfDelimiting.bind fun _ =>
    (assembled_leafCells _).selfDelimiting.bind fun _ => selfDelimiting_checked _

theorem Property.selfDelimiting_decode : SelfDelimiting Property.decode :=
  assembled_decodeName.selfDelimiting.bind fun _ => assembled_decodeKind.selfDelimiting.bind fun _ =>
    Table.selfDelimiting_decode.bind fun _ => SideTable.assembled_decode.selfDelimiting.bind fun _ =>
      selfDelimiting_loaded _

namespace Catalog

/-- The induction is on the number of properties still to come. -/
theorem selfDelimiting_decodeAll : ∀ (count : Nat) (c : Catalog), SelfDelimiting (decodeAll count c)
  | 0, c => (Assembled.pure c).selfDelimiting
  | count + 1, c => Property.selfDelimiting_decode.bind fun p =>
      (selfDelimiting_loaded (c.insert p)).bind fun c' => selfDelimiting_decodeAll count c'

/-- **The reader of catalogs goes by the bytes that it takes.** -/
theorem selfDelimiting_decode : SelfDelimiting decode :=
  (assembled_header _ _).selfDelimiting.bind fun _ =>
    (assembled_number 4).selfDelimiting.bind fun count => selfDelimiting_decodeAll count empty

/-- **Catalogs that were cut short, or have something after them, are told apart from others.**  If data
are read as a catalog, then any part of them from the front ends too early, and any bytes after them are
reported with their number. -/
theorem damage_detected {bytes : List UInt8} {c : Catalog} (h : ofBytes bytes = .ok c) :
    (∀ part, part <+: bytes → part ≠ bytes → ofBytes part = .error (.format .truncated)) ∧
    (∀ more, more ≠ [] → ofBytes (bytes ++ more) = .error (.format (.trailing more.length))) ∧
    FormatCause.message .truncated = "unexpected end of data" ∧
    ∀ n, FormatCause.message (.trailing n) = toString n ++ " trailing bytes after catalog" := by
  obtain ⟨taken, heq, hreads, hcut⟩ := selfDelimiting_decode _ _ _ (ofBytes_eq_ok.mp h)
  obtain rfl : bytes = taken := heq.trans (List.append_nil taken)
  refine ⟨fun part hpart hne => ?_, fun more hmore => ?_, rfl, fun n => ?_⟩
  · obtain ⟨more, rfl⟩ := hpart
    have hmore : more ≠ [] := fun hnil => hne (by rw [hnil, List.append_nil])
    unfold ofBytes
    rw [hcut part more rfl hmore]
  · unfold ofBytes
    rw [hreads more]
    cases more with
    | nil => exact absurd rfl hmore
    | cons b more => rfl
  · rfl

/-- A catalog of one property, whose bytes end with those that say that there is no side table: without
the last byte, and with two more. -/
theorem damage_detected_single :
    ∃ c, ofBytes [0x43, 0x50, 0x43, 0x54, 1, 0, 1, 0, 0, 0, 1, 0, 0x55, 0, 0x43, 0x50, 0x54, 0x52, 1,
        0, 2, 2, 1, 1, 8, 0, 0, 0, 0, 0, 2, 0, 0, 0, 1, 0, 1, 4, 0, 0, 0, 0, 1, 1, 0, 0] = .ok c ∧
      ofBytes [0x43, 0x50, 0x43, 0x54, 1, 0, 1, 0, 0, 0, 1, 0, 0x55, 0, 0x43, 0x50, 0x54, 0x52, 1, 0,
        2, 2, 1, 1, 8, 0, 0, 0, 0, 0, 2, 0, 0, 0, 1, 0, 1, 4, 0, 0, 0, 0, 1, 1, 0] =
          .error (.format .truncated) ∧
      ofBytes [0x43, 0x50, 0x43, 0x54, 1, 0, 1, 0, 0, 0, 1, 0, 0x55, 0, 0x43, 0x50, 0x54, 0x52, 1, 0,
        2, 2, 1, 1, 8, 0, 0, 0, 0, 0, 2, 0, 0, 0, 1, 0, 1, 4, 0, 0, 0, 0, 1, 1, 0, 0, 7, 7] =
          .error (.format (.trailing 2)) := by
  have hcheck : Property.readsAs [1, 0, 0x55, 0, 0x43, 0x50, 0x54, 0x52, 1, 0, 2, 2, 1, 1, 8, 0, 0, 0,
      0, 0, 2, 0, 0, 0, 1, 0, 1, 4, 0, 0, 0, 0, 1, 1, 0, 0] (fun _ => true) = true := by decide +kernel
  obtain ⟨c, p, hread, -, -⟩ := ofBytes_single hcheck
  obtain ⟨hcut, hmore, -⟩ := damage_detected hread
  exact ⟨c, hread, hcut _ ⟨[0], rfl⟩ (by decide), hmore [7, 7] (by decide)⟩

end Catalog

end Multistage
