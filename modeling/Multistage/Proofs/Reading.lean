import Multistage.Wire.Table
import Mathlib.Tactic.Common

/-!
# What readers take from the front

A reader undoes a writer if it takes the bytes written from the front of any data and leaves what
follows.  Readers are put together with `>>=`, and so is this property.

* `Decoder.Reads` — the reader takes these bytes, whatever follows them, and gives this value.
* `Reads.bind`, `Reads.last` — one reader after another.
* `reads_number`, `reads_many`, `reads_header`, `reads_flag`, `reads_cellCount`, `reads_cell`,
  `reads_word` — the parts that all formats share.
-/

namespace Multistage.Decoder

variable {α β : Type}

/-- From data that start with `bytes`, the reader takes these, and gives `a`. -/
def Reads (d : Decoder α) (bytes : List UInt8) (a : α) : Prop :=
  ∀ rest, d (bytes ++ rest) = .ok (a, rest)

theorem reads_pure (a : α) : Reads (pure a) [] a :=
  fun _ => rfl

/-- **One reader after another.** -/
theorem Reads.bind {d : Decoder α} {f : α → Decoder β} {bytes bytes' : List UInt8} {a : α} {b : β}
    (h : Reads d bytes a) (h' : Reads (f a) bytes' b) : Reads (d >>= f) (bytes ++ bytes') b := by
  intro rest
  have hbind : (d >>= f) (bytes ++ (bytes' ++ rest)) = (d (bytes ++ (bytes' ++ rest)) >>= fun p =>
      f p.1 p.2) := rfl
  rw [List.append_assoc, hbind, h]
  exact h' rest

theorem Reads.last {d : Decoder α} {f : α → Decoder β} {bytes : List UInt8} {a : α} {b : β}
    (h : Reads d bytes a) (h' : Reads (f a) [] b) : Reads (d >>= f) bytes b := by
  have hb := h.bind h'
  rwa [List.append_nil] at hb

theorem Reads.bind_error {d : Decoder α} {f : α → Decoder β} {bytes rest : List UInt8} {a : α}
    {e : Error} (h : Reads d bytes a) (h' : f a rest = .error e) :
    (d >>= f) (bytes ++ rest) = .error e := by
  have hbind : (d >>= f) (bytes ++ rest) = (d (bytes ++ rest) >>= fun p => f p.1 p.2) := rfl
  rw [hbind, h]
  exact h'

theorem reads_loaded {result : Except Error α} {a : α} (h : result = .ok a) :
    Reads (loaded result) [] a := by
  intro rest
  rw [h]
  rfl

theorem reads_checked {result : Except Error α} {a : α} (h : result = .ok a) :
    Reads (checked result) [] a := by
  intro rest
  rw [h]
  rfl

/-! ## Numbers -/

theorem reads_byte (b : UInt8) : Reads byte [b] b :=
  fun _ => rfl

/-- **A number that has room in `size` bytes is read back.** -/
theorem reads_number : ∀ (size : Nat) {n : Nat}, n < 256 ^ size →
    Reads (number size) (Wire.number size n) n
  | 0, n, h => by
    have hn : n = 0 := by omega
    rw [hn]
    exact reads_pure 0
  | size + 1, n, h => by
    have hhigh : n / 256 < 256 ^ size := by
      rw [Nat.pow_succ] at h
      omega
    have hvalue : (UInt8.ofNat (n % 256)).toNat + 256 * (n / 256) = n := by
      rw [UInt8.toNat_ofNat']
      omega
    have hlow := reads_byte (UInt8.ofNat (n % 256))
    refine hlow.bind ((reads_number size hhigh).last ?_)
    rw [hvalue]
    exact reads_pure n

theorem reads_word {size : Nat} {v : UInt32} (h : v.toNat < 256 ^ size) :
    Reads (word size) (Wire.number size v.toNat) v := by
  refine (reads_number size h).last ?_
  rw [UInt32.ofNat_toNat]
  exact reads_pure v

theorem reads_flag (cause : Nat → FormatCause) (b : Bool) :
    Reads (flag cause) (Wire.number 1 b.toNat) b := by
  cases b with
  | false => exact (reads_number 1 (by decide)).last (reads_pure false)
  | true => exact (reads_number 1 (by decide)).last (reads_pure true)

theorem reads_cellCount {count : Nat} (h : count ≤ Wire.maxCells) :
    Reads cellCount (Wire.number 4 count) count := by
  have hlt : count < 256 ^ 4 := Nat.lt_of_le_of_lt h (by decide)
  refine (reads_number 4 hlt).last ?_
  rw [if_neg (Nat.not_lt.mpr h)]
  exact reads_pure count

theorem reads_cell {width n : Nat} (hw : width = 1 ∨ width = 2 ∨ width = 4) (h : n < 256 ^ width) :
    Reads (cell width) (Wire.number width n) n := by
  unfold cell
  rw [if_pos hw]
  exact reads_number width h

/-! ## Rows -/

/-- The induction is on the things still to come; those read so far are general. -/
theorem reads_manyFrom {item : Decoder α} {write : α → List UInt8} :
    ∀ (xs : List α) (acc : Array α), (∀ x ∈ xs, Reads item (write x) x) →
      Reads (manyFrom item xs.length acc) (xs.flatMap write) (acc ++ xs.toArray)
  | [], acc, _ => by
    intro rest
    simp [manyFrom]
  | x :: xs, acc, h => by
    intro rest
    have hx := h x (by simp) (xs.flatMap write ++ rest)
    have hxs := reads_manyFrom xs (acc.push x) (fun y hy => h y (by simp [hy])) rest
    rw [List.flatMap_cons, List.append_assoc, List.length_cons, manyFrom, hx]
    simpa using hxs

/-- **A row of things, each of which is read back.** -/
theorem reads_many {item : Decoder α} {write : α → List UInt8} (xs : List α)
    (h : ∀ x ∈ xs, Reads item (write x) x) :
    Reads (many xs.length item) (xs.flatMap write) xs.toArray := by
  have hm := reads_manyFrom xs #[] h
  rwa [Array.empty_append] at hm

theorem reads_bytes (bytes : List UInt8) : Reads (many bytes.length byte) bytes bytes.toArray := by
  have hm := reads_many bytes fun b _ => reads_byte b
  rwa [List.flatMap_singleton'] at hm

theorem reads_header {magic : List UInt8} (hm : magic.length = 4) {version : Nat}
    (hv : version < 256 ^ 2) :
    Reads (header magic version) (magic ++ Wire.number 2 version) () := by
  have hmagic := reads_bytes magic
  rw [hm] at hmagic
  refine hmagic.bind ?_
  rw [if_neg (not_not.mpr rfl)]
  refine (reads_number 2 hv).last ?_
  rw [if_neg (not_not.mpr rfl)]
  exact reads_pure ()

end Multistage.Decoder
