import Multistage.Proofs.SmallestTable
import Multistage.Table.Ranges
import Mathlib.Data.List.Chain

/-!
# The ranges of a table are its values

`Table.ranges` walks down the stages and looks at no key twice.  The walk is the same as looking up
one code point after the other, because the cells of a block stand for consecutive keys.

* `walk_eq_foldl` — the walk below a block, key by key.
* `ranges_eq_foldl` — the ranges of a table, code point by code point.
* `Tiled` — ranges that follow each other without a gap from zero on, as long as they can be, each
  with the value of its code points.  `Tiled.extend` is the step, `ranges_tiled` the outcome.
* `Table.toMap` — the range map of a table, which `RangeMap.ofRanges` accepts.
-/

namespace Multistage

/-- A loop over `count * size` numbers as a loop over blocks of `size`. -/
theorem foldl_range_mul {β : Type} (f : β → Nat → β) (size : Nat) :
    ∀ (count : Nat) (b : β), (List.range (count * size)).foldl f b =
      (List.range count).foldl
        (fun b i => (List.range size).foldl (fun b j => f b (i * size + j)) b) b
  | 0, b => by simp
  | count + 1, b => by
    have ih := foldl_range_mul f size count b
    rw [Nat.succ_mul, List.range_add, List.foldl_append, ih, List.range_succ, List.foldl_append,
      List.foldl_map]
    rfl

namespace Table

/-! ## The walk, key by key -/

/-- The value that a key leads to from a block of the first step. -/
def valueFrom (leaf : Leaf) (steps : List Step) (block key : Nat) : Option UInt32 :=
  (follow steps block key).bind fun p => leaf.get? (p.1 * 2 ^ leaf.bits + p.2)

/-- What the walk does at a key, when the keys start at code point `base`. -/
def visit (last base : Nat) (value? : Nat → Option UInt32) (ranges : List CodeRange) (key : Nat) :
    List CodeRange :=
  if last < base + key then ranges
  else
    match value? key with
    | none => ranges
    | some value => CodeRange.extend (UInt32.ofNat (base + key)) value ranges

theorem visit_of_lt {last base key : Nat} (h : last < base + key) (value? : Nat → Option UInt32)
    (ranges : List CodeRange) : visit last base value? ranges key = ranges :=
  if_pos h

theorem visit_of_none (last base : Nat) {value? : Nat → Option UInt32} {key : Nat}
    (h : value? key = none) (ranges : List CodeRange) :
    visit last base value? ranges key = ranges := by
  unfold visit
  rw [h]
  split <;> rfl

/-- The field of a key selects the cell, and the rest goes on below it. -/
theorem valueFrom_cons (leaf : Leaf) (s : Step) (rest : List Step) (block cell : Nat) {key : Nat}
    (h : key < s.span) :
    valueFrom leaf (s :: rest) block (cell * s.span + key) =
      s.pages[block * s.blockSize + cell]?.bind fun page => valueFrom leaf rest page key := by
  obtain ⟨hdiv, hmod⟩ := div_mod_cell cell h
  unfold valueFrom
  simp only [follow, hdiv, hmod]
  cases s.pages[block * s.blockSize + cell]? <;> rfl

/-- **The walk below a block looks at its keys one after the other.**  The induction is on the stages;
a cell of the first one stands for a block of keys. -/
theorem walk_eq_foldl (leaf : Leaf) (last : Nat) :
    ∀ (stages : List Stage) (block base : Nat) (ranges : List CodeRange),
      walk leaf last (stepsOf stages (keyBits leaf stages)) block base ranges =
        (List.range (2 ^ keyBits leaf stages)).foldl
          (visit last base (valueFrom leaf (stepsOf stages (keyBits leaf stages)) block)) ranges
  | [], block, base, ranges => by
    rw [keyBits_nil]
    simp only [stepsOf, walk, walkCells, Nat.mul_one]
    rfl
  | s :: rest, block, base, ranges => by
    rw [stepsOf_cons, keyBits_cons, Nat.pow_add, foldl_range_mul]
    simp only [walk, walkCells]
    apply List.foldl_ext
    intro ranges cell _
    obtain ⟨first, hfirst⟩ : ∃ first, first = base + cell * 2 ^ keyBits leaf rest := ⟨_, rfl⟩
    -- the keys of the cell are visited from its first code point on
    have hcell : (List.range (2 ^ keyBits leaf rest)).foldl
        (fun ranges key => visit last base (valueFrom leaf
          (⟨s.pages, 2 ^ s.bits, 2 ^ keyBits leaf rest⟩ :: stepsOf rest (keyBits leaf rest)) block)
          ranges (cell * 2 ^ keyBits leaf rest + key)) ranges =
        (List.range (2 ^ keyBits leaf rest)).foldl
          (visit last first fun key => s.pages[block * 2 ^ s.bits + cell]?.bind fun page =>
            valueFrom leaf (stepsOf rest (keyBits leaf rest)) page key) ranges := by
      apply List.foldl_ext
      intro ranges key hkey
      have hvalue := valueFrom_cons leaf ⟨s.pages, 2 ^ s.bits, 2 ^ keyBits leaf rest⟩
        (stepsOf rest (keyBits leaf rest)) block cell (List.mem_range.mp hkey)
      unfold visit
      rw [hvalue, ← Nat.add_assoc, ← hfirst]
    rw [hcell, ← hfirst]
    by_cases hlast : last < first
    · rw [if_pos hlast]
      exact (List.foldl_fixed' (fun _ => visit_of_lt (by omega) _ ranges) _).symm
    · rw [if_neg hlast]
      cases s.pages[block * 2 ^ s.bits + cell]? with
      | none => exact (List.foldl_fixed' (fun _ => visit_of_none last first rfl ranges) _).symm
      | some page => exact walk_eq_foldl leaf last rest page first ranges

/-- **The ranges of a table, code point by code point.** -/
theorem ranges_eq_foldl (t : Table) :
    t.ranges = ((List.range (2 ^ t.layout.domainBits)).foldl
      (fun ranges code => CodeRange.extend (UInt32.ofNat code) (t.get (UInt32.ofNat code)) ranges)
      []).reverse := by
  have hbits := t.wellFormed.keyBits_eq
  have hdomain : 2 ^ t.layout.domainBits ≤ 2 ^ t.layout.keyBits :=
    Nat.pow_le_pow_right (by omega) t.layout.domain_le_total
  have hwalk := walk_eq_foldl t.leaf (2 ^ t.layout.domainBits - 1) t.stages 0 0 []
  rw [hbits] at hwalk
  unfold ranges
  congr 1
  refine hwalk.trans ?_
  -- keys past the domain change nothing
  obtain ⟨past, hpast⟩ := Nat.exists_eq_add_of_le hdomain
  rw [hpast, List.range_add, List.foldl_append, List.foldl_map]
  have hpos := Nat.two_pow_pos t.layout.domainBits
  have hskip (key : Nat) :
      2 ^ t.layout.domainBits - 1 < 0 + (2 ^ t.layout.domainBits + key) := by omega
  refine (List.foldl_fixed' (fun key => visit_of_lt (hskip key) _ _) _).trans ?_
  apply List.foldl_ext
  intro ranges code hcode
  rw [List.mem_range] at hcode
  have hkey : code < 2 ^ t.layout.keyBits := Nat.lt_of_lt_of_le hcode hdomain
  obtain ⟨v, hv, -⟩ := t.find?_route hkey
  have hvalue : valueFrom t.leaf (stepsOf t.stages t.layout.keyBits) 0 code = some v := by
    rw [← hv]
    unfold valueFrom route Route.find?
    cases follow (stepsOf t.stages t.layout.keyBits) 0 code <;> rfl
  rw [t.get_key hkey, hv, Option.getD_some, visit, if_neg (by omega), hvalue, Nat.zero_add]

end Table

/-! ## Ranges without gaps -/

/-- Ranges, listed last first, of the code points below some number: each has the value of its code
points and ends where the next begins, and neighbours have different values. -/
inductive Tiled (value : UInt32 → UInt32) : Nat → List CodeRange → Prop
  | nil : Tiled value 0 []
  | cons {r : CodeRange} {rest : List CodeRange} : Tiled value r.first.toNat rest →
      r.first ≤ r.last → (∀ code, r.contains code = true → value code = r.value) →
      (∀ before ∈ rest.head?, before.value ≠ r.value) → Tiled value (r.last.toNat + 1) (r :: rest)

namespace Tiled

variable {value : UInt32 → UInt32} {count : Nat} {ranges : List CodeRange}

theorem contains_single {code c v : UInt32} :
    CodeRange.contains ⟨code, code, v⟩ c = true ↔ c = code := by
  rw [CodeRange.contains_iff]
  exact ⟨fun h => UInt32.le_antisymm h.2 h.1, fun h => h ▸ ⟨UInt32.le_refl _, UInt32.le_refl _⟩⟩

/-- **One more code point.** -/
theorem extend {code : UInt32} (h : Tiled value code.toNat ranges) :
    Tiled value (code.toNat + 1) (CodeRange.extend code (value code) ranges) := by
  obtain ⟨n, hn⟩ : ∃ n, n = code.toNat := ⟨_, rfl⟩
  rw [← hn] at h
  cases h with
  | nil =>
    refine .cons (r := ⟨code, code, value code⟩) ?_ (UInt32.le_refl _) (fun c hc => ?_) (by simp)
    · show Tiled value code.toNat []
      rw [← hn]
      exact .nil
    · rw [contains_single.mp hc]
  | @cons r rest hrest hle hval hhead =>
    have hnext : r.last + 1 = code := by
      apply UInt32.toNat_inj.mp
      have hlt := code.toNat_lt
      rw [← hn] at hlt ⊢
      rw [UInt32.toNat_add]
      exact Nat.mod_eq_of_lt hlt
    simp only [CodeRange.extend]
    by_cases hsame : r.value = value code
    · rw [if_pos ⟨hsame, hnext⟩]
      refine .cons (r := { r with last := code }) hrest ?_ (fun c hc => ?_) hhead
      · rw [UInt32.le_iff_toNat_le] at hle ⊢
        show r.first.toNat ≤ code.toNat
        omega
      · by_cases hcode : c = code
        · rw [hcode, ← hsame]
        · apply hval c
          rw [CodeRange.contains_iff_toNat] at hc ⊢
          have hne : c.toNat ≠ code.toNat := fun he => hcode (UInt32.toNat_inj.mp he)
          have hup : c.toNat ≤ code.toNat := hc.2
          exact ⟨hc.1, by omega⟩
    · rw [if_neg fun h => hsame h.1]
      refine .cons (r := ⟨code, code, value code⟩) ?_ (UInt32.le_refl _) (fun c hc => ?_) ?_
      · show Tiled value code.toNat (r :: rest)
        rw [← hn]
        exact .cons hrest hle hval hhead
      · rw [contains_single.mp hc]
      · intro before hb
        obtain rfl : r = before := by simpa using hb
        exact hsame

/-- **All code points below a number, one after the other.** -/
theorem foldl_extend (value : UInt32 → UInt32) : ∀ {count : Nat}, count ≤ 2 ^ 32 →
    Tiled value count ((List.range count).foldl
      (fun ranges code => CodeRange.extend (UInt32.ofNat code) (value (UInt32.ofNat code)) ranges) [])
  | 0, _ => .nil
  | count + 1, h => by
    have hcode : (UInt32.ofNat count).toNat = count :=
      UInt32.toNat_ofNat_of_lt' (by simp only [UInt32.size]; omega)
    have ih := foldl_extend value (show count ≤ 2 ^ 32 by omega)
    rw [← hcode] at ih
    have hstep := ih.extend
    rw [hcode] at hstep
    rw [List.range_succ, List.foldl_append]
    exact hstep

theorem first_le_last (h : Tiled value count ranges) : ∀ r ∈ ranges, r.first ≤ r.last := by
  induction h with
  | nil => simp
  | cons _ hle _ _ ih => exact List.forall_mem_cons.mpr ⟨hle, ih⟩

theorem last_lt (h : Tiled value count ranges) : ∀ r ∈ ranges, r.last.toNat < count := by
  induction h with
  | nil => simp
  | @cons r rest _ hle _ _ ih =>
    have hfirst := UInt32.le_iff_toNat_le.mp hle
    refine List.forall_mem_cons.mpr ⟨Nat.lt_succ_self _, fun before hb => ?_⟩
    have := ih before hb
    omega

theorem separated (h : Tiled value count ranges) :
    ranges.Pairwise fun a b => b.last < a.first := by
  induction h with
  | nil => exact .nil
  | cons hrest _ _ _ ih =>
    exact .cons (fun before hb => UInt32.lt_iff_toNat_lt.mpr (hrest.last_lt before hb)) ih

theorem value_eq (h : Tiled value count ranges) {r : CodeRange} (hr : r ∈ ranges) {code : UInt32}
    (hc : r.contains code = true) : r.value = value code := by
  induction h with
  | nil => cases hr
  | cons _ _ hval _ ih =>
    rcases List.mem_cons.mp hr with rfl | hr
    · exact (hval code hc).symm
    · exact ih hr

theorem exists_contains (h : Tiled value count ranges) {code : UInt32} (hc : code.toNat < count) :
    ∃ r ∈ ranges, r.contains code = true := by
  induction h with
  | nil => omega
  | @cons r rest _ _ _ _ ih =>
    by_cases hfirst : code.toNat < r.first.toNat
    · obtain ⟨before, hb, hin⟩ := ih hfirst
      exact ⟨before, List.mem_cons_of_mem _ hb, hin⟩
    · exact ⟨r, by simp, (r.contains_iff_toNat code).mpr (by omega)⟩

theorem last_head (h : Tiled value count ranges) :
    ∀ r ∈ ranges.head?, r.last.toNat + 1 = count := by
  intro r hr
  cases h with
  | nil => cases hr
  | cons _ _ _ _ =>
    obtain rfl := Option.some.inj hr
    rfl

theorem first_getLast (h : Tiled value count ranges) : ∀ r ∈ ranges.getLast?, r.first = 0 := by
  induction h with
  | nil => simp
  | @cons s rest hrest _ _ _ ih =>
    intro r hr
    cases rest with
    | nil =>
      obtain rfl : s = r := by simpa using hr
      -- nothing comes before the range, so it starts from zero
      have hzero : s.first.toNat = 0 := by
        generalize s.first.toNat = n at hrest
        cases hrest
        rfl
      exact UInt32.toNat_inj.mp hzero
    | cons before others =>
      rw [List.getLast?_cons_cons] at hr
      exact ih r hr

/-- **No gap and no cut without need** between neighbours. -/
theorem isChain (h : Tiled value count ranges) :
    ranges.IsChain fun a b => a.first.toNat = b.last.toNat + 1 ∧ b.value ≠ a.value := by
  induction h with
  | nil => exact .nil
  | cons hrest _ _ hhead ih =>
    refine List.isChain_cons.mpr ⟨fun before hb => ?_, ih⟩
    exact ⟨(hrest.last_head before hb).symm, hhead before hb⟩

end Tiled

namespace Table

theorem ranges_tiled (t : Table) :
    Tiled t.get (2 ^ t.layout.domainBits) t.ranges.reverse := by
  rw [t.ranges_eq_foldl, List.reverse_reverse]
  refine Tiled.foldl_extend t.get ?_
  exact Nat.pow_le_pow_right (by omega) (Nat.le_trans t.layout.domain_le (by decide))

/-- The range map with the ranges of a table. -/
def toMap (t : Table) (default : UInt32) : RangeMap where
  ranges := t.ranges
  default := default
  first_le_last r hr := t.ranges_tiled.first_le_last r (List.mem_reverse.mpr hr)
  separated := List.pairwise_reverse.mp t.ranges_tiled.separated

theorem ofRanges_ranges (t : Table) (default : UInt32) :
    RangeMap.ofRanges t.ranges default = .ok (t.toMap default) :=
  RangeMap.ofRanges_self (t.toMap default)

/-- **Inside the domain the ranges of a table give its values.** -/
theorem get_toMap (t : Table) (default : UInt32) {code : UInt32}
    (h : code.toNat < 2 ^ t.layout.domainBits) : (t.toMap default).get code = t.get code := by
  have htiled := t.ranges_tiled
  unfold RangeMap.get
  cases hf : (t.toMap default).ranges.find? (·.contains code) with
  | none =>
    obtain ⟨r, hr, hin⟩ := htiled.exists_contains h
    exact absurd hin (List.find?_eq_none.mp hf r (List.mem_reverse.mp hr))
  | some r =>
    have hr : r ∈ t.ranges := List.mem_of_find?_eq_some hf
    exact htiled.value_eq (List.mem_reverse.mpr hr) (by simpa using List.find?_some hf)

theorem requireDomain_toMap (t : Table) (default : UInt32) :
    (t.toMap default).requireDomain t.layout.domainBits = .ok () := by
  rw [RangeMap.requireDomain_eq_ok _ t.layout.domainBits_lt_word]
  exact fun r hr => t.ranges_tiled.last_lt r (List.mem_reverse.mpr hr)

theorem requireWidth_toMap (t : Table) {default : UInt32}
    (h : t.layout.width.fits default = true) :
    (t.toMap default).requireWidth t.layout.width = .ok () := by
  rw [RangeMap.requireWidth_eq_ok]
  refine ⟨fun r hr => ?_, h⟩
  have hle := (t.toMap default).first_le_last r hr
  have hfirst : r.contains r.first = true :=
    (r.contains_iff _).mpr ⟨UInt32.le_refl _, hle⟩
  rw [t.ranges_tiled.value_eq (List.mem_reverse.mpr hr) hfirst]
  exact t.fits_get _

end Table

end Multistage
