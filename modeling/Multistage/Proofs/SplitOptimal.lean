import Multistage.Split
import Multistage.Proofs.BuildCorrect
import Mathlib.Data.List.Lex
import Mathlib.Data.Prod.Lex

/-!
# The search finds the best split

The search never builds a table: it adds up the bytes of the levels chosen so far, from the leaves
up, and drops a choice once these levels alone take more than the best split found.

* `Split.rank` — bytes, then number of levels, then the levels, in lexicographic order.
* `Split.Admissible` — the splits that the bounds allow.
* `Improves` — what a part of the search does to the best split so far, given the candidates of
  that part: `consider_improves` for one candidate, `foldl_improves` for a loop,
  `extendUp_improves` for all splits that continue the levels chosen, pruned ones included.
* `bytes_build` — the bytes added up are those of the table that is built.
* `search_optimal` — the outcome is the least admissible split.
-/

namespace Multistage

open Compilation

namespace Split

/-! ## The order of splits -/

/-- Bytes, then number of levels, then the levels. -/
def rank (s : Split) : ℕ ×ₗ ℕ ×ₗ List ℕ :=
  toLex (s.bytes, toLex (s.levels.length, s.levels))

theorem better_iff_rank_lt (a b : Split) : Better a b ↔ a.rank < b.rank := by
  unfold Better rank
  rw [Prod.Lex.toLex_lt_toLex, Prod.Lex.toLex_lt_toLex]

theorem rank_lt_of_bytes_lt {a b : Split} (h : a.bytes < b.bytes) : a.rank < b.rank :=
  (better_iff_rank_lt a b).mp (.inl h)

theorem bytes_le_of_rank_le {a b : Split} (h : a.rank ≤ b.rank) : a.bytes ≤ b.bytes :=
  Nat.not_lt.mp fun hlt => absurd (rank_lt_of_bytes_lt hlt) (not_lt.mpr h)

/-! ## Parts of the search -/

/-- A part of the search that is to try the splits in `candidates`: the best split after it was the
best before it or is one of them, and none of these is better. -/
structure Improves (candidates : Split → Prop) (before after : SearchResult) : Prop where
  origin : after.best = before.best ∨ candidates after.best
  le_before : after.best.rank ≤ before.best.rank
  le_candidate : ∀ c, candidates c → after.best.rank ≤ c.rank

theorem Improves.congr {p q : Split → Prop} {r r' : SearchResult} (h : Improves p r r')
    (hpq : ∀ c, p c ↔ q c) : Improves q r r' :=
  ⟨h.origin.imp id (hpq _).mp, h.le_before, fun c hc => h.le_candidate c ((hpq c).mpr hc)⟩

theorem Improves.refl (r : SearchResult) : Improves (fun _ => False) r r :=
  ⟨.inl rfl, le_refl _, fun _ h => h.elim⟩

theorem Improves.trans {p q : Split → Prop} {r r' r'' : SearchResult} (h : Improves p r r')
    (h' : Improves q r' r'') : Improves (fun c => p c ∨ q c) r r'' := by
  refine ⟨?_, le_trans h'.le_before h.le_before, ?_⟩
  · rcases h'.origin with he | hq
    · rw [he]
      exact h.origin.imp id .inl
    · exact .inr (.inr hq)
  · rintro c (hp | hq)
    · exact le_trans h'.le_before (h.le_candidate c hp)
    · exact h'.le_candidate c hq

/-- Candidates that are all worse than the best can be left out. -/
theorem Improves.prune {p : Split → Prop} {r : SearchResult}
    (h : ∀ c, p c → r.best.bytes < c.bytes) : Improves p r r :=
  ⟨.inl rfl, le_refl _, fun c hc => le_of_lt (rank_lt_of_bytes_lt (h c hc))⟩

/-- **One candidate.** -/
theorem consider_improves (candidate : Split) (r : SearchResult) :
    Improves (· = candidate) r (consider candidate r) := by
  unfold consider
  by_cases hb : Better candidate r.best
  · have hlt := (better_iff_rank_lt _ _).mp hb
    simp only [if_pos hb]
    exact ⟨.inr rfl, le_of_lt hlt, fun c hc => by rw [hc]⟩
  · have hle := not_lt.mp (mt (better_iff_rank_lt _ _).mpr hb)
    simp only [if_neg hb]
    exact ⟨.inl rfl, le_refl _, fun c hc => by rw [hc]; exact hle⟩

/-- **A loop**, from what each turn tries. -/
theorem foldl_improves {f : SearchResult → Nat → SearchResult} {p : Nat → Split → Prop} :
    ∀ (choices : List Nat) (r : SearchResult),
      (∀ r, ∀ n ∈ choices, Improves (p n) r (f r n)) →
      Improves (fun c => ∃ n ∈ choices, p n c) r (choices.foldl f r)
  | [], r, _ => (Improves.refl r).congr fun c => by simp
  | n :: rest, r, h => by
    have hfirst := h r n (by simp)
    have hrest := foldl_improves rest (f r n) fun r m hm => h r m (List.mem_cons_of_mem _ hm)
    refine (hfirst.trans hrest).congr fun c => ?_
    simp only [List.mem_cons, exists_eq_or_imp]

theorem mem_widths {low high n : Nat} : n ∈ widths low high ↔ low ≤ n ∧ n ≤ high := by
  unfold widths
  rw [List.mem_range'_1]
  omega

/-! ## Bytes of the levels chosen -/

/-- Bytes of leaves and of the stages of the given widths above them. -/
def bytesOf (leafBytes : Nat) (refs : Array Nat) (widths : List Nat) : Nat :=
  leafBytes + ((stagesOf widths refs).map Stage.bytes).sum

theorem bytesOf_cons (leafBytes : Nat) (refs : Array Nat) (bits : Nat) (widths : List Nat) :
    bytesOf leafBytes refs (bits :: widths) = bytesOf leafBytes refs widths +
      pageBytes (Pool.share bits (stack widths refs).2).1 := by
  unfold bytesOf
  rw [stagesOf_cons, List.map_cons, List.sum_cons]
  simp only [Stage.bytes]
  omega

theorem bytesOf_le_append (leafBytes : Nat) (refs : Array Nat) (widths : List Nat) :
    ∀ more : List Nat, bytesOf leafBytes refs widths ≤ bytesOf leafBytes refs (more ++ widths)
  | [] => Nat.le_refl _
  | bits :: more => by
    have ih := bytesOf_le_append leafBytes refs widths more
    rw [List.cons_append, bytesOf_cons]
    omega

/-! ## The splits that the search goes through -/

/-- Widths for the levels above those chosen: they take `remaining` bits, and there are at most
`spare` of them besides the top. -/
def Above (bounds : SearchBounds) (spare remaining : Nat) (tops : List Nat) : Prop :=
  ∃ top mids, tops = top :: mids ∧ top + mids.sum = remaining ∧ 1 ≤ top ∧ top ≤ bounds.maxBits ∧
    mids.length ≤ spare ∧ ∀ m ∈ mids, bounds.minBits ≤ m ∧ m ≤ bounds.maxBits

/-- The top takes all that remains, or there is a level between it and those chosen. -/
theorem above_iff {bounds : SearchBounds} {spare remaining : Nat} (hpos : 0 < remaining)
    (tops : List Nat) : Above bounds spare remaining tops ↔
      (tops = [remaining] ∧ remaining ≤ bounds.maxBits) ∨
      ∃ spare' bits tops', spare = spare' + 1 ∧
        bits ∈ widths bounds.minBits (min bounds.maxBits (remaining - 1)) ∧
        Above bounds spare' (remaining - bits) tops' ∧ tops = tops' ++ [bits] := by
  constructor
  · rintro ⟨top, mids, rfl, hsum, htop, hmax, hlen, hmids⟩
    rcases List.eq_nil_or_concat' mids with rfl | ⟨mids, bits, rfl⟩
    · have hrem : top = remaining := by simpa using hsum
      exact .inl ⟨by rw [hrem], by omega⟩
    · rw [List.length_append, List.length_singleton] at hlen
      rw [List.sum_append, List.sum_singleton] at hsum
      have hbits := hmids bits (by simp)
      refine .inr ⟨spare - 1, bits, top :: mids, by omega, mem_widths.mpr (by omega), ?_, rfl⟩
      exact ⟨top, mids, rfl, by omega, htop, hmax, by omega,
        fun m hm => hmids m (List.mem_append_left _ hm)⟩
  · rintro (⟨rfl, hmax⟩ | ⟨spare', bits, tops', rfl, hbits, habove, rfl⟩)
    · exact ⟨remaining, [], rfl, by simp, hpos, hmax, by simp, by simp⟩
    · obtain ⟨top, mids, rfl, hsum, htop, hmax, hlen, hmids⟩ := habove
      rw [mem_widths] at hbits
      refine ⟨top, mids ++ [bits], rfl, ?_, htop, hmax, ?_, ?_⟩
      · rw [List.sum_append, List.sum_singleton]
        omega
      · rw [List.length_append, List.length_singleton]
        omega
      · intro m hm
        rcases List.mem_append.mp hm with hm | hm
        · exact hmids m hm
        · rw [List.mem_singleton.mp hm]
          omega

variable (bounds : SearchBounds) (leafBits leafBytes : Nat) (leafRefs : Array Nat)

/-- The splits that continue the levels `mids` above the leaves, with their bytes. -/
def Continues (spare remaining : Nat) (mids : List Nat) (c : Split) : Prop :=
  ∃ tops, Above bounds spare remaining tops ∧
    c = ⟨tops ++ (mids ++ [leafBits]), bytesOf leafBytes leafRefs (tops ++ mids)⟩

/-- The split with the top right above, and those with one more level chosen. -/
theorem continues_iff {spare remaining : Nat} (hpos : 0 < remaining) (mids : List Nat) (c : Split) :
    Continues bounds leafBits leafBytes leafRefs spare remaining mids c ↔
      (remaining ≤ bounds.maxBits ∧ c = ⟨remaining :: (mids ++ [leafBits]),
        bytesOf leafBytes leafRefs (remaining :: mids)⟩) ∨
      ∃ spare', spare = spare' + 1 ∧
        ∃ bits ∈ widths bounds.minBits (min bounds.maxBits (remaining - 1)),
          Continues bounds leafBits leafBytes leafRefs spare' (remaining - bits) (bits :: mids) c := by
  unfold Continues
  simp only [above_iff hpos]
  constructor
  · rintro ⟨tops, ⟨rfl, hmax⟩ | ⟨spare', bits, tops', hs, hbits, habove, rfl⟩, rfl⟩
    · exact .inl ⟨hmax, rfl⟩
    · refine .inr ⟨spare', hs, bits, hbits, tops', habove, ?_⟩
      simp only [List.append_assoc, List.cons_append, List.nil_append]
  · rintro (⟨hmax, rfl⟩ | ⟨spare', hs, bits, hbits, tops', habove, rfl⟩)
    · exact ⟨[remaining], .inl ⟨rfl, hmax⟩, rfl⟩
    · refine ⟨tops' ++ [bits], .inr ⟨spare', bits, tops', hs, hbits, habove, rfl⟩, ?_⟩
      simp only [List.append_assoc, List.cons_append, List.nil_append]

theorem top_improves {remaining : Nat} {mids : List Nat} (r : SearchResult)
    (hsize : (stack mids leafRefs).2.size = 2 ^ remaining) :
    Improves (fun c => remaining ≤ bounds.maxBits ∧ c = ⟨remaining :: (mids ++ [leafBits]),
        bytesOf leafBytes leafRefs (remaining :: mids)⟩) r
      (if remaining ≤ bounds.maxBits then
        consider ⟨remaining :: (mids ++ [leafBits]),
          bytesOf leafBytes leafRefs mids + pageBytes (stack mids leafRefs).2⟩ r
      else r) := by
  -- the top is a single block, so sharing leaves it alone
  rw [bytesOf_cons, Pool.share_single hsize]
  by_cases hmax : remaining ≤ bounds.maxBits
  · rw [if_pos hmax]
    exact (consider_improves _ r).congr fun c => by simp [hmax]
  · rw [if_neg hmax]
    exact (Improves.refl r).congr fun c => by simp [hmax]

/-- The levels above only add to the bytes, so nothing better is lost when the levels chosen already
take more than the best split. -/
theorem cut_improves {spare remaining : Nat} {mids : List Nat} {r : SearchResult}
    (hcut : r.best.bytes < bytesOf leafBytes leafRefs mids) :
    Improves (Continues bounds leafBits leafBytes leafRefs spare remaining mids) r r := by
  refine Improves.prune ?_
  rintro c ⟨tops, -, rfl⟩
  exact Nat.lt_of_lt_of_le hcut (bytesOf_le_append ..)

/-- **All splits that continue the levels chosen.**  The induction is on the number of levels that
may still come; `refs` and `cost` are what the chosen levels leave and take. -/
theorem extendUp_improves :
    ∀ (spare remaining : Nat) (mids : List Nat) (r : SearchResult), 0 < remaining →
      (stack mids leafRefs).2.size = 2 ^ remaining →
      Improves (Continues bounds leafBits leafBytes leafRefs spare remaining mids) r
        (extendUp bounds spare (stack mids leafRefs).2 remaining (mids ++ [leafBits])
          (bytesOf leafBytes leafRefs mids) r) := by
  intro spare
  induction spare with
  | zero =>
    intro remaining mids r hpos hsize
    rw [extendUp]
    by_cases hcut : r.best.bytes < bytesOf leafBytes leafRefs mids
    · rw [if_pos hcut]
      exact cut_improves bounds leafBits leafBytes leafRefs hcut
    · rw [if_neg hcut]
      refine (top_improves bounds leafBits leafBytes leafRefs r hsize).congr fun c => ?_
      rw [continues_iff bounds leafBits leafBytes leafRefs hpos]
      simp
  | succ spare ih =>
    intro remaining mids r hpos hsize
    rw [extendUp]
    by_cases hcut : r.best.bytes < bytesOf leafBytes leafRefs mids
    · rw [if_pos hcut]
      exact cut_improves bounds leafBits leafBytes leafRefs hcut
    · rw [if_neg hcut]
      have htop := top_improves bounds leafBits leafBytes leafRefs r hsize
      have hstep : ∀ r, ∀ bits ∈ widths bounds.minBits (min bounds.maxBits (remaining - 1)),
          Improves (Continues bounds leafBits leafBytes leafRefs spare (remaining - bits)
            (bits :: mids)) r
            (extendUp bounds spare (Pool.share bits (stack mids leafRefs).2).2 (remaining - bits)
              (bits :: (mids ++ [leafBits])) (bytesOf leafBytes leafRefs mids +
                pageBytes (Pool.share bits (stack mids leafRefs).2).1) r) := by
        intro r bits hbits
        rw [mem_widths] at hbits
        rw [← bytesOf_cons]
        refine ih (remaining - bits) (bits :: mids) r (by omega) ?_
        exact (Pool.size_share_refs ..).trans (by rw [hsize, Nat.pow_div (by omega) (by omega)])
      refine (htop.trans (foldl_improves _ _ hstep)).congr fun c => ?_
      rw [continues_iff bounds leafBits leafBytes leafRefs hpos]
      simp

/-- **All splits with at least two levels**, for any leaves that leave the right number of blocks. -/
theorem extendLeaves_improves (domainBits packedBits : Nat) (leaves : Nat → Nat × Array Nat)
    (r : SearchResult)
    (hsize : ∀ bits, packedBits ≤ bits → bits ≤ domainBits →
      (leaves bits).2.size = 2 ^ (domainBits - bits)) :
    Improves (fun c => ∃ spare, bounds.maxLevels = spare + 2 ∧
        ∃ bits ∈ widths (max bounds.minBits (max packedBits 1)) (min bounds.maxBits (domainBits - 1)),
          Continues bounds bits (leaves bits).1 (leaves bits).2 spare (domainBits - bits) [] c) r
      (extendLeaves bounds domainBits packedBits leaves r) := by
  unfold extendLeaves
  split
  · rename_i hmax
    exact (Improves.refl r).congr fun c => by simp [hmax]
  · rename_i hmax
    exact (Improves.refl r).congr fun c => by simp [hmax]
  · rename_i spare hmax
    have hstep : ∀ r, ∀ bits ∈ widths (max bounds.minBits (max packedBits 1))
        (min bounds.maxBits (domainBits - 1)),
        Improves (Continues bounds bits (leaves bits).1 (leaves bits).2 spare (domainBits - bits) []) r
          (extendUp bounds spare (leaves bits).2 (domainBits - bits) [bits] (leaves bits).1 r) := by
      intro r bits hbits
      rw [mem_widths] at hbits
      exact extendUp_improves bounds bits (leaves bits).1 (leaves bits).2 spare (domainBits - bits) []
        r (by omega) (hsize bits (by omega) (by omega))
    refine (foldl_improves _ r hstep).congr fun c => ?_
    simp [hmax]

/-! ## Leaves -/

/-- Bytes of the leaves of a width, and the number of each block of keys. -/
def leavesOf (layout : Layout) (dense : Array UInt32) : Nat → Nat × Array Nat :=
  if layout.packed then
    packedLeafCost (packedBits layout) (Packing.packAll layout.width.bits dense)
  else leafCost layout.width dense

theorem leafOf_eq_leavesOf {l layout : Layout} (hw : l.width = layout.width)
    (hp : l.packed = layout.packed) (dense : Array UInt32) :
    (leafOf l dense).1.bytes = (leavesOf layout dense l.leafBits).1 ∧
      (leafOf l dense).2 = (leavesOf layout dense l.leafBits).2 := by
  have hbits : packedBits l = packedBits layout := by
    unfold packedBits Layout.cellCapacity
    rw [hw, hp]
  unfold leafOf leavesOf
  rw [hp, hbits, hw]
  cases layout.packed with
  | true => exact ⟨Nat.mul_one _, rfl⟩
  | false => exact ⟨rfl, rfl⟩

theorem size_packAll_dense {layout : Layout} (hp : layout.packed = true) {dense : Array UInt32}
    {k : Nat} (hk : packedBits layout ≤ k) (hsize : dense.size = 2 ^ k) :
    (Packing.packAll layout.width.bits dense).size = 2 ^ (k - packedBits layout) := by
  have hcap := (capacity_eq_two_pow hp).1
  refine Packing.size_packAll_of_mul (by rw [hcap]; exact Nat.two_pow_pos _) ?_
  rw [hcap, ← Nat.pow_add, Nat.sub_add_cancel hk, hsize]

theorem size_leavesOf {layout : Layout} {dense : Array UInt32} {k bits : Nat}
    (hsize : dense.size = 2 ^ k) (hbits : bits ≤ k)
    (hp : layout.packed = true → packedBits layout ≤ bits) :
    (leavesOf layout dense bits).2.size = 2 ^ (k - bits) := by
  unfold leavesOf
  cases hpk : layout.packed with
  | true =>
    have hle := hp hpk
    simp only [if_true, packedLeafCost, Pool.size_share_refs]
    rw [size_packAll_dense hpk (by omega) hsize, Nat.pow_div (by omega) (by omega)]
    congr 1
    omega
  | false =>
    simp only [Bool.false_eq_true, if_false, leafCost, Pool.size_share_refs]
    rw [hsize, Nat.pow_div hbits (by omega)]

theorem leavesOf_single {layout : Layout} {dense : Array UInt32} {k : Nat}
    (hsize : dense.size = 2 ^ k) (hp : layout.packed = true → packedBits layout ≤ k) :
    (leavesOf layout dense k).1 = if layout.packed then
        (Packing.packAll layout.width.bits dense).size
      else dense.size * layout.width.bytes := by
  unfold leavesOf
  cases hpk : layout.packed with
  | true =>
    simp only [if_true, packedLeafCost]
    rw [Pool.share_single (size_packAll_dense hpk (hp hpk) hsize)]
  | false =>
    simp only [Bool.false_eq_true, if_false, leafCost]
    rw [Pool.share_single hsize]

/-! ## The tables of a split -/

theorem bytes_build {layout : Layout} {map : RangeMap} {made : Compilation}
    (h : build layout map = .ok made) :
    made.table.bytes = bytesOf (leafLevel layout map).1.bytes (leafLevel layout map).2
      layout.stageBits := by
  obtain ⟨-, -, -, hstages, hleaf, -⟩ := build_parts h
  unfold Table.bytes bytesOf
  rw [hstages, hleaf, stageLevels]
  omega

theorem cellCapacity_eq_two_pow {layout : Layout} (hp : layout.packed = true) :
    layout.cellCapacity = 2 ^ packedBits layout := by
  rw [← (capacity_eq_two_pow hp).1]
  simp [Layout.cellCapacity, cellCapacity, hp, Packing.capacity]

theorem exists_layout {flat : Layout} {uppers : List Nat} {bits : Nat}
    (hsum : uppers.sum + bits = flat.domainBits) (hpos : ∀ n ∈ uppers ++ [bits], 0 < n)
    (hbyte : flat.packed = true → packedBits flat ≤ bits) :
    ∃ layout, Layout.ofLevels flat.domainBits (uppers ++ [bits]) flat.width flat.packed =
        .ok layout ∧ layout.stageBits = uppers ∧ layout.leafBits = bits ∧
      layout.keyBits = flat.domainBits := by
  have htotal : (uppers ++ [bits]).sum = flat.domainBits := by
    rw [List.sum_append, List.sum_singleton, hsum]
  let layout : Layout := {
    domainBits := flat.domainBits, levels := uppers ++ [bits], width := flat.width
    packed := flat.packed, domain_pos := flat.domain_pos, domain_le := flat.domain_le
    levels_ne_nil := by simp, levels_pos := hpos, domain_le_total := htotal.ge
    total_le := htotal.trans_le flat.domain_le, packable := flat.packable
    byte_le_leaf := fun hp => by
      rw [List.getLast_append_singleton]
      exact (cellCapacity_eq_two_pow hp).trans_le (Nat.pow_le_pow_right (by omega) (hbyte hp)) }
  exact ⟨layout, layout.ofLevels_self, List.dropLast_concat, List.getLast_append_singleton ..,
    htotal⟩

/-- Under the layout of a split the map can be built; its bytes are those that the search adds up. -/
theorem measured {map : RangeMap} {flat : Layout}
    (hd : map.requireDomain flat.domainBits = .ok ()) (hw : map.requireWidth flat.width = .ok ())
    (uppers : List Nat) {bits : Nat} (hsum : uppers.sum + bits = flat.domainBits)
    (hpos : ∀ n ∈ uppers ++ [bits], 0 < n)
    (hbyte : flat.packed = true → packedBits flat ≤ bits) :
    ∃ layout made, Layout.ofLevels flat.domainBits (uppers ++ [bits]) flat.width flat.packed =
        .ok layout ∧
      build layout map = .ok made ∧
      made.table.bytes = bytesOf (leavesOf flat (map.dense flat.domainBits) bits).1
        (leavesOf flat (map.dense flat.domainBits) bits).2 uppers ∧
      made.table.flatBytes = if flat.packed then
          (Packing.packAll flat.width.bits (map.dense flat.domainBits)).size
        else (map.dense flat.domainBits).size * flat.width.bytes := by
  obtain ⟨layout, hlayout, hstages, hleaf, hkey⟩ := exists_layout hsum hpos hbyte
  obtain ⟨hdomain, -, hwidth, hpacked⟩ := Layout.ofLevels_eq_ok hlayout
  obtain ⟨made, hmade⟩ := (build_eq_ok_iff layout map).mpr ⟨hdomain ▸ hd, hwidth ▸ hw⟩
  refine ⟨layout, made, hlayout, hmade, ?_, ?_⟩
  · obtain ⟨hbytes, hrefs⟩ := leafOf_eq_leavesOf hwidth hpacked (map.dense flat.domainBits)
    rw [bytes_build hmade, hstages, leafLevel, hkey, hbytes, hrefs, hleaf]
  · have hcapacity : layout.cellCapacity = flat.cellCapacity := by
      unfold Layout.cellCapacity
      rw [hwidth, hpacked]
    unfold Table.flatBytes
    rw [(build_parts hmade).2.2.1, hkey, hpacked, hcapacity, hwidth]
    cases hp : flat.packed with
    | true =>
      have hle : packedBits flat ≤ flat.domainBits := by
        have := hbyte hp
        omega
      simp only [if_true, cellCapacity_eq_two_pow hp]
      rw [size_packAll_dense hp hle (map.size_dense flat.domainBits_lt_word),
        Nat.pow_div hle (by omega)]
    | false =>
      simp only [Bool.false_eq_true, if_false, map.size_dense flat.domainBits_lt_word]

/-- The splits that the bounds allow: a single level, or several of which the top, those between,
and the leaves are within their bounds. -/
def Admissible (bounds : SearchBounds) (width : Width) (packed : Bool) (domainBits : Nat)
    (levels : List Nat) : Prop :=
  levels = [domainBits] ∨
  ∃ top mids leaf, levels = top :: (mids ++ [leaf]) ∧ levels.length ≤ bounds.maxLevels ∧
    levels.sum = domainBits ∧ (1 ≤ top ∧ top ≤ bounds.maxBits) ∧
    (∀ m ∈ mids, bounds.minBits ≤ m ∧ m ≤ bounds.maxBits) ∧
    max bounds.minBits (Nat.log2 (cellCapacity width packed)) ≤ leaf ∧ leaf ≤ bounds.maxBits

theorem admissible_iff {bounds : SearchBounds} {flat : Layout} (hmin : 0 < bounds.minBits)
    (levels : List Nat) :
    Admissible bounds flat.width flat.packed flat.domainBits levels ↔
      levels = [flat.domainBits] ∨
      ∃ spare, bounds.maxLevels = spare + 2 ∧
        ∃ bits ∈ widths (max bounds.minBits (max (packedBits flat) 1))
            (min bounds.maxBits (flat.domainBits - 1)),
          ∃ tops, Above bounds spare (flat.domainBits - bits) tops ∧ levels = tops ++ [bits] := by
  have hlog : packedBits flat = Nat.log2 (cellCapacity flat.width flat.packed) := rfl
  unfold Admissible
  rw [← hlog]
  refine or_congr_right ⟨?_, ?_⟩
  · rintro ⟨top, mids, leaf, rfl, hlen, hsum, htop, hmids, hleaf, hmax⟩
    simp only [List.length_cons, List.length_append, List.length_nil] at hlen
    simp only [List.sum_cons, List.sum_append, List.sum_nil] at hsum
    refine ⟨bounds.maxLevels - 2, by omega, leaf, mem_widths.mpr (by omega), top :: mids, ?_, rfl⟩
    exact ⟨top, mids, rfl, by omega, htop.1, htop.2, by omega, hmids⟩
  · rintro ⟨spare, hmax, bits, hbits, tops, ⟨top, mids, rfl, hsum, h1, h2, hlen, hmids⟩, rfl⟩
    rw [mem_widths] at hbits
    refine ⟨top, mids, bits, rfl, ?_, ?_, ⟨h1, h2⟩, hmids, by omega, by omega⟩
    · simp only [List.length_cons, List.length_append, List.length_nil]
      omega
    · simp only [List.sum_cons, List.sum_append, List.sum_nil, List.cons_append]
      omega

/-! ## The whole search -/

theorem search_eq_ok {map : RangeMap} {width : Width} {packed : Bool} {domainBits : Nat}
    {bounds : SearchBounds} {report : SearchResult}
    (h : search map width packed domainBits bounds = .ok report) :
    0 < bounds.minBits ∧ ∃ flat, Layout.ofLevels domainBits [domainBits] width packed = .ok flat ∧
      map.requireDomain domainBits = .ok () ∧ map.requireWidth width = .ok () ∧
      report = searchDense flat (map.dense domainBits) bounds := by
  unfold search at h
  split at h
  · cases h
  split at h
  · cases h
  rename_i hmin
  split at h
  · cases h
  rename_i flat hflat
  split at h
  · cases h
  rename_i hd
  split at h
  · cases h
  rename_i hw
  cases h
  exact ⟨by omega, flat, hflat, hd, hw, rfl⟩

/-- The single level, and the splits that are put together from the leaves up, with their bytes. -/
def Tried (bounds : SearchBounds) (flat : Layout) (dense : Array UInt32) (c : Split) : Prop :=
  c = ⟨[flat.domainBits], (leavesOf flat dense flat.domainBits).1⟩ ∨
  ∃ spare, bounds.maxLevels = spare + 2 ∧
    ∃ bits ∈ widths (max bounds.minBits (max (packedBits flat) 1))
        (min bounds.maxBits (flat.domainBits - 1)),
      Continues bounds bits (leavesOf flat dense bits).1 (leavesOf flat dense bits).2 spare
        (flat.domainBits - bits) [] c

theorem searchDense_best (bounds : SearchBounds) {flat : Layout} {dense : Array UInt32}
    (hsize : dense.size = 2 ^ flat.domainBits)
    (hle : flat.packed = true → packedBits flat ≤ flat.domainBits) :
    Tried bounds flat dense (searchDense flat dense bounds).best ∧
      ∀ c, Tried bounds flat dense c → (searchDense flat dense bounds).best.rank ≤ c.rank := by
  have himp := extendLeaves_improves bounds flat.domainBits (packedBits flat) (leavesOf flat dense)
    ⟨⟨[flat.domainBits], (leavesOf flat dense flat.domainBits).1⟩, 1⟩
    fun bits hlow hhigh => size_leavesOf hsize hhigh fun _ => hlow
  have heq : searchDense flat dense bounds =
      extendLeaves bounds flat.domainBits (packedBits flat) (leavesOf flat dense)
        ⟨⟨[flat.domainBits], (leavesOf flat dense flat.domainBits).1⟩, 1⟩ := by
    rw [leavesOf_single hsize hle]
    unfold searchDense leavesOf
    cases flat.packed <;> rfl
  rw [heq]
  refine ⟨himp.origin, ?_⟩
  rintro c (rfl | hc)
  · exact himp.le_before
  · exact himp.le_candidate c hc

theorem tried_measured {bounds : SearchBounds} {map : RangeMap} {flat : Layout}
    (hmin : 0 < bounds.minBits) (hle : flat.packed = true → packedBits flat ≤ flat.domainBits)
    (hd : map.requireDomain flat.domainBits = .ok ()) (hw : map.requireWidth flat.width = .ok ())
    {c : Split} (hc : Tried bounds flat (map.dense flat.domainBits) c) :
    Admissible bounds flat.width flat.packed flat.domainBits c.levels ∧
    ∃ layout made, Layout.ofLevels flat.domainBits c.levels flat.width flat.packed = .ok layout ∧
      build layout map = .ok made ∧ made.table.bytes = c.bytes ∧
      made.table.flatBytes = (leavesOf flat (map.dense flat.domainBits) flat.domainBits).1 := by
  have hsingle := leavesOf_single (map.size_dense flat.domainBits_lt_word) hle
  rcases hc with rfl | ⟨spare, hmax, bits, hbits, tops, habove, rfl⟩
  · obtain ⟨layout, made, hl, hb, hbytes, hflat⟩ := measured hd hw [] (Nat.zero_add _)
      (by simpa using flat.domain_pos) hle
    exact ⟨.inl rfl, layout, made, hl, hb, hbytes, hflat.trans hsingle.symm⟩
  · have hadm : Admissible bounds flat.width flat.packed flat.domainBits (tops ++ [bits]) :=
      (admissible_iff hmin _).mpr (.inr ⟨spare, hmax, bits, hbits, tops, habove, rfl⟩)
    obtain ⟨top, mids, rfl, hsum, htop, -, -, hmids⟩ := habove
    rw [mem_widths] at hbits
    have hpos : ∀ n ∈ top :: mids ++ [bits], 0 < n := by
      intro n hn
      simp only [List.cons_append, List.mem_cons, List.mem_append, List.not_mem_nil, or_false] at hn
      rcases hn with rfl | hn | rfl
      · exact htop
      · have := hmids n hn
        omega
      · omega
    obtain ⟨layout, made, hl, hb, hbytes, hflat⟩ := measured hd hw (top :: mids)
      (by rw [List.sum_cons]; omega) hpos (fun _ => by omega)
    refine ⟨hadm, layout, made, hl, hb, ?_, hflat.trans hsingle.symm⟩
    rw [hbytes, List.append_nil]

/-- **The search finds the best split**: the outcome is admissible, has the bytes of the table that
is built with it, which is no larger than a single level, and every admissible split can be built
and is not better: it has more bytes, or as many and more levels, or as many of both and comes later
in lexicographic order. -/
theorem search_optimal {map : RangeMap} {width : Width} {packed : Bool} {domainBits : Nat}
    {bounds : SearchBounds} {report : SearchResult}
    (h : search map width packed domainBits bounds = .ok report) :
    Admissible bounds width packed domainBits report.best.levels ∧
    (∃ layout made, Layout.ofLevels domainBits report.best.levels width packed = .ok layout ∧
      build layout map = .ok made ∧ made.table.bytes = report.best.bytes ∧
      report.best.bytes ≤ made.table.flatBytes) ∧
    ∀ levels, Admissible bounds width packed domainBits levels →
      ∃ layout made, Layout.ofLevels domainBits levels width packed = .ok layout ∧
        build layout map = .ok made ∧
        report.best.rank ≤ toLex (made.table.bytes, toLex (levels.length, levels)) := by
  obtain ⟨hmin, flat, hflat, hd, hw, rfl⟩ := search_eq_ok h
  obtain ⟨rfl, hlevels, rfl, rfl⟩ := Layout.ofLevels_eq_ok hflat
  have hle : flat.packed = true → packedBits flat ≤ flat.domainBits := by
    intro hp
    have hleaf : flat.leafBits = flat.domainBits := by
      unfold Layout.leafBits
      simp only [hlevels, List.getLast_singleton]
    exact hleaf ▸ (capacity_eq_two_pow hp).2
  obtain ⟨htried, hleast⟩ := searchDense_best bounds (map.size_dense flat.domainBits_lt_word) hle
  obtain ⟨hadm, layout, made, hl, hb, hbytes, hflatBytes⟩ := tried_measured hmin hle hd hw htried
  refine ⟨hadm, ⟨layout, made, hl, hb, hbytes, ?_⟩, ?_⟩
  · rw [hflatBytes]
    exact bytes_le_of_rank_le (hleast _ (.inl rfl))
  · intro levels hadm'
    -- the bytes of a split are determined by its levels
    obtain ⟨c, rfl, hc⟩ : ∃ c : Split, c.levels = levels ∧
        Tried bounds flat (map.dense flat.domainBits) c := by
      rcases (admissible_iff hmin levels).mp hadm' with rfl | ⟨spare, hmax, bits, hbits, tops, ha, rfl⟩
      · exact ⟨_, rfl, .inl rfl⟩
      · exact ⟨⟨_, _⟩, rfl, .inr ⟨spare, hmax, bits, hbits, tops, ha, rfl⟩⟩
    obtain ⟨-, layout', made', hl', hb', hbytes', -⟩ := tried_measured hmin hle hd hw hc
    refine ⟨layout', made', hl', hb', ?_⟩
    rw [hbytes']
    exact hleast c hc

/-- Six bits in at most three levels, with four-bit values packed in pairs. -/
theorem search_optimal_packed :
    ∃ map report, RangeMap.ofRanges [⟨5, 5, 1⟩, ⟨17, 40, 2⟩, ⟨63, 63, 3⟩] 9 = .ok map ∧
      search map .four true 6 ⟨3, 1, 4⟩ = .ok report ∧
      Admissible ⟨3, 1, 4⟩ .four true 6 report.best.levels ∧
      ∃ layout made, Layout.ofLevels 6 [2, 2, 2] .four true = .ok layout ∧
        build layout map = .ok made ∧
        report.best.rank ≤ toLex (made.table.bytes, toLex (3, [2, 2, 2])) := by
  let map : RangeMap := ⟨[⟨5, 5, 1⟩, ⟨17, 40, 2⟩, ⟨63, 63, 3⟩], 9, by decide, by decide⟩
  obtain ⟨report, h⟩ : ∃ report, search map .four true 6 ⟨3, 1, 4⟩ = .ok report := ⟨_, rfl⟩
  have hlevels : Admissible ⟨3, 1, 4⟩ .four true 6 [2, 2, 2] :=
    .inr ⟨2, [2], 2, rfl, by decide, rfl, by decide, by decide, by decide, by decide⟩
  obtain ⟨hadm, -, hleast⟩ := search_optimal h
  exact ⟨map, report, rfl, h, hadm, hleast [2, 2, 2] hlevels⟩

end Split

end Multistage
