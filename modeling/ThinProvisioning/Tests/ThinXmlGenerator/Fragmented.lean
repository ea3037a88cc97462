import ThinProvisioning.Tests.ThinXmlGenerator.Generators

/-!
# The generator of fragmented pools

`FragmentedS` writes `nr_thins` devices of `thin_size` blocks each
(`tests/common/thin_xml_generator.rs`). Each device is cut into runs of 1 to 16 blocks
(`mk_runs`); the runs of all the devices are shuffled and laid one after another across the data
device; the runs at odd indexes are dropped, leaving free runs between the others; and what is
left is sorted by device and position. `count_mapped_blocks` then goes once through the sorted
mappings and records, for each device, the blocks its mappings hold and the range of their
indexes, and the writing loop slices each device's mappings out of the sorted list by that range.

On mappings sorted by device, the entry `count_mapped_blocks` records for a device, read with the
default `generate_xml` gives it, holds the blocks of exactly that device's mappings and a range
that slices out exactly them (`countMappedBlocks_getD`). So, for every random source,
`generate_xml` never panics: the slice is in bounds and the `assert!` that each mapping of it
belongs to the device holds. It makes exactly the callbacks `fragmentedEvents` of the mappings it
keeps, a whole run of the automaton of the format (`FragmentedS.generateXml_eq`). Those mappings
are well formed: each is non-empty and lies within its device, and the mappings of a device are
at increasing positions that do not overlap (`FragmentedS.dropped_valid`); and when the size of
the pool does not wrap, no data block is mapped twice and every one is in the pool
(`FragmentedS.new_dropped_dataBlocks`).

## Main definitions

* `ThinRun`, `MappedRun`, `mkRuns`, `mapRuns`, `dropOdd`, `runOrder`: the layout of the devices.
* `IndexRange`, `slice`, `Stats`, `countMappedBlocks`: `count_mapped_blocks` and its use.
* `FragmentedS`, `FragmentedS.generateXml`, and `FragmentedS.dropped`, the mappings it keeps.
* `fragmentedEvents`: the callbacks it makes.

## Main results

* `countMappedBlocks_getD`: the entry of each device, from the invariant `CountInv` of the loop.
* `FragmentedS.generateXml_eq`, `FragmentedS.dropped_valid`,
  `FragmentedS.new_dropped_dataBlocks`.

## References

* `src/tests/common/thin_xml_generator.rs`, lines 107–262.
-/

namespace ThinProvisioning.Tests

open Thin

/-! ### The layout -/

/-- `FragmentedS`: `nr_thins` devices of `thin_size` blocks each. -/
structure FragmentedS where
  nrThins : UInt32
  thinSize : UInt64
  oldNrDataBlocks : UInt64
  newNrDataBlocks : UInt64

/-- `FragmentedS::new`: a pool that holds every device fully mapped, to be shrunk to three
quarters of it. -/
def FragmentedS.new (nrThins : UInt32) (thinSize : UInt64) : FragmentedS :=
  let oldSize := nrThins.toUInt64 * thinSize
  ⟨nrThins, thinSize, nrThins.toUInt64 * thinSize, oldSize * 3 / 4⟩

/-- `ThinRun`: a run of a device, not yet placed on the data device. -/
structure ThinRun where
  thinId : UInt32
  thinBegin : UInt64
  len : UInt64
deriving DecidableEq, Repr

/-- `MappedRun`: a run of a device and where it lies on the data device. -/
structure MappedRun where
  thinId : UInt32
  thinBegin : UInt64
  dataBegin : UInt64
  len : UInt64
deriving DecidableEq, Repr

/-- The blocks of the device a run stands for. -/
def ThinRun.blocks (r : ThinRun) : List Nat := List.range' r.thinBegin.toNat r.len.toNat

/-- The blocks of the device a mapping stands for. -/
def MappedRun.thinBlocks (m : MappedRun) : List Nat := List.range' m.thinBegin.toNat m.len.toNat

/-- The data blocks a mapping stands for. -/
def MappedRun.dataBlocks (m : MappedRun) : List Nat := List.range' m.dataBegin.toNat m.len.toNat

/-- The range `0..n` of `u32`, in order. -/
def idsBelow (n : UInt32) : List UInt32 := (List.range n.toNat).map UInt32.ofNat

/-- The loop that lays the runs across the data device from `b`, each where the one before
ends. -/
def mapRuns : UInt64 → List ThinRun → List MappedRun
  | _, [] => []
  | b, r :: runs => ⟨r.thinId, r.thinBegin, b, r.len⟩ :: mapRuns (b + r.len) runs

/-- The loop that keeps the mappings at even indexes and drops the others. -/
def dropOdd (maps : List MappedRun) : List MappedRun :=
  (maps.enum.filter fun p => p.1 % 2 == 0).map Prod.snd

/-- The comparison of the `sort_by`: by device, then by position in the device. -/
def runOrder (l r : MappedRun) : Ordering :=
  match compare l.thinId r.thinId with
  | .eq => compare l.thinBegin r.thinBegin
  | o => o

section Layout

variable {ρ : Type} (rng : Rng ρ)

/-- `mk_runs`: the device `thin_id` cut into runs from its start, each of a length drawn from
`run_len` and cut short at `total_len`. -/
def mkRuns (thinId : UInt32) (totalLen : UInt64) (runLen : Range)
    (hrun : 1 ≤ runLen.start ∧ runLen.start < runLen.end) (g : ρ) : List ThinRun × ρ :=
  let c := cuts rng (fun g => ((), g)) runLen hrun totalLen 0 g
  (c.1.map fun p => ⟨thinId, p.1, p.2.1⟩, c.2)

/-- The first loop of `FragmentedS::generate_xml`: the runs of each device in turn. -/
def mkAllRuns (thinSize : UInt64) : List UInt32 → ρ → List ThinRun × ρ
  | [], g => ([], g)
  | thin :: thins, g =>
    let r := mkRuns rng thin thinSize ⟨1, 17⟩ (by decide) g
    let rest := mkAllRuns thinSize thins r.2
    (r.1 ++ rest.1, rest.2)

/-- The mappings `FragmentedS::generate_xml` keeps, in the order it sorts them, and the random
source after its draws. -/
def FragmentedS.dropped (self : FragmentedS) (g : ρ) : List MappedRun × ρ :=
  let runs := mkAllRuns rng self.thinSize (idsBelow self.nrThins) g
  let shuffled := rng.shuffle runs.2 runs.1
  ((dropOdd (mapRuns 0 shuffled.1)).mergeSort fun l r => runOrder l r != .gt, shuffled.2)

end Layout

/-! ### `count_mapped_blocks` -/

/-- `Range<usize>`: the indexes from `start` up to `end`, `end` excluded. -/
structure IndexRange where
  start : Nat
  «end» : Nat
deriving DecidableEq, Repr

/-- `&l[r.start..r.end]`: the elements at the indexes of `r`; it panics, `none`, unless
`start ≤ end ≤ l.len()`. -/
def slice {α : Type} (l : List α) (r : IndexRange) : Option (List α) :=
  if r.start ≤ r.end ∧ r.end ≤ l.length then some ((l.drop r.start).take (r.end - r.start))
  else none

/-- A `BTreeMap<u32, (u64, Range<usize>)>`, as the entry it holds for each key. -/
abbrev Stats := UInt32 → Option (UInt64 × IndexRange)

/-- `BTreeMap::insert`: the entry for `k` becomes `v`. -/
def Stats.insert (m : Stats) (k : UInt32) (v : UInt64 × IndexRange) : Stats :=
  fun k' => if k' = k then some v else m k'

/-- The state of the loop of `count_mapped_blocks`: the results so far, and the device, the
length and the range of indexes of the current group. -/
structure CountState where
  results : Stats
  id : UInt32
  len : UInt64
  range : IndexRange

/-- One turn of the loop of `count_mapped_blocks`: a mapping of another device closes the
current group into the results and opens its own; one of the same device extends it. -/
def countStep (st : CountState) (m : MappedRun) : CountState :=
  if m.thinId ≠ st.id then
    ⟨Stats.insert st.results st.id (st.len, st.range), m.thinId, m.len,
      ⟨st.range.end, st.range.end + 1⟩⟩
  else ⟨st.results, st.id, st.len + m.len, ⟨st.range.start, st.range.end + 1⟩⟩

/-- `count_mapped_blocks`, whose `Result` is never an error: for each device, the blocks its
mappings hold and the range of their indexes. -/
def countMappedBlocks : List MappedRun → Stats
  | [] => fun _ => none
  | r :: runs =>
    let st := runs.foldl countStep ⟨fun _ => none, r.thinId, r.len, ⟨0, 1⟩⟩
    Stats.insert st.results st.id (st.len, st.range)

/-- The blocks a list of mappings holds, added as `u64`s. -/
def lenSum : List MappedRun → UInt64
  | [] => 0
  | m :: ms => m.len + lenSum ms

@[simp] theorem lenSum_nil : lenSum [] = 0 := rfl

@[simp] theorem lenSum_append (l₁ l₂ : List MappedRun) :
    lenSum (l₁ ++ l₂) = lenSum l₁ + lenSum l₂ := by
  induction l₁ with
  | nil => exact (zero_add _).symm
  | cons m l₁ ih => rw [List.cons_append, lenSum, lenSum, ih, add_assoc]

@[simp] theorem lenSum_singleton (m : MappedRun) : lenSum [m] = m.len := add_zero _

/-- A slice in bounds stays the same when the list grows. -/
theorem slice_append {α : Type} {l : List α} {r : IndexRange} {x : List α}
    (h : slice l r = some x) (l' : List α) : slice (l ++ l') r = some x := by
  unfold slice at h ⊢
  split_ifs at h with hr
  rw [if_pos ⟨hr.1, by rw [List.length_append]; omega⟩, List.drop_append_of_le_length (by omega),
    List.take_append_of_le_length (by rw [List.length_drop]; omega)]
  exact h

/-- The entry of device `k`, read as `generate_xml` reads it: the blocks of the mappings of `k`,
and a range that slices out exactly them. -/
def StatOk (runs : List MappedRun) (k : UInt32) (v : UInt64 × IndexRange) : Prop :=
  v.1 = lenSum (runs.filter fun m => m.thinId = k) ∧
    slice runs v.2 = some (runs.filter fun m => m.thinId = k)

theorem StatOk.append {runs : List MappedRun} {k : UInt32} {v : UInt64 × IndexRange}
    (h : StatOk runs k v) {m : MappedRun} (hm : m.thinId ≠ k) : StatOk (runs ++ [m]) k v := by
  have hf : (runs ++ [m]).filter (fun m => m.thinId = k) = runs.filter fun m => m.thinId = k := by
    simp [List.filter_append, hm]
  rw [StatOk, hf]
  exact ⟨h.1, slice_append h.2 _⟩

/-- The invariant of the loop of `count_mapped_blocks` after the mappings `pre`: the current
device is the greatest so far and one of them; its mappings are the last ones, from
`range.start` to `range.end`, and hold `len` blocks; every other device has its entry. -/
structure CountInv (pre : List MappedRun) (st : CountState) : Prop where
  mem_id : ∃ m ∈ pre, m.thinId = st.id
  le_id : ∀ m ∈ pre, m.thinId.toNat ≤ st.id.toNat
  end_eq : st.range.end = pre.length
  drop_start : pre.drop st.range.start = pre.filter fun m => m.thinId = st.id
  len_eq : st.len = lenSum (pre.filter fun m => m.thinId = st.id)
  results : ∀ k ≠ st.id, StatOk pre k ((st.results k).getD (0, ⟨0, 0⟩))

namespace CountInv

variable {pre : List MappedRun} {st : CountState}

theorem start_lt (h : CountInv pre st) : st.range.start < pre.length := by
  obtain ⟨m, hm, hid⟩ := h.mem_id
  by_contra hge
  have hnil : pre.filter (fun m => m.thinId = st.id) = [] := by
    rw [← h.drop_start]
    exact List.drop_eq_nil_iff.2 (by omega)
  exact List.filter_eq_nil_iff.1 hnil m hm (by simpa using hid)

/-- The current group, closed, is the entry of its device. -/
theorem statOk_current (h : CountInv pre st) : StatOk pre st.id (st.len, st.range) := by
  have hlt := h.start_lt
  refine ⟨h.len_eq, ?_⟩
  show slice pre st.range = _
  rw [slice, if_pos ⟨by rw [h.end_eq]; omega, h.end_eq.le⟩,
    List.take_of_length_le (by rw [List.length_drop, h.end_eq]), h.drop_start]

theorem init (r : MappedRun) : CountInv [r] ⟨fun _ => none, r.thinId, r.len, ⟨0, 1⟩⟩ where
  mem_id := ⟨r, List.mem_singleton_self r, rfl⟩
  le_id m hm := by rw [List.mem_singleton.1 hm]
  end_eq := rfl
  drop_start := by simp
  len_eq := by simp
  results k hk := by simp [StatOk, slice, Ne.symm hk]

/-- One turn of the loop keeps the invariant, for a mapping of a device not below any before it. -/
theorem step (h : CountInv pre st) {m : MappedRun}
    (hm : ∀ x ∈ pre, x.thinId.toNat ≤ m.thinId.toNat) :
    CountInv (pre ++ [m]) (countStep st m) := by
  have hstart := h.start_lt
  by_cases hid : m.thinId = st.id
  · rw [countStep, if_neg (not_not.2 hid)]
    exact {
      mem_id := let ⟨x, hx, hxid⟩ := h.mem_id; ⟨x, List.mem_append_left _ hx, hxid⟩
      le_id := List.forall_mem_append.2 ⟨h.le_id, List.forall_mem_singleton.2 (by rw [hid])⟩
      end_eq := by rw [List.length_append, List.length_singleton, ← h.end_eq]
      drop_start := by
        show (pre ++ [m]).drop st.range.start = _
        rw [List.drop_append_of_le_length (by omega), h.drop_start, List.filter_append]
        simp [hid]
      len_eq := by simp [List.filter_append, hid, h.len_eq]
      results := fun k hk => (h.results k hk).append (hid ▸ Ne.symm hk) }
  · -- the devices before are below the current one, which is below `m`'s
    have hnew : ∀ x ∈ pre, x.thinId ≠ m.thinId := fun x hx hx' => by
      obtain ⟨y, hy, hyid⟩ := h.mem_id
      have h₁ := h.le_id x hx
      have h₂ := hm y hy
      rw [hyid] at h₂
      rw [hx'] at h₁
      exact hid (UInt32.eq_iff_toNat_eq.2 (by omega))
    rw [countStep, if_pos hid]
    have hfilter : (pre ++ [m]).filter (fun x => x.thinId = m.thinId) = [m] := by
      rw [List.filter_append, List.filter_eq_nil_iff.2 fun x hx => by simpa using hnew x hx]
      simp
    exact {
      mem_id := ⟨m, List.mem_append_right _ (List.mem_singleton_self m), rfl⟩
      le_id := List.forall_mem_append.2 ⟨hm, List.forall_mem_singleton.2 (Nat.le_refl _)⟩
      end_eq := by rw [List.length_append, List.length_singleton, ← h.end_eq]
      drop_start := by
        show (pre ++ [m]).drop st.range.end = _
        rw [hfilter, h.end_eq, List.drop_left]
      len_eq := by rw [hfilter, lenSum_singleton]
      results := fun k hk => by
        by_cases hk' : k = st.id
        · subst hk'
          simpa [Stats.insert] using h.statOk_current.append hid
        · simpa [Stats.insert, hk'] using (h.results k hk').append (Ne.symm hk) }

/-- The loop keeps the invariant over mappings sorted by device. -/
theorem foldl (h : CountInv pre st) (rest : List MappedRun)
    (hs : (pre ++ rest).Pairwise fun a b => a.thinId.toNat ≤ b.thinId.toNat) :
    CountInv (pre ++ rest) (rest.foldl countStep st) := by
  induction rest generalizing pre st with
  | nil => simpa using h
  | cons m rest ih =>
    rw [List.foldl_cons, List.append_cons] at *
    exact ih (h.step fun x hx => List.pairwise_append.1 hs |>.1 |> List.pairwise_append.1 |>.2.2 x hx m
      (List.mem_singleton_self m)) hs

/-- After the loop, the last group closed, every device has its entry. -/
theorem statOk_insert (h : CountInv pre st) (k : UInt32) :
    StatOk pre k ((Stats.insert st.results st.id (st.len, st.range) k).getD (0, ⟨0, 0⟩)) := by
  by_cases hk : k = st.id
  · subst hk
    simpa [Stats.insert] using h.statOk_current
  · simpa [Stats.insert, hk] using h.results k hk

end CountInv

/-- On mappings sorted by device, the entry `count_mapped_blocks` records for a device, read
with the default `generate_xml` gives it, holds the blocks of exactly its mappings and slices
out exactly them. -/
theorem countMappedBlocks_getD (runs : List MappedRun)
    (hs : runs.Pairwise fun a b => a.thinId.toNat ≤ b.thinId.toNat) (k : UInt32) :
    StatOk runs k ((countMappedBlocks runs k).getD (0, ⟨0, 0⟩)) := by
  cases runs with
  | nil => simp [countMappedBlocks, StatOk, slice]
  | cons r runs => exact ((CountInv.init r).foldl runs hs).statOk_insert k

/-! ### The callbacks -/

/-- The callbacks that write device `thin` from the mappings `dropped`: its header, counting the
blocks of its mappings, then a `map` for each. -/
def fragmentedDevice (dropped : List MappedRun) (thin : UInt32) : List Ir.Event :=
  let ms := dropped.filter fun m => m.thinId = thin
  .deviceB ⟨thin, lenSum ms, 0, 0, 0⟩ ::
    ms.map (fun m => .map ⟨m.thinBegin, m.dataBegin, 0, m.len⟩) ++ [.deviceE]

/-- The callbacks of `FragmentedS::generate_xml`, from the mappings it keeps. -/
def fragmentedEvents (nrBlocks : UInt64) (thins : List UInt32) (dropped : List MappedRun) :
    List Ir.Event :=
  .superblockB (commonSb nrBlocks 0) :: thins.flatMap (fragmentedDevice dropped) ++ [.superblockE]

theorem run_fragmentedEvents (nrBlocks : UInt64) (thins : List UInt32)
    (dropped : List MappedRun) :
    Phase.start.run (fragmentedEvents nrBlocks thins dropped) = some .closed :=
  Phase.run_pool _ (Phase.run_flatMap fun _ _ => Phase.run_device _ fun _ => isBody_of_mem_map)

/-! ### Writing the devices -/

theorem runOrder_ne_gt {l r : MappedRun} : (runOrder l r != .gt) = true ↔
    l.thinId.toNat < r.thinId.toNat ∨
      l.thinId = r.thinId ∧ l.thinBegin.toNat ≤ r.thinBegin.toNat := by
  have hlt : (Ordering.lt != .gt) = true := rfl
  have heq : (Ordering.eq != .gt) = true := rfl
  have hgt : (Ordering.gt != .gt) = false := rfl
  rw [runOrder, UInt32.compare_eq_ite, UInt64.compare_eq_ite]
  simp only [UInt32.lt_iff_toNat_lt, UInt64.lt_iff_toNat_lt, UInt32.eq_iff_toNat_eq,
    UInt64.eq_iff_toNat_eq]
  split_ifs <;> dsimp only <;>
    simp only [hlt, heq, hgt, true_iff, Bool.false_eq_true, false_iff] <;> omega

/-- The `sort_by` leaves the mappings sorted by device, then by position in the device. -/
theorem sorted_runOrder (l : List MappedRun) :
    (l.mergeSort fun l r => runOrder l r != .gt).Pairwise fun a b =>
      a.thinId.toNat < b.thinId.toNat ∨
        a.thinId = b.thinId ∧ a.thinBegin.toNat ≤ b.thinBegin.toNat :=
  (List.sorted_mergeSort
    (fun a b c hab hbc => by
      simp only [runOrder_ne_gt, UInt32.eq_iff_toNat_eq] at hab hbc ⊢
      omega)
    (fun a b => by
      simp only [Bool.or_eq_true, runOrder_ne_gt, UInt32.eq_iff_toNat_eq]
      omega) l).imp runOrder_ne_gt.1

section Generate

variable {ε σ ρ : Type} (rng : Rng ρ) (out : Ir.Event → EStateM ε σ Ir.Visit)

/-- The loop over the mappings of device `thin`: each is checked by `assert!(m.thin_id == thin)`,
then written. -/
def emitMaps (thin : UInt32) : List MappedRun → GenM ε σ ρ Unit
  | [] => pure ()
  | m :: ms => do
    if m.thinId ≠ thin then throw (.gen .assertion)
    visit out (.map ⟨m.thinBegin, m.dataBegin, 0, m.len⟩)
    emitMaps thin ms

/-- The loop of `FragmentedS::generate_xml` over the devices: the entry of each, read with its
default, its header, then its mappings, sliced out of `dropped` by the range of the entry. -/
def deviceLoop (stats : Stats) (dropped : List MappedRun) : List UInt32 → GenM ε σ ρ Unit
  | [] => pure ()
  | thin :: thins => do
    let (mappedBlocks, range) := (stats thin).getD (0, ⟨0, 0⟩)
    visit out (.deviceB ⟨thin, mappedBlocks, 0, 0, 0⟩)
    match slice dropped range with
    | some ms => emitMaps out thin ms
    | none => throw (.gen .sliceIndex)
    visit out .deviceE
    deviceLoop stats dropped thins

/-- `FragmentedS::generate_xml`. -/
def FragmentedS.generateXml (self : FragmentedS) : GenM ε σ ρ Unit := do
  let runs ← draw (mkAllRuns rng self.thinSize (idsBelow self.nrThins))
  let runs ← draw fun g => rng.shuffle g runs
  let maps := mapRuns 0 runs
  let dropped := (dropOdd maps).mergeSort fun l r => runOrder l r != .gt
  let stats := countMappedBlocks dropped
  visit out (.superblockB (commonSb self.oldNrDataBlocks 0))
  deviceLoop out stats dropped (idsBelow self.nrThins)
  visit out .superblockE

/-- Mappings of the device pass the `assert!` and are written in turn. -/
theorem emitMaps_eq (thin : UInt32) (ms : List MappedRun) (h : ∀ m ∈ ms, m.thinId = thin) :
    (emitMaps out thin ms : GenM ε σ ρ Unit) =
      (ms.map fun m => Ir.Event.map ⟨m.thinBegin, m.dataBegin, 0, m.len⟩).forM (visit out) := by
  induction ms with
  | nil => rfl
  | cons m ms ih =>
    simp only [List.mem_cons, forall_eq_or_imp] at h
    simp only [emitMaps, h.1, ne_eq, not_true_eq_false, if_false, ih h.2, List.map_cons,
      List.forM_cons', pure_bind]

/-- When the entry of each device slices out its mappings, the loop over the devices writes each
with its header, and never panics. -/
theorem deviceLoop_eq (stats : Stats) (dropped : List MappedRun) {thins : List UInt32}
    (h : ∀ thin ∈ thins, StatOk dropped thin ((stats thin).getD (0, ⟨0, 0⟩))) :
    (deviceLoop out stats dropped thins : GenM ε σ ρ Unit) =
      (thins.flatMap (fragmentedDevice dropped)).forM (visit out) := by
  induction thins with
  | nil => rfl
  | cons thin thins ih =>
    simp only [List.mem_cons, forall_eq_or_imp] at h
    obtain ⟨hstat, hrest⟩ := h
    rcases hv : (stats thin).getD (0, ⟨0, 0⟩) with ⟨mb, r⟩
    rw [hv] at hstat
    obtain ⟨rfl, hslice⟩ := hstat
    have hmaps : (emitMaps out thin _ : GenM ε σ ρ Unit) = _ :=
      emitMaps_eq out thin (dropped.filter fun m => m.thinId = thin) fun m hm =>
        (by simpa using hm : _ ∧ _).2
    simp only [deviceLoop, hv, hslice, hmaps, ih hrest, fragmentedDevice, List.flatMap_cons,
      List.cons_append, List.forM_cons', List.forM_append, List.forM_nil', bind_pure_unit,
      bind_assoc]

/-- For every random source and every visitor, `FragmentedS::generate_xml` never panics: the
visitor receives the callbacks `fragmentedEvents` of the mappings it keeps, in turn, and only
those, up to the first one it fails, whose error the generator returns. These callbacks are a
whole run of the automaton of the format, each device's header counting the blocks of its own
mappings. -/
theorem FragmentedS.generateXml_eq (self : FragmentedS) (s : σ) (g : ρ) :
    self.generateXml rng out (s, g) =
      (match deliver out (fragmentedEvents self.oldNrDataBlocks (idsBelow self.nrThins)
          (self.dropped rng g).1) s with
        | .ok _ s' => .ok () (s', (self.dropped rng g).2)
        | .error e s' => .error (.visitor e) (s', (self.dropped rng g).2)) ∧
    Phase.start.run (fragmentedEvents self.oldNrDataBlocks (idsBelow self.nrThins)
        (self.dropped rng g).1) = some .closed := by
  refine ⟨Eq.trans ?_ (forM_visit_apply out _ s _), run_fragmentedEvents _ _ _⟩
  have hstats : ∀ thin ∈ idsBelow self.nrThins, StatOk (self.dropped rng g).1 thin
      ((countMappedBlocks (self.dropped rng g).1 thin).getD (0, ⟨0, 0⟩)) := fun thin _ =>
    countMappedBlocks_getD _ ((sorted_runOrder _).imp fun h =>
      h.elim Nat.le_of_lt fun h => (congrArg UInt32.toNat h.1).le) thin
  rw [FragmentedS.generateXml, draw_bind, draw_bind]
  simp only [fragmentedEvents, List.cons_append, List.forM_cons', List.forM_append,
    List.forM_nil', bind_pure_unit, bind_assoc, ← deviceLoop_eq out _ _ hstats]
  rfl

end Generate

/-! ### The mappings kept -/

theorem toNat_lt_of_mem_idsBelow {n t : UInt32} (h : t ∈ idsBelow n) : t.toNat < n.toNat := by
  obtain ⟨i, hi, rfl⟩ := List.mem_map.1 h
  rw [List.mem_range] at hi
  rw [UInt32.toNat_ofNat_eq, Nat.mod_eq_of_lt (by have := n.toNat_lt_two_pow; omega)]
  exact hi

theorem nodup_idsBelow (n : UInt32) : (idsBelow n).Nodup :=
  (List.nodup_range _).map_on fun x hx y hy hxy => by
    rw [List.mem_range] at hx hy
    have := n.toNat_lt_two_pow
    have h := congrArg UInt32.toNat hxy
    rwa [UInt32.toNat_ofNat_eq, UInt32.toNat_ofNat_eq, Nat.mod_eq_of_lt (by omega),
      Nat.mod_eq_of_lt (by omega)] at h

@[simp] theorem length_idsBelow (n : UInt32) : (idsBelow n).length = n.toNat := by
  simp [idsBelow]

theorem mem_mapRuns {b : UInt64} {runs : List ThinRun} {m : MappedRun}
    (hm : m ∈ mapRuns b runs) : (⟨m.thinId, m.thinBegin, m.len⟩ : ThinRun) ∈ runs := by
  induction runs generalizing b with
  | nil => simp [mapRuns] at hm
  | cons r runs ih =>
    rcases List.mem_cons.1 hm with rfl | hm
    · exact List.mem_cons_self _ _
    · exact List.mem_cons_of_mem _ (ih hm)

/-- Laid across the data device, the runs of a device stand for the same blocks of it. -/
theorem thinBlocks_mapRuns (b : UInt64) (runs : List ThinRun) (t : UInt32) :
    ((mapRuns b runs).filter fun m => m.thinId = t).flatMap MappedRun.thinBlocks =
      (runs.filter fun r => r.thinId = t).flatMap ThinRun.blocks := by
  induction runs generalizing b with
  | nil => rfl
  | cons r runs ih =>
    by_cases h : r.thinId = t <;>
      simp [mapRuns, List.filter_cons, h, ih, MappedRun.thinBlocks, ThinRun.blocks]

/-- Below `2 ^ 64`, the runs laid from `b` stand for the data blocks from `b` on, one after
another. -/
theorem dataBlocks_mapRuns (b : UInt64) (runs : List ThinRun)
    (h : b.toNat + (runs.flatMap ThinRun.blocks).length < 2 ^ 64) :
    (mapRuns b runs).flatMap MappedRun.dataBlocks =
      List.range' b.toNat (runs.flatMap ThinRun.blocks).length := by
  induction runs generalizing b with
  | nil => rfl
  | cons r runs ih =>
    simp only [List.flatMap_cons, List.length_append, ThinRun.blocks, List.length_range'] at h ⊢
    have hb : (b + r.len).toNat = b.toNat + r.len.toNat := by
      rw [UInt64.toNat_add_eq]
      exact Nat.mod_eq_of_lt (by omega)
    rw [mapRuns, List.flatMap_cons, ih _ (by rw [hb]; omega), hb, MappedRun.dataBlocks,
      Nat.add_comm r.len.toNat, ← List.range'_append, Nat.one_mul]

theorem dropOdd_sublist (maps : List MappedRun) : List.Sublist (dropOdd maps) maps := by
  have h := (List.filter_sublist (p := fun p : Nat × MappedRun => p.1 % 2 == 0) maps.enum).map
    Prod.snd
  rwa [List.enum_map_snd] at h

theorem nodup_flatMap_of_sublist {α β : Type} {l₁ l₂ : List α} {f : α → List β}
    (h : List.Sublist l₁ l₂)
    (hn : (l₂.flatMap f).Nodup) : (l₁.flatMap f).Nodup := by
  rw [List.nodup_flatMap] at hn ⊢
  exact ⟨fun x hx => hn.1 x (h.subset hx), hn.2.sublist h⟩

/-- Mappings in order of position whose blocks do not repeat stand for blocks in increasing
order. -/
theorem sorted_thinBlocks {l : List MappedRun}
    (hs : l.Pairwise fun a b => a.thinBegin.toNat ≤ b.thinBegin.toNat)
    (hn : (l.flatMap MappedRun.thinBlocks).Nodup) :
    (l.flatMap MappedRun.thinBlocks).Sorted (· < ·) := by
  induction l with
  | nil => exact List.sorted_nil
  | cons a l ih =>
    rw [List.pairwise_cons] at hs
    rw [List.flatMap_cons] at hn ⊢
    refine List.pairwise_append.2 ⟨List.pairwise_lt_range' _ _, ih hs.2 hn.of_append_right,
      fun x hx y hy => ?_⟩
    obtain ⟨b, hb, hyb⟩ := List.mem_flatMap.1 hy
    have hya : y ∉ a.thinBlocks := fun hya => List.disjoint_of_nodup_append hn hya hy
    have hab := hs.1 b hb
    simp only [MappedRun.thinBlocks, List.mem_range'_1] at hx hyb hya
    omega

section Kept

variable {ρ : Type} (rng : Rng ρ)

theorem mkRuns_spec (thinId : UInt32) (totalLen : UInt64) (runLen : Range)
    (hrun : 1 ≤ runLen.start ∧ runLen.start < runLen.end) (g : ρ) :
    (mkRuns rng thinId totalLen runLen hrun g).1.flatMap ThinRun.blocks =
        List.range' 0 totalLen.toNat ∧
      ∀ r ∈ (mkRuns rng thinId totalLen runLen hrun g).1, r.thinId = thinId ∧ 1 ≤ r.len.toNat := by
  obtain ⟨hcover, hlen⟩ := cuts_spec rng (fun g => ((), g)) runLen hrun totalLen 0 g
    (UInt64.le_iff_toNat_le.2 (Nat.zero_le _))
  refine ⟨?_, fun r hr => ?_⟩
  · simpa [mkRuns, List.flatMap_map, ThinRun.blocks] using hcover
  · obtain ⟨p, hp, rfl⟩ := List.mem_map.1 hr
    exact ⟨rfl, (hlen p hp).1⟩

theorem mem_mkAllRuns (thinSize : UInt64) (thins : List UInt32) (g : ρ) {r : ThinRun}
    (hr : r ∈ (mkAllRuns rng thinSize thins g).1) :
    r.thinId ∈ thins ∧ 1 ≤ r.len.toNat ∧ ∀ b ∈ r.blocks, b < thinSize.toNat := by
  induction thins generalizing g with
  | nil => simp [mkAllRuns] at hr
  | cons t thins ih =>
    simp only [mkAllRuns, List.mem_append] at hr
    rcases hr with hr | hr
    · obtain ⟨hcover, hid⟩ := mkRuns_spec rng t thinSize ⟨1, 17⟩ (by decide) g
      obtain ⟨rfl, hlen⟩ := hid r hr
      refine ⟨List.mem_cons_self _ _, hlen, fun b hb => ?_⟩
      have h : b ∈ List.range' 0 thinSize.toNat := hcover ▸ List.mem_flatMap.2 ⟨r, hr, hb⟩
      simpa [List.mem_range'_1] using h
    · obtain ⟨h₁, h₂⟩ := ih _ hr
      exact ⟨List.mem_cons_of_mem _ h₁, h₂⟩

theorem length_mkAllRuns (thinSize : UInt64) (thins : List UInt32) (g : ρ) :
    ((mkAllRuns rng thinSize thins g).1.flatMap ThinRun.blocks).length =
      thins.length * thinSize.toNat := by
  induction thins generalizing g with
  | nil => simp [mkAllRuns]
  | cons t thins ih =>
    simp only [mkAllRuns, List.flatMap_append, List.length_append,
      (mkRuns_spec rng t thinSize ⟨1, 17⟩ (by decide) g).1, List.length_range', ih,
      List.length_cons, Nat.succ_mul, Nat.add_comm]

/-- Over distinct devices, the runs drawn for one device do not repeat a block. -/
theorem nodup_mkAllRuns (thinSize : UInt64) {thins : List UInt32} (hnd : thins.Nodup) (g : ρ)
    (t : UInt32) :
    (((mkAllRuns rng thinSize thins g).1.filter fun r => r.thinId = t).flatMap
      ThinRun.blocks).Nodup := by
  induction thins generalizing g with
  | nil => simp [mkAllRuns]
  | cons t' thins ih =>
    obtain ⟨hnot, hnd⟩ := List.nodup_cons.1 hnd
    obtain ⟨hcover, hid⟩ := mkRuns_spec rng t' thinSize ⟨1, 17⟩ (by decide) g
    simp only [mkAllRuns, List.filter_append, List.flatMap_append]
    by_cases ht : t' = t
    · subst ht
      rw [List.filter_eq_self.2 fun r hr => by simpa using (hid r hr).1, hcover,
        List.filter_eq_nil_iff.2 fun r hr => by
          have := (mem_mkAllRuns rng thinSize thins _ hr).1
          simp only [decide_eq_true_eq]
          rintro rfl
          exact hnot this]
      simpa using List.nodup_range' 0 thinSize.toNat
    · rw [List.filter_eq_nil_iff.2 fun r hr => by simpa [(hid r hr).1] using ht]
      exact ih hnd _

end Kept

section Pipeline

variable {runs sh : List ThinRun} (hperm : sh.Perm runs)
include hperm

/-- Each mapping kept is one of the runs drawn. -/
theorem mem_runs_of_kept {m : MappedRun}
    (hm : m ∈ (dropOdd (mapRuns 0 sh)).mergeSort fun l r => runOrder l r != .gt) :
    (⟨m.thinId, m.thinBegin, m.len⟩ : ThinRun) ∈ runs :=
  hperm.subset (mem_mapRuns ((dropOdd_sublist _).subset ((List.mergeSort_perm _ _).subset hm)))

/-- The mappings kept of a device repeat no block of it, when its runs drawn do not. -/
theorem nodup_thinBlocks_kept (t : UInt32)
    (hn : ((runs.filter fun r => r.thinId = t).flatMap ThinRun.blocks).Nodup) :
    ((((dropOdd (mapRuns 0 sh)).mergeSort fun l r => runOrder l r != .gt).filter
      fun m => m.thinId = t).flatMap MappedRun.thinBlocks).Nodup := by
  have hmaps : (((mapRuns 0 sh).filter fun m => m.thinId = t).flatMap
      MappedRun.thinBlocks).Nodup := by
    rw [thinBlocks_mapRuns]
    exact ((hperm.filter _).flatMap_right _).nodup_iff.2 hn
  exact (((List.mergeSort_perm _ _).filter _).flatMap_right _).nodup_iff.2
    (nodup_flatMap_of_sublist ((dropOdd_sublist _).filter _) hmaps)

/-- Below `2 ^ 64`, the mappings kept repeat no data block, and every one is below the number
of blocks drawn. -/
theorem dataBlocks_kept (hN : (runs.flatMap ThinRun.blocks).length < 2 ^ 64) :
    (((dropOdd (mapRuns 0 sh)).mergeSort fun l r => runOrder l r != .gt).flatMap
        MappedRun.dataBlocks).Nodup ∧
      ∀ b ∈ ((dropOdd (mapRuns 0 sh)).mergeSort fun l r => runOrder l r != .gt).flatMap
        MappedRun.dataBlocks, b < (runs.flatMap ThinRun.blocks).length := by
  have hlen := (hperm.flatMap_right ThinRun.blocks).length_eq
  have hmaps := dataBlocks_mapRuns 0 sh (by simpa [hlen] using hN)
  rw [hlen] at hmaps
  have hkept := (List.mergeSort_perm (dropOdd (mapRuns 0 sh)) fun l r => runOrder l r != .gt)
    |>.flatMap_right MappedRun.dataBlocks
  refine ⟨hkept.nodup_iff.2 (nodup_flatMap_of_sublist (dropOdd_sublist _)
    (hmaps ▸ List.nodup_range' _ _)), fun b hb => ?_⟩
  obtain ⟨m, hm, hbm⟩ := List.mem_flatMap.1 (hkept.subset hb)
  have h : b ∈ List.range' (0 : UInt64).toNat (runs.flatMap ThinRun.blocks).length :=
    hmaps ▸ List.mem_flatMap.2 ⟨m, (dropOdd_sublist _).subset hm, hbm⟩
  simpa [List.mem_range'_1] using h

end Pipeline

section Valid

variable {ρ : Type} (rng : Rng ρ)

/-- For every random source, the mappings `FragmentedS::generate_xml` keeps are well formed:
each is non-empty and lies within its device, one of the `nr_thins`; and the mappings of each
device stand for blocks of it in increasing order, so they come by position and do not
overlap. -/
theorem FragmentedS.dropped_valid (self : FragmentedS) (g : ρ) :
    (∀ m ∈ (self.dropped rng g).1, 0 < m.len.toNat ∧ m.thinId.toNat < self.nrThins.toNat ∧
      ∀ b ∈ m.thinBlocks, b < self.thinSize.toNat) ∧
    ∀ thin : UInt32, (((self.dropped rng g).1.filter fun m => m.thinId = thin).flatMap
      MappedRun.thinBlocks).Sorted (· < ·) := by
  have hperm := rng.perm_shuffle (mkAllRuns rng self.thinSize (idsBelow self.nrThins) g).2
    (mkAllRuns rng self.thinSize (idsBelow self.nrThins) g).1
  refine ⟨fun m hm => ?_, fun thin => ?_⟩
  · obtain ⟨hid, hlen, hblocks⟩ := mem_mkAllRuns rng _ _ _ (mem_runs_of_kept hperm hm)
    exact ⟨hlen, toNat_lt_of_mem_idsBelow hid, hblocks⟩
  · refine sorted_thinBlocks (((sorted_runOrder _).filter _).imp_of_mem fun ha hb h => ?_)
      (nodup_thinBlocks_kept hperm thin (nodup_mkAllRuns rng _ (nodup_idsBelow _) g thin))
    have ha' := of_decide_eq_true (List.mem_filter.1 ha).2
    have hb' := of_decide_eq_true (List.mem_filter.1 hb).2
    rw [ha', hb'] at h
    exact h.resolve_left (Nat.lt_irrefl _) |>.2

/-- When `nr_thins * thin_size` does not wrap, the mappings `FragmentedS::generate_xml` keeps
repeat no data block, and every one is in the pool `FragmentedS::new` sizes. -/
theorem FragmentedS.new_dropped_dataBlocks (nrThins : UInt32) (thinSize : UInt64) (g : ρ)
    (hfit : nrThins.toNat * thinSize.toNat < 2 ^ 64) :
    (((FragmentedS.new nrThins thinSize).dropped rng g).1.flatMap MappedRun.dataBlocks).Nodup ∧
      ∀ b ∈ ((FragmentedS.new nrThins thinSize).dropped rng g).1.flatMap MappedRun.dataBlocks,
        b < (FragmentedS.new nrThins thinSize).oldNrDataBlocks.toNat := by
  have hperm := rng.perm_shuffle (mkAllRuns rng thinSize (idsBelow nrThins) g).2
    (mkAllRuns rng thinSize (idsBelow nrThins) g).1
  have hN : ((mkAllRuns rng thinSize (idsBelow nrThins) g).1.flatMap ThinRun.blocks).length =
      nrThins.toNat * thinSize.toNat := by
    rw [length_mkAllRuns, length_idsBelow]
  have hold : (FragmentedS.new nrThins thinSize).oldNrDataBlocks.toNat =
      nrThins.toNat * thinSize.toNat := by
    show (nrThins.toUInt64 * thinSize).toNat = _
    rw [UInt64.toNat_mul_eq, UInt32.toNat_toUInt64_eq]
    exact Nat.mod_eq_of_lt hfit
  obtain ⟨hnd, hlt⟩ := dataBlocks_kept hperm (hN ▸ hfit)
  exact ⟨hnd, fun b hb => hold ▸ hN ▸ hlt b hb⟩

end Valid

/-- Two devices of four blocks, each draw the lowest: no data block is mapped twice, and every
one is in the pool of eight. -/
theorem fragmentedS_new_dropped_dataBlocks_two :
    (2 : UInt32).toNat * (4 : UInt64).toNat < 2 ^ 64 ∧
      (((FragmentedS.new 2 4).dropped Rng.lowest ()).1.flatMap MappedRun.dataBlocks).Nodup ∧
      ∀ b ∈ ((FragmentedS.new 2 4).dropped Rng.lowest ()).1.flatMap MappedRun.dataBlocks,
        b < (FragmentedS.new 2 4).oldNrDataBlocks.toNat :=
  ⟨by decide, FragmentedS.new_dropped_dataBlocks Rng.lowest 2 4 () (by decide)⟩

end ThinProvisioning.Tests
