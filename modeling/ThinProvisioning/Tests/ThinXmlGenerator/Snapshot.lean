import ThinProvisioning.Tests.ThinXmlGenerator.Allocator
import Mathlib.Data.List.Range

/-!
# Origins and snapshots of the test generator

The generator of snapshots describes a thin device as a list of `Run`s, each a stretch of the
device mapped to consecutive data blocks or left unmapped. An origin is drawn at random, its
mapped stretches taken from the allocator (`mk_origin`); each snapshot is then drawn from the
device before it by a random map of `Same`, `Diff` and `Hole` stretches (`mk_snap_mapping`),
which `apply_snap_runs` applies: a `Same` stretch keeps the mappings of the device before, a
`Diff` stretch is written again to fresh data blocks, and a `Hole` stretch is unmapped.

`Run.expand` gives the positions of a run, each the data block and time it maps to, or none.
`split_runs n` cuts a list of runs at position `n`: the runs before stand for the first `n`
positions, the runs after for the others (`splitRuns_expand`). Over this expansion,
`apply_snap_runs` computes the abstract snapshot `snapSpec`: the positions of the device before
on `Same` stretches, the fresh blocks it hands out, in order, on `Diff` stretches, and unmapped
positions on `Hole` stretches; and the count it returns is the number of mapped positions
(`applySnapRuns_spec`). The devices `mk_origin` and `mk_snapshot` build stand for exactly
`dev_size` positions, their `mapped_blocks` is their number of mapped positions, and no two
positions of one device map the same data block (`mkOrigin_spec`, `mkSnapshot_spec`).
`mk_snapshot` computes `100 - percent_change`, which panics in the test build for a change above
100 percent; the model returns `GenError.overflow` there.

## Main definitions

* `Run`, `Run.split`, `Run.expand`, `splitRuns`.
* `SnapRun`, `applySnapRuns`, and `snapSpec`, the snapshot it is meant to compute.
* `mkSnapMapping`, `mkOrigin`, `mkSnapshot`, `ThinDev`.

## Main results

* `Run.expand_split`, `splitRuns_expand`: a split keeps every position, in order.
* `applySnapRuns_spec`: `apply_snap_runs` refines `snapSpec`.
* `mkOrigin_spec`, `mkSnapshot_spec`: the devices the generator builds.
* `mkOrigin_ne_assertion`: the `assert!` of `mk_origin` always holds.
* `mkOrigin_ok`, `mkSnapshot_ok`: building a device succeeds while the allocator has a free
  block for each of its positions (and, for a snapshot, the change is a percentage).

## References

* `src/tests/common/thin_xml_generator.rs`, lines 322–392 and 431–605.
-/

namespace ThinProvisioning.Tests

/-- `Run`: a stretch of a thin device, mapped to the data blocks from `data_begin` at `time`, or
unmapped. -/
inductive Run
  | mapped (dataBegin : UInt64) (time : UInt32) (len : UInt64)
  | unMapped (len : UInt64)
deriving DecidableEq, Repr

namespace Run

/-- `Run::len`. -/
def len : Run → UInt64
  | .mapped _ _ len => len
  | .unMapped len => len

/-- `Run::mapped_len`. -/
def mappedLen : Run → UInt64
  | .mapped _ _ len => len
  | .unMapped _ => 0

/-- `Run::split`: the first `n` positions of the run and the others, `None` for an empty part. -/
def split (self : Run) (n : UInt64) : Option Run × Option Run :=
  if n = 0 then (none, some self)
  else if self.len ≤ n then (some self, none)
  else match self with
    | .mapped dataBegin time len =>
      (some (.mapped dataBegin time n), some (.mapped (dataBegin + n) time (len - n)))
    | .unMapped len => (some (.unMapped n), some (.unMapped (len - n)))

/-- The positions of the run: the data block and the time each maps to, `none` if unmapped. -/
def expand : Run → List (Option (UInt64 × UInt32))
  | .mapped d t len => (List.range len.toNat).map fun i => some (d + UInt64.ofNat i, t)
  | .unMapped len => List.replicate len.toNat none

@[simp] theorem length_expand (r : Run) : r.expand.length = r.len.toNat := by
  cases r <;> simp [expand, len]

/-- The number of mapped positions of the run. -/
theorem countP_expand (r : Run) : r.expand.countP Option.isSome = r.mappedLen.toNat := by
  cases r <;> simp [expand, mappedLen, List.countP_map, Function.comp_def]

/-- The positions of a mapped run, cut after `n` of them. -/
theorem expand_mapped_split (d : UInt64) (t : UInt32) {n len : UInt64} (hn : n ≤ len) :
    (Run.mapped d t len).expand =
      (Run.mapped d t n).expand ++ (Run.mapped (d + n) t (len - n)).expand := by
  rw [UInt64.le_iff_toNat_le] at hn
  have hlen : len.toNat = n.toNat + (len - n).toNat := by
    rw [UInt64.toNat_sub_of_le _ _ (UInt64.le_iff_toNat_le.2 hn)]; omega
  simp only [expand, hlen, List.range_add, List.map_append, List.map_map]
  congr 2
  funext i
  simp only [Function.comp, Option.some.injEq, Prod.mk.injEq, and_true]
  apply UInt64.eq_iff_toNat_eq.2
  simp only [UInt64.toNat_add_eq, UInt64.toNat_ofNat_eq, Nat.add_mod_mod, Nat.mod_add_mod,
    Nat.mod_eq_of_lt n.toNat_lt_two_pow, Nat.add_assoc]

/-- `split` keeps the positions of the run: the first `n` in the first part, the others in the
second. -/
theorem expand_split (r : Run) (n : UInt64) :
    (r.split n).1.toList.flatMap expand = r.expand.take n.toNat ∧
      (r.split n).2.toList.flatMap expand = r.expand.drop n.toNat := by
  unfold split
  split
  · next hn => subst hn; simp
  · split
    · next _ hle =>
      rw [UInt64.le_iff_toNat_le] at hle
      have hlen : r.expand.length ≤ n.toNat := by rw [length_expand]; exact hle
      simp [List.take_of_length_le hlen, List.drop_of_length_le hlen]
    · next hn hlt =>
      have hle : n ≤ r.len := by
        rw [UInt64.le_iff_toNat_le] at hlt ⊢; omega
      cases r with
      | mapped d t len =>
        have hsplit := expand_mapped_split d t (show n ≤ len from hle)
        have hlen : (Run.mapped d t n).expand.length = n.toNat := by simp [Run.len]
        simp only [Option.toList_some, List.flatMap_cons, List.flatMap_nil, List.append_nil,
          hsplit, List.take_left' hlen, List.drop_left' hlen, and_self]
      | unMapped len =>
        simp only [Option.toList_some, List.flatMap_cons, List.flatMap_nil, List.append_nil,
          expand, List.take_replicate, List.drop_replicate]
        simp only [Run.len] at hle
        rw [UInt64.le_iff_toNat_le] at hle
        rw [UInt64.toNat_sub_of_le _ _ (UInt64.le_iff_toNat_le.2 hle), Nat.min_eq_left hle]
        exact ⟨rfl, rfl⟩

/-- The parts of a split of a non-empty run are not empty. -/
theorem split_pos {r : Run} (n : UInt64) (hr : 0 < r.len.toNat) :
    ∀ r' ∈ (r.split n).1.toList ++ (r.split n).2.toList, 0 < r'.len.toNat := by
  unfold split
  split
  · simpa using hr
  · split
    · simpa using hr
    · next hn hlt =>
      have hn : 0 < n.toNat := Nat.pos_of_ne_zero fun h => hn (UInt64.eq_iff_toNat_eq.2 h)
      have hlt : n.toNat < r.len.toNat := by rw [UInt64.le_iff_toNat_le] at hlt; omega
      have hsub : (r.len - n).toNat = r.len.toNat - n.toNat :=
        UInt64.toNat_sub_of_le _ _ (UInt64.le_iff_toNat_le.2 (Nat.le_of_lt hlt))
      cases r <;> simp only [len] at hlt hsub <;> simp only [len, hsub, Option.toList_some,
        List.singleton_append, List.mem_cons, List.mem_singleton, forall_eq_or_imp, forall_eq,
        List.not_mem_nil, false_implies, implies_true, and_true] <;> omega

end Run

/-- `n.saturating_sub(m)` on `u64`. -/
def satSub (n m : UInt64) : UInt64 := if m ≤ n then n - m else 0

theorem toNat_satSub (n m : UInt64) : (satSub n m).toNat = n.toNat - m.toNat := by
  unfold satSub
  split
  · next h => exact UInt64.toNat_sub_of_le _ _ h
  · next h => rw [UInt64.le_iff_toNat_le] at h; simp only [UInt64.toNat_zero]; omega

/-- The loop of `split_runs`, from the runs `before` and `after` collected so far. -/
def splitRunsLoop : UInt64 → List Run → List Run → List Run → List Run × List Run
  | _, [], before, after => (before, after)
  | n, r :: runs, before, after =>
    splitRunsLoop (satSub n r.len) runs (before ++ (r.split n).1.toList)
      (after ++ (r.split n).2.toList)

/-- `split_runs`: the runs cut at position `n`. -/
def splitRuns (n : UInt64) (runs : List Run) : List Run × List Run :=
  splitRunsLoop n runs [] []

theorem splitRunsLoop_expand (n : UInt64) (runs before after : List Run) :
    (splitRunsLoop n runs before after).1.flatMap Run.expand =
        before.flatMap Run.expand ++ (runs.flatMap Run.expand).take n.toNat ∧
      (splitRunsLoop n runs before after).2.flatMap Run.expand =
        after.flatMap Run.expand ++ (runs.flatMap Run.expand).drop n.toNat := by
  induction runs generalizing n before after with
  | nil => simp [splitRunsLoop]
  | cons r runs ih =>
    obtain ⟨h1, h2⟩ := ih (satSub n r.len) (before ++ (r.split n).1.toList)
      (after ++ (r.split n).2.toList)
    obtain ⟨hs1, hs2⟩ := r.expand_split n
    rw [splitRunsLoop, h1, h2, List.flatMap_append, List.flatMap_append, hs1, hs2,
      List.flatMap_cons, List.take_append_eq_append_take, List.drop_append_eq_append_drop,
      toNat_satSub, Run.length_expand]
    simp only [List.append_assoc, and_self]

/-- `split_runs n` cuts the positions of the runs after the first `n`. -/
theorem splitRuns_expand (n : UInt64) (runs : List Run) :
    (splitRuns n runs).1.flatMap Run.expand = (runs.flatMap Run.expand).take n.toNat ∧
      (splitRuns n runs).2.flatMap Run.expand = (runs.flatMap Run.expand).drop n.toNat := by
  simpa using splitRunsLoop_expand n runs [] []

theorem splitRunsLoop_pos (n : UInt64) (runs before after : List Run)
    (h : ∀ r ∈ before ++ after ++ runs, 0 < r.len.toNat) :
    ∀ r ∈ (splitRunsLoop n runs before after).1 ++ (splitRunsLoop n runs before after).2,
      0 < r.len.toNat := by
  induction runs generalizing n before after with
  | nil => simpa [splitRunsLoop] using h
  | cons r runs ih =>
    have hsplit := Run.split_pos n (h r (by simp))
    refine ih _ _ _ fun r' hr' => ?_
    by_cases hs : r' ∈ (r.split n).1.toList ++ (r.split n).2.toList
    · exact hsplit r' hs
    · exact h r' (by simp only [List.mem_append, List.mem_cons] at hr' hs ⊢; tauto)

/-- `split_runs` cuts non-empty runs into non-empty runs. -/
theorem splitRuns_pos (n : UInt64) {runs : List Run} (h : ∀ r ∈ runs, 0 < r.len.toNat) :
    ∀ r ∈ (splitRuns n runs).1 ++ (splitRuns n runs).2, 0 < r.len.toNat :=
  splitRunsLoop_pos n runs [] [] (by simpa using h)

/-! ### Applying a map of snapshot stretches -/

/-- `SnapRunType`: a stretch of a snapshot that keeps the mappings of the device before, is
written again, or is discarded. -/
inductive SnapRunType
  | same
  | diff
  | hole
deriving DecidableEq, Repr

/-- `SnapRun`: a stretch of `len` positions of a snapshot, and what becomes of it. -/
structure SnapRun where
  type : SnapRunType
  len : UInt64
deriving DecidableEq, Repr

/-- The positions of a run that `apply_snap_runs` makes of a range the allocator hands out,
all written at `time`. -/
theorem expand_mapped_range {r : Range} (hv : r.Valid) (time : UInt32) :
    (Run.mapped r.start time (r.end - r.start)).expand =
      r.blocks.map fun b => some (UInt64.ofNat b, time) := by
  simp only [Run.expand, Range.blocks, Range.toNat_sub hv, List.range'_eq_map_range, List.map_map]
  refine List.map_congr_left fun i _ => ?_
  simp [UInt64.ofNat_add]

/-- The runs made of the ranges the allocator hands out stand for the blocks of the ranges, in
order, and are not empty. -/
theorem expand_allocated {datas : List Range} (hv : ∀ r ∈ datas, r.Valid) (time : UInt32) :
    (datas.map fun data => Run.mapped data.start time (data.end - data.start)).flatMap
        Run.expand = (datas.flatMap Range.blocks).map (fun b => some (UInt64.ofNat b, time)) ∧
      ∀ r ∈ datas.map (fun data => Run.mapped data.start time (data.end - data.start)),
        0 < r.len.toNat := by
  refine ⟨?_, fun r hr => ?_⟩
  · rw [List.flatMap_map, List.map_flatMap]
    exact List.flatMap_congr fun r hr => expand_mapped_range (hv r hr) time
  · obtain ⟨data, hd, rfl⟩ := List.mem_map.1 hr
    rw [Run.len, Range.toNat_sub (hv data hd)]
    exact Nat.sub_pos_of_lt (hv data hd)

@[simp] theorem countP_map_fresh (time : UInt32) (l : List Nat) :
    (l.map fun b => some (UInt64.ofNat b, time)).countP Option.isSome = l.length := by
  rw [List.countP_map]
  exact List.countP_eq_length.2 fun _ _ => rfl

/-- The loop of `apply_snap_runs`, over the stretches of the snapshot, from the runs of the
origin still to go, with the runs and the count of mapped blocks collected so far. -/
def applySnapRunsLoop (creationTime : UInt32) :
    List SnapRun → List Run → List Run → UInt64 → Allocator →
      Except AllocError (List Run × UInt64) × Allocator
  | [], _, runs, totalMapped, allocator => (.ok (runs, totalMapped), allocator)
  | ⟨st, slen⟩ :: snap, origin, runs, totalMapped, allocator =>
    match st with
    | .same =>
      applySnapRunsLoop creationTime snap (splitRuns slen origin).2
        (runs ++ (splitRuns slen origin).1)
        ((splitRuns slen origin).1.foldl (fun t o => t + o.mappedLen) totalMapped) allocator
    | .diff =>
      match allocator.alloc slen with
      | (.error e, a) => (.error e, a)
      | (.ok datas, a) =>
        applySnapRunsLoop creationTime snap (splitRuns slen origin).2
          (runs ++ datas.map fun data => .mapped data.start creationTime (data.end - data.start))
          (totalMapped + slen) a
    | .hole =>
      applySnapRunsLoop creationTime snap (splitRuns slen origin).2
        (runs ++ [.unMapped slen]) totalMapped allocator

/-- `apply_snap_runs`: the runs of the snapshot of the device `origin` by the map `snap`, and
its number of mapped blocks. -/
def applySnapRuns (origin : List Run) (snap : List SnapRun) (allocator : Allocator)
    (creationTime : UInt32) : Except AllocError (List Run × UInt64) × Allocator :=
  applySnapRunsLoop creationTime snap origin [] 0 allocator

/-- The snapshot that a map of stretches is meant to give, position by position: over the
positions `e` of the device before, what it keeps on a `Same` stretch, the next of the `fresh`
blocks written at `time` on a `Diff` stretch, and nothing on a `Hole` stretch. -/
def snapSpec (time : UInt32) :
    List SnapRun → List (Option (UInt64 × UInt32)) → List Nat → List (Option (UInt64 × UInt32))
  | [], _, _ => []
  | ⟨.same, s⟩ :: snap, e, fresh => e.take s.toNat ++ snapSpec time snap (e.drop s.toNat) fresh
  | ⟨.diff, s⟩ :: snap, e, fresh =>
    (fresh.take s.toNat).map (fun b => some (UInt64.ofNat b, time)) ++
      snapSpec time snap (e.drop s.toNat) (fresh.drop s.toNat)
  | ⟨.hole, s⟩ :: snap, e, fresh =>
    List.replicate s.toNat none ++ snapSpec time snap (e.drop s.toNat) fresh

/-- The number of positions a map of stretches covers. -/
def snapLen : List SnapRun → Nat
  | [] => 0
  | r :: snap => r.len.toNat + snapLen snap

@[simp] theorem snapLen_nil : snapLen [] = 0 := rfl

@[simp] theorem snapLen_cons (r : SnapRun) (snap : List SnapRun) :
    snapLen (r :: snap) = r.len.toNat + snapLen snap := rfl

/-- The number of fresh blocks a map of stretches takes: the length of its `Diff` stretches. -/
def diffLen : List SnapRun → Nat
  | [] => 0
  | ⟨.same, _⟩ :: snap => diffLen snap
  | ⟨.diff, s⟩ :: snap => s.toNat + diffLen snap
  | ⟨.hole, _⟩ :: snap => diffLen snap

theorem diffLen_le_snapLen (snap : List SnapRun) : diffLen snap ≤ snapLen snap := by
  induction snap with
  | nil => exact le_rfl
  | cons r snap ih =>
    obtain ⟨st, s⟩ := r
    cases st <;> simp only [diffLen, snapLen_cons] <;> omega

/-- Blocks taken from the front of the queue by a run of requests, one for each position of a
`Diff` stretch: the allocator left is well formed, and short of at most one block for each
position of the map. -/
theorem room_of_take {a a' : Allocator} {fresh : List Nat} {snap : List SnapRun} (hwf : a.WF)
    (hreach : ∀ a₀ handed, Allocator.Reach a₀ handed a → Allocator.Reach a₀ (handed ++ fresh) a')
    (hblk : fresh ++ a'.blocks = a.blocks) (hfl : fresh.length = diffLen snap) :
    a'.WF ∧ a.blocks.length ≤ a'.blocks.length + snapLen snap := by
  have hr : Allocator.Reach a fresh a' := by simpa using hreach a [] .refl
  refine ⟨(Allocator.Reach.sublist hwf hr).2, ?_⟩
  have := diffLen_le_snapLen snap
  rw [← hblk, List.length_append, hfl]
  omega

/-- Adding up `mapped_len` over runs counts their mapped positions. -/
theorem foldl_mappedLen (runs : List Run) (t : UInt64) :
    runs.foldl (fun t o => t + o.mappedLen) t =
      t + UInt64.ofNat ((runs.flatMap Run.expand).countP Option.isSome) := by
  induction runs generalizing t with
  | nil => simp
  | cons r runs ih =>
    rw [List.foldl_cons, ih, List.flatMap_cons, List.countP_append, Run.countP_expand,
      UInt64.ofNat_add, UInt64.ofNat_toNat_eq, add_assoc]

/-- Across one stretch, the runs made and the runs of the origin still to go stay non-empty. -/
theorem pos_next {runs new origin : List Run} (slen : UInt64)
    (hr : ∀ r ∈ runs ++ origin, 0 < r.len.toNat) (hnew : ∀ r ∈ new, 0 < r.len.toNat) :
    ∀ r ∈ runs ++ new ++ (splitRuns slen origin).2, 0 < r.len.toNat := by
  intro r hr'
  rcases List.mem_append.1 hr' with hr' | hr'
  · rcases List.mem_append.1 hr' with hr' | hr'
    · exact hr r (List.mem_append_left _ hr')
    · exact hnew r hr'
  · exact splitRuns_pos slen (fun r h => hr r (List.mem_append_right _ h)) r
      (List.mem_append_right _ hr')

/-- `apply_snap_runs` computes `snapSpec` from the positions of the origin and the blocks it
hands out, as a run of requests to the allocator that takes one block for each position of a
`Diff` stretch, and counts its mapped positions. Its runs are not empty when those of the origin
and the stretches are not. -/
theorem applySnapRunsLoop_spec (time : UInt32) (snap : List SnapRun) :
    ∀ (origin runs : List Run) (tm : UInt64) (a : Allocator) (runs' : List Run) (tm' : UInt64)
      (a' : Allocator), a.WF →
      applySnapRunsLoop time snap origin runs tm a = (.ok (runs', tm'), a') →
      ∃ fresh : List Nat, (∀ a₀ handed, Allocator.Reach a₀ handed a →
          Allocator.Reach a₀ (handed ++ fresh) a') ∧ fresh ++ a'.blocks = a.blocks ∧
        fresh.length = diffLen snap ∧
        runs'.flatMap Run.expand =
          runs.flatMap Run.expand ++ snapSpec time snap (origin.flatMap Run.expand) fresh ∧
        tm' = tm + UInt64.ofNat ((snapSpec time snap (origin.flatMap Run.expand) fresh).countP
          Option.isSome) ∧
        ((∀ r ∈ runs ++ origin, 0 < r.len.toNat) → (∀ r ∈ snap, 0 < r.len.toNat) →
          ∀ r ∈ runs', 0 < r.len.toNat) := by
  induction snap with
  | nil =>
    intro origin runs tm a runs' tm' a' _ h
    simp only [applySnapRunsLoop, Prod.mk.injEq, Except.ok.injEq] at h
    obtain ⟨⟨rfl, rfl⟩, rfl⟩ := h
    exact ⟨[], fun _ _ h => by simpa using h, rfl, rfl, by simp [snapSpec], by simp [snapSpec],
      fun h _ r hr => h r (List.mem_append_left _ hr)⟩
  | cons sr snap ih =>
    intro origin runs tm a runs' tm' a' hwf h
    obtain ⟨st, slen⟩ := sr
    obtain ⟨htake, hdrop⟩ := splitRuns_expand slen origin
    cases st with
    | same =>
      obtain ⟨fresh, hreach, hblk, hfresh, hexp, htm, hpos⟩ := ih _ _ _ _ _ _ _ hwf h
      refine ⟨fresh, hreach, hblk, hfresh, ?_, ?_, fun hr hs => hpos (pos_next slen hr fun r h => ?_)
        fun r hr' => hs r (List.mem_cons_of_mem _ hr')⟩
      · rw [hexp, List.flatMap_append, htake, hdrop, snapSpec, List.append_assoc]
      · rw [htm, foldl_mappedLen, htake, hdrop, snapSpec, List.countP_append, UInt64.ofNat_add,
          add_assoc]
      · exact splitRuns_pos slen (fun r h => hr r (List.mem_append_right _ h)) r
          (List.mem_append_left _ h)
    | diff =>
      simp only [applySnapRunsLoop] at h
      split at h
      · cases h
      · next datas a₁ halloc =>
        obtain ⟨hblocks, hl, hvalid, hwf₁⟩ := Allocator.alloc_eq_ok hwf halloc
        obtain ⟨fresh, hreach, hblk, hfresh, hexp, htm, hpos⟩ := ih _ _ _ _ _ _ _ hwf₁ h
        obtain ⟨hnew, hnewpos⟩ := expand_allocated hvalid time
        refine ⟨datas.flatMap Range.blocks ++ fresh, fun a₀ handed h₀ => ?_,
          by rw [List.append_assoc, hblk, hblocks], ?_, ?_, ?_,
          fun hr hs => hpos (pos_next slen hr fun r h => ?_)
            fun r hr' => hs r (List.mem_cons_of_mem _ hr')⟩
        · rw [← List.append_assoc]; exact hreach _ _ (.ok h₀ halloc)
        · rw [List.length_append, hl, hfresh]; rfl
        · rw [hexp, List.flatMap_append, hnew, hdrop, snapSpec, List.take_left' hl,
            List.drop_left' hl, List.append_assoc]
        · rw [htm, hdrop, snapSpec, List.take_left' hl, List.drop_left' hl, List.countP_append,
            countP_map_fresh, hl, UInt64.ofNat_add, UInt64.ofNat_toNat_eq, add_assoc]
        · exact hnewpos r h
    | hole =>
      obtain ⟨fresh, hreach, hblk, hfresh, hexp, htm, hpos⟩ := ih _ _ _ _ _ _ _ hwf h
      refine ⟨fresh, hreach, hblk, hfresh, ?_, ?_, fun hr hs => hpos (pos_next slen hr fun r h => ?_)
        fun r hr' => hs r (List.mem_cons_of_mem _ hr')⟩
      · rw [hexp, List.flatMap_append, hdrop, snapSpec, List.append_assoc, List.flatMap_singleton]
        rfl
      · rw [htm, hdrop, snapSpec, List.countP_append, List.countP_replicate]
        simp
      · rw [List.mem_singleton.1 h]; exact hs _ (List.mem_cons_self _ _)

/-- The loop of `apply_snap_runs` succeeds whenever the allocator has a free block for each
position of a `Diff` stretch. -/
theorem applySnapRunsLoop_ok (time : UInt32) (snap : List SnapRun) :
    ∀ (origin runs : List Run) (tm : UInt64) (a : Allocator), a.WF →
      diffLen snap ≤ a.blocks.length →
      ∃ r a', applySnapRunsLoop time snap origin runs tm a = (.ok r, a') := by
  induction snap with
  | nil => exact fun _ _ _ a _ _ => ⟨_, a, rfl⟩
  | cons r snap ih =>
    obtain ⟨st, slen⟩ := r
    intro origin runs tm a hwf hroom
    cases st with
    | same => exact ih _ _ _ a hwf hroom
    | hole => exact ih _ _ _ a hwf hroom
    | diff =>
      rw [diffLen] at hroom
      obtain ⟨datas, a₁, halloc⟩ := Allocator.alloc_ok_of_le hwf slen (by omega)
      have hl := Allocator.length_blocks_alloc hwf halloc
      simp only [applySnapRunsLoop, halloc]
      exact ih _ _ _ a₁ (Allocator.alloc_eq_ok hwf halloc).2.2.2 (by omega)

/-- `apply_snap_runs` builds the snapshot `snapSpec` of the origin, with the fresh blocks of its
`Diff` stretches taken from the allocator, one for each of their positions, and returns its
number of mapped positions. -/
theorem applySnapRuns_spec (origin : List Run) (snap : List SnapRun) (a : Allocator)
    (time : UInt32) {runs : List Run} {tm : UInt64} {a' : Allocator} (hwf : a.WF)
    (h : applySnapRuns origin snap a time = (.ok (runs, tm), a')) :
    ∃ fresh : List Nat, (∀ a₀ handed, Allocator.Reach a₀ handed a →
        Allocator.Reach a₀ (handed ++ fresh) a') ∧ fresh.length = diffLen snap ∧
      runs.flatMap Run.expand = snapSpec time snap (origin.flatMap Run.expand) fresh ∧
      tm = UInt64.ofNat ((runs.flatMap Run.expand).countP Option.isSome) := by
  obtain ⟨fresh, hreach, -, hfl, hexp, htm, -⟩ :=
    applySnapRunsLoop_spec time snap origin [] 0 a _ _ _ hwf h
  simp only [List.flatMap_nil, List.nil_append, zero_add] at hexp htm
  exact ⟨fresh, hreach, hfl, hexp, by rw [htm, hexp]⟩

/-- Two positions kept, one written again and one discarded. -/
theorem applySnapRuns_spec_mixed :
    let origin : List Run := [.mapped 0 0 4]
    let snap : List SnapRun := [⟨.same, 2⟩, ⟨.diff, 1⟩, ⟨.hole, 1⟩]
    let runs : List Run := [.mapped 0 0 2, .mapped 10 1 1, .unMapped 1]
    (⟨[⟨10, 20⟩]⟩ : Allocator).WF ∧
      applySnapRuns origin snap ⟨[⟨10, 20⟩]⟩ 1 = (.ok (runs, 3), ⟨[⟨11, 20⟩]⟩) ∧
      ∃ fresh : List Nat, (∀ a₀ handed, Allocator.Reach a₀ handed ⟨[⟨10, 20⟩]⟩ →
          Allocator.Reach a₀ (handed ++ fresh) ⟨[⟨11, 20⟩]⟩) ∧ fresh.length = diffLen snap ∧
        runs.flatMap Run.expand = snapSpec 1 snap (origin.flatMap Run.expand) fresh ∧
        (3 : UInt64) = UInt64.ofNat ((runs.flatMap Run.expand).countP Option.isSome) := by
  intro origin snap runs
  have hwf : (⟨[⟨10, 20⟩]⟩ : Allocator).WF := by decide
  have h : applySnapRuns origin snap ⟨[⟨10, 20⟩]⟩ 1 = (.ok (runs, 3), ⟨[⟨11, 20⟩]⟩) := rfl
  exact ⟨hwf, h, applySnapRuns_spec origin snap _ 1 hwf h⟩

/-! ### The snapshot, position by position -/

/-- The data blocks a device maps, position after position. -/
def dataBlocks (e : List (Option (UInt64 × UInt32))) : List UInt64 :=
  (e.filterMap id).map Prod.fst

@[simp] theorem dataBlocks_append (e e' : List (Option (UInt64 × UInt32))) :
    dataBlocks (e ++ e') = dataBlocks e ++ dataBlocks e' := by
  simp [dataBlocks]

@[simp] theorem dataBlocks_replicate_none (n : Nat) :
    dataBlocks (List.replicate n none) = [] := by
  simp [dataBlocks, List.filterMap_replicate]

@[simp] theorem dataBlocks_map_fresh (time : UInt32) (l : List Nat) :
    dataBlocks (l.map fun b => some (UInt64.ofNat b, time)) = l.map UInt64.ofNat := by
  induction l <;> simp_all [dataBlocks]

theorem mem_dataBlocks {e : List (Option (UInt64 × UInt32))} {p : Nat} {x : UInt64 × UInt32}
    (h : e[p]? = some (some x)) : x.1 ∈ dataBlocks e :=
  List.mem_map_of_mem _ (List.mem_filterMap.2 ⟨some x, List.getElem?_mem h, rfl⟩)

/-- A device whose data blocks are pairwise distinct maps a block at one position at most. -/
theorem eq_of_dataBlocks_nodup {e : List (Option (UInt64 × UInt32))} {p q : Nat}
    {x y : UInt64 × UInt32} (hnd : (dataBlocks e).Nodup) (hp : e[p]? = some (some x))
    (hq : e[q]? = some (some y)) (hxy : x.1 = y.1) : p = q := by
  induction e generalizing p q with
  | nil => simp at hp
  | cons o e ih =>
    have hcons : dataBlocks (o :: e) = (o.map Prod.fst).toList ++ dataBlocks e := by
      cases o <;> rfl
    rw [hcons, List.nodup_append] at hnd
    cases p <;> cases q
    · rfl
    · next q =>
      simp only [List.getElem?_cons_zero, Option.some.injEq, List.getElem?_cons_succ] at hp hq
      subst hp
      exact absurd (mem_dataBlocks hq) (hnd.2.2 (by simp [hxy]))
    · next p =>
      simp only [List.getElem?_cons_zero, Option.some.injEq, List.getElem?_cons_succ] at hp hq
      subst hq
      exact absurd (mem_dataBlocks hp) (hnd.2.2 (by simp [hxy]))
    · simp only [List.getElem?_cons_succ] at hp hq
      rw [ih hnd.2.1 hp hq]

section SnapSpec

variable (time : UInt32)

/-- Over a device at least as long, with a fresh block for each position of a `Diff` stretch, a
map of stretches gives a device of its own length. -/
theorem length_snapSpec (snap : List SnapRun) :
    ∀ (e : List (Option (UInt64 × UInt32))) (fresh : List Nat), snapLen snap ≤ e.length →
      diffLen snap ≤ fresh.length → (snapSpec time snap e fresh).length = snapLen snap := by
  induction snap with
  | nil => intros; rfl
  | cons r snap ih =>
    obtain ⟨st, s⟩ := r
    intro e fresh he hf
    simp only [snapLen_cons] at he ⊢
    cases st <;> simp only [diffLen] at hf <;>
      simp only [snapSpec, List.length_append, List.length_take, List.length_map,
        List.length_replicate]
    · rw [ih _ _ (by simp only [List.length_drop]; omega) hf]; omega
    · rw [ih _ _ (by simp only [List.length_drop]; omega) (by simp only [List.length_drop]; omega)]
      omega
    · rw [ih _ _ (by simp only [List.length_drop]; omega) hf]

/-- Each mapped position of the snapshot is the same position of the device before, or is one
of the fresh blocks written at `time`. -/
theorem getElem?_snapSpec (snap : List SnapRun) :
    ∀ {e : List (Option (UInt64 × UInt32))} {fresh : List Nat} {p : Nat} {x : UInt64 × UInt32},
      snapLen snap ≤ e.length → diffLen snap ≤ fresh.length →
      (snapSpec time snap e fresh)[p]? = some (some x) →
      e[p]? = some (some x) ∨ x.2 = time ∧ ∃ b ∈ fresh, x.1 = UInt64.ofNat b := by
  induction snap with
  | nil => intro e fresh p x _ _ h; simp [snapSpec] at h
  | cons r snap ih =>
    obtain ⟨st, s⟩ := r
    intro e fresh p x he hf h
    simp only [snapLen_cons] at he
    have hdrop : ∀ {y}, s.toNat ≤ p → (e.drop s.toNat)[p - s.toNat]? = y → e[p]? = y :=
      fun hp h => by rwa [List.getElem?_drop, Nat.add_sub_cancel' hp] at h
    have he' : snapLen snap ≤ (e.drop s.toNat).length := by simp only [List.length_drop]; omega
    cases st with
    | same =>
      simp only [diffLen] at hf
      have hlen : (e.take s.toNat).length = s.toNat := by simp only [List.length_take]; omega
      rcases Nat.lt_or_ge p s.toNat with hp | hp
      · rw [snapSpec, List.getElem?_append_left (by omega), List.getElem?_take_of_lt hp] at h
        exact .inl h
      · rw [snapSpec, List.getElem?_append_right (by omega), hlen] at h
        exact (ih he' hf h).imp_left (hdrop hp)
    | diff =>
      simp only [diffLen] at hf
      have hlen : ((fresh.take s.toNat).map fun b => some (UInt64.ofNat b, time)).length =
          s.toNat := by simp only [List.length_map, List.length_take]; omega
      rcases Nat.lt_or_ge p s.toNat with hp | hp
      · rw [snapSpec, List.getElem?_append_left (by omega), List.getElem?_map,
          List.getElem?_take_of_lt hp] at h
        cases hb : fresh[p]? with
        | none => rw [hb] at h; cases h
        | some b =>
          rw [hb] at h
          cases h
          exact .inr ⟨rfl, b, List.getElem?_mem hb, rfl⟩
      · rw [snapSpec, List.getElem?_append_right (by omega), hlen] at h
        refine (ih he' (by simp only [List.length_drop]; omega) h).imp (hdrop hp) ?_
        exact fun ⟨ht, b, hb, hx⟩ => ⟨ht, b, List.mem_of_mem_drop hb, hx⟩
    | hole =>
      simp only [diffLen] at hf
      rcases Nat.lt_or_ge p s.toNat with hp | hp
      · rw [snapSpec, List.getElem?_append_left (by simpa using hp),
          List.getElem?_replicate_of_lt hp] at h
        cases h
      · rw [snapSpec, List.getElem?_append_right (by simpa using hp), List.length_replicate] at h
        exact (ih he' hf h).imp_left (hdrop hp)

/-- The data blocks of the snapshot are some of those of the device before and some of the fresh
blocks, each at most once as often as there. -/
theorem dataBlocks_snapSpec (snap : List SnapRun) :
    ∀ (e : List (Option (UInt64 × UInt32))) (fresh : List Nat), ∃ l₁ l₂ : List UInt64,
      l₁.Sublist (dataBlocks e) ∧ l₂.Sublist (fresh.map UInt64.ofNat) ∧
        (dataBlocks (snapSpec time snap e fresh)).Perm (l₁ ++ l₂) := by
  induction snap with
  | nil => exact fun _ _ => ⟨[], [], List.nil_sublist _, List.nil_sublist _, .nil⟩
  | cons r snap ih =>
    obtain ⟨st, s⟩ := r
    intro e fresh
    have he : dataBlocks e = dataBlocks (e.take s.toNat) ++ dataBlocks (e.drop s.toNat) := by
      rw [← dataBlocks_append, List.take_append_drop]
    cases st with
    | same =>
      obtain ⟨l₁, l₂, h₁, h₂, hp⟩ := ih (e.drop s.toNat) fresh
      refine ⟨dataBlocks (e.take s.toNat) ++ l₁, l₂, he ▸ h₁.append_left _, h₂, ?_⟩
      rw [snapSpec, dataBlocks_append, List.append_assoc]
      exact hp.append_left _
    | diff =>
      obtain ⟨l₁, l₂, h₁, h₂, hp⟩ := ih (e.drop s.toNat) (fresh.drop s.toNat)
      have hf : fresh.map UInt64.ofNat =
          (fresh.take s.toNat).map UInt64.ofNat ++ (fresh.drop s.toNat).map UInt64.ofNat := by
        rw [← List.map_append, List.take_append_drop]
      refine ⟨l₁, (fresh.take s.toNat).map UInt64.ofNat ++ l₂,
        he ▸ h₁.trans (List.sublist_append_right _ _), hf ▸ h₂.append_left _, ?_⟩
      rw [snapSpec, dataBlocks_append, dataBlocks_map_fresh]
      refine (hp.append_left _).trans ?_
      rw [← List.append_assoc, ← List.append_assoc]
      exact List.perm_append_comm.append_right _
    | hole =>
      obtain ⟨l₁, l₂, h₁, h₂, hp⟩ := ih (e.drop s.toNat) fresh
      refine ⟨l₁, l₂, he ▸ h₁.trans (List.sublist_append_right _ _), h₂, ?_⟩
      rwa [snapSpec, dataBlocks_append, dataBlocks_replicate_none, List.nil_append]

end SnapSpec

/-! ### Devices -/

/-- `ThinDev`: a thin device of the generator, its header and its runs. -/
structure ThinDev where
  thinId : UInt32
  devSize : UInt64
  mappedBlocks : UInt64
  runs : List Run
  creationTime : UInt32
  snapTime : UInt32
deriving DecidableEq, Repr

/-- The positions of a device. -/
def ThinDev.expand (d : ThinDev) : List (Option (UInt64 × UInt32)) := d.runs.flatMap Run.expand

/-- A device as the generator means it: its runs stand for `dev_size` positions, none of them
is empty, and `mapped_blocks` counts the mapped positions. -/
structure ThinDev.Consistent (d : ThinDev) : Prop where
  length_expand : d.expand.length = d.devSize.toNat
  mappedBlocks_eq : d.mappedBlocks = UInt64.ofNat (d.expand.countP Option.isSome)
  len_pos : ∀ r ∈ d.runs, 0 < r.len.toNat

/-- How the building of the metadata stops early: an allocation that fails, passed on by `?`,
an `assert!` that panics, a slice indexed out of its bounds, which panics, or a subtraction that
overflows, which the overflow checks of a test build turn into a panic. -/
inductive GenError
  | alloc (e : AllocError)
  | assertion
  | sliceIndex
  | overflow
deriving DecidableEq, Repr

/-- The inner loop of `mk_origin`: each range the allocator hands out is checked by
`assert!(data.end >= data.start)` and pushed as a mapped run. -/
def pushMapped (creationTime : UInt32) : List Range → List Run → Except GenError (List Run)
  | [], runs => .ok runs
  | data :: datas, runs =>
    if data.end ≥ data.start then
      pushMapped creationTime datas
        (runs ++ [.mapped data.start creationTime (data.end - data.start)])
    else .error .assertion

/-- The `assert!` of `mk_origin` holds of every range the allocator hands out. -/
theorem pushMapped_eq_ok (creationTime : UInt32) {datas : List Range} (runs : List Run)
    (hv : ∀ r ∈ datas, r.Valid) :
    pushMapped creationTime datas runs =
      .ok (runs ++ datas.map fun data => .mapped data.start creationTime (data.end - data.start)) := by
  induction datas generalizing runs with
  | nil => simp [pushMapped]
  | cons data datas ih =>
    simp only [List.mem_cons, forall_eq_or_imp] at hv
    rw [pushMapped, if_pos (UInt64.le_iff_toNat_le.2 (Nat.le_of_lt hv.1)), ih _ hv.2]
    simp

/-- A stretch of the loop of `mk_origin` from `b < total_len`, of a length drawn from `16..64`
and cut short by what is left: it is not empty, it does not pass `total_len`, and the loop goes
on where it ends. -/
theorem mkOrigin_stretch {b totalLen d : UInt64} (len : UInt64) (hlt : b < totalLen)
    (hd : 16 ≤ d) (hlen : len = min d (totalLen - b)) :
    (b + len).toNat = b.toNat + len.toNat ∧ 0 < len.toNat ∧ b + len ≤ totalLen ∧
      b.toNat + len.toNat ≤ totalLen.toNat ∧
      totalLen.toNat - b.toNat - len.toNat = totalLen.toNat - (b + len).toNat := by
  subst hlen
  have hb : b ≤ totalLen := UInt64.le_iff_toNat_le.2 (Nat.le_of_lt hlt)
  rw [UInt64.le_iff_toNat_le, UInt64.min_comm d, toNat_add_min_sub d hb, UInt64.toNat_min,
    UInt64.toNat_sub_of_le _ _ hb]
  rw [UInt64.lt_iff_toNat_lt] at hlt
  rw [UInt64.le_iff_toNat_le] at hd
  have : (16 : UInt64).toNat = 16 := rfl
  omega

section Generators

variable {ρ : Type} (rng : Rng ρ)

/-- The loop of `mk_origin`, from block `b`, with the runs and the count of mapped blocks so far:
a stretch of 16 to 63 blocks, cut short by what is left, mapped to blocks from the allocator when
the number drawn from `0..100` is below `percent_mapped`, unmapped otherwise. -/
@[semireducible] def mkOriginLoop (totalLen percentMapped : UInt64) (creationTime : UInt32)
    (b : UInt64) (runs : List Run) (totalMapped : UInt64) (allocator : Allocator) (g : ρ) :
    Except GenError (List Run × UInt64 × Allocator) × ρ :=
  if b < totalLen then
    let d := rng.randomRange g 16 64
    let len := min d.1 (totalLen - b)
    let n := rng.randomRange d.2 0 100
    if n.1 < percentMapped then
      match allocator.alloc len with
      | (.error e, _) => (.error (.alloc e), n.2)
      | (.ok datas, a) =>
        match pushMapped creationTime datas runs with
        | .error e => (.error e, n.2)
        | .ok runs =>
          mkOriginLoop totalLen percentMapped creationTime (b + len) runs (totalMapped + len) a n.2
    else
      mkOriginLoop totalLen percentMapped creationTime (b + len) (runs ++ [.unMapped len])
        totalMapped allocator n.2
  else (.ok (runs, totalMapped, allocator), g)
termination_by totalLen.toNat - b.toNat
decreasing_by
  all_goals
    have hb : b < totalLen := ‹_›
    have hd := (rng.randomRange_mem g 16 64 (by decide)).1
    rw [UInt64.le_iff_toNat_le] at hd
    rw [UInt64.min_comm, toNat_add_min_sub _ (UInt64.le_iff_toNat_le.2 (Nat.le_of_lt hb))]
    rw [UInt64.lt_iff_toNat_lt] at hb
    have : (16 : UInt64).toNat = 16 := rfl
    omega

/-- `mk_origin`: a device of `total_len` blocks, those of about `percent_mapped` percent of its
stretches mapped to blocks from the allocator, all written at `creation_time`. -/
def mkOrigin (thinId : UInt32) (totalLen percentMapped : UInt64) (allocator : Allocator)
    (creationTime snapTime : UInt32) (g : ρ) : Except GenError (ThinDev × Allocator) × ρ :=
  match mkOriginLoop rng totalLen percentMapped creationTime 0 [] 0 allocator g with
  | (.ok (runs, totalMapped, a), g) =>
    (.ok (⟨thinId, totalLen, totalMapped, runs, creationTime, snapTime⟩, a), g)
  | (.error e, g) => (.error e, g)

/-- The kind of a stretch of `mk_snap_mapping`, from the number `n` drawn from `0..100`. -/
def snapRunType (samePercent diffPercent n : UInt64) : SnapRunType :=
  if n < samePercent then .same else if n < diffPercent then .diff else .hole

/-- `mk_snap_mapping`: stretches covering `total_len` blocks, each of a length drawn from
`run_len` and cut short by what is left, and of a kind drawn after it. -/
def mkSnapMapping (totalLen : UInt64) (runLen : Range)
    (hrun : 1 ≤ runLen.start ∧ runLen.start < runLen.end) (samePercent diffPercent : UInt64)
    (g : ρ) : List SnapRun × ρ :=
  let c := cuts rng (fun g => let n := rng.randomRange g 0 100
    (snapRunType samePercent diffPercent n.1, n.2)) runLen hrun totalLen 0 g
  (c.1.map fun p => ⟨p.2.2, p.2.1⟩, c.2)

/-- `mk_snapshot`: a snapshot of `origin`, with `percent_change` percent of its stretches
changed, half of those written again and half discarded. Its first line, `100 - percent_change`,
overflows for a change over 100. -/
def mkSnapshot (thinId : UInt32) (origin : ThinDev) (percentChange : UInt64)
    (allocator : Allocator) (creationTime snapTime : UInt32) (g : ρ) :
    Except GenError (ThinDev × Allocator) × ρ :=
  if percentChange > 100 then (.error .overflow, g) else
  let samePercent := 100 - percentChange
  let diffPercent := samePercent + percentChange / 2
  let snapRuns := mkSnapMapping rng origin.devSize ⟨16, 64⟩ (by decide) samePercent diffPercent g
  match applySnapRuns origin.runs snapRuns.1 allocator creationTime with
  | (.ok (runs, totalMapped), a) =>
    (.ok (⟨thinId, origin.devSize, totalMapped, runs, creationTime, snapTime⟩, a), snapRuns.2)
  | (.error e, _) => (.error (.alloc e), snapRuns.2)

/-- The stretches of `mk_snap_mapping` cover `total_len` blocks, and none is empty. -/
theorem mkSnapMapping_spec (totalLen : UInt64) (runLen : Range)
    (hrun : 1 ≤ runLen.start ∧ runLen.start < runLen.end) (samePercent diffPercent : UInt64)
    (g : ρ) :
    snapLen (mkSnapMapping rng totalLen runLen hrun samePercent diffPercent g).1 =
        totalLen.toNat ∧
      ∀ r ∈ (mkSnapMapping rng totalLen runLen hrun samePercent diffPercent g).1,
        0 < r.len.toNat := by
  obtain ⟨hcover, hpieces⟩ := cuts_spec rng _ runLen hrun totalLen 0 g
    (UInt64.le_iff_toNat_le.2 (Nat.zero_le _))
  have hlen : ∀ l : List (UInt64 × UInt64 × SnapRunType),
      snapLen (l.map fun p => ⟨p.2.2, p.2.1⟩) =
        (l.flatMap fun p => List.range' p.1.toNat p.2.1.toNat).length := by
    intro l
    induction l with
    | nil => rfl
    | cons p l ih =>
      rw [List.map_cons, snapLen_cons, ih, List.flatMap_cons, List.length_append,
        List.length_range']
  refine ⟨?_, fun r hr => ?_⟩
  · rw [mkSnapMapping, hlen, hcover, List.length_range']
    simp
  · obtain ⟨p, hp, rfl⟩ := List.mem_map.1 hr
    exact (hpieces p hp).1

/-- The loop of `mk_origin` builds, from block `b`, the snapshot of an unmapped device by a map of
non-empty stretches covering `[b, total_len)`, the blocks of its `Diff` stretches taken from the
allocator; its count is the number of mapped positions, its runs are not empty, and its
`assert!` never fires. -/
theorem mkOriginLoop_spec (totalLen percentMapped : UInt64) (creationTime : UInt32) (b : UInt64)
    (runs : List Run) (tm : UInt64) (a : Allocator) (g : ρ) {runs' : List Run} {tm' : UInt64}
    {a' : Allocator} {g' : ρ} (hwf : a.WF) (hb : b ≤ totalLen)
    (h : mkOriginLoop rng totalLen percentMapped creationTime b runs tm a g =
      (.ok (runs', tm', a'), g')) :
    ∃ (snap : List SnapRun) (fresh : List Nat), snapLen snap = totalLen.toNat - b.toNat ∧
      (∀ r ∈ snap, 0 < r.len.toNat) ∧ fresh.length = diffLen snap ∧
      (∀ a₀ handed, Allocator.Reach a₀ handed a → Allocator.Reach a₀ (handed ++ fresh) a') ∧
      fresh ++ a'.blocks = a.blocks ∧
      runs'.flatMap Run.expand = runs.flatMap Run.expand ++
        snapSpec creationTime snap (List.replicate (totalLen.toNat - b.toNat) none) fresh ∧
      tm' = tm + UInt64.ofNat ((snapSpec creationTime snap
        (List.replicate (totalLen.toNat - b.toNat) none) fresh).countP Option.isSome) ∧
      ((∀ r ∈ runs, 0 < r.len.toNat) → ∀ r ∈ runs', 0 < r.len.toNat) := by
  induction b, runs, tm, a, g using mkOriginLoop.induct rng totalLen percentMapped creationTime with
  | case1 b runs tm a g hlt d len n hn e a₁ halloc =>
    rw [mkOriginLoop, if_pos hlt] at h
    simp only [if_pos hn, halloc] at h
    cases h
  | case2 b runs tm a g hlt d len n hn datas a₁ halloc e hpush =>
    rw [pushMapped_eq_ok _ _ (Allocator.alloc_eq_ok hwf halloc).2.2.1] at hpush
    cases hpush
  | case3 b runs tm a g hlt d len n hn datas a₁ halloc runs₁ hpush ih =>
    rw [mkOriginLoop, if_pos hlt] at h
    simp only [if_pos hn, halloc, hpush] at h
    obtain ⟨hblocks, hl, hvalid, hwf₁⟩ := Allocator.alloc_eq_ok hwf halloc
    rw [pushMapped_eq_ok _ _ hvalid] at hpush
    cases hpush
    obtain ⟨hnew, hnewpos⟩ := expand_allocated hvalid creationTime
    obtain ⟨hnext, hlen, hle, hbound, hrest⟩ :=
      mkOrigin_stretch len hlt (rng.randomRange_mem g 16 64 (by decide)).1 rfl
    obtain ⟨snap, fresh, hsl, hspos, hfl, hreach, hblk, hexp, htm, hpos⟩ := ih hwf₁ hle h
    refine ⟨⟨.diff, len⟩ :: snap, datas.flatMap Range.blocks ++ fresh, ?_, ?_, ?_,
      fun a₀ handed h₀ => ?_, by rw [List.append_assoc, hblk, hblocks], ?_, ?_,
      fun hr => hpos fun r h => ?_⟩
    · rw [snapLen_cons, hsl, hnext]; dsimp only; omega
    · simp only [List.mem_cons, forall_eq_or_imp]
      exact ⟨by omega, hspos⟩
    · rw [List.length_append, hl, hfl]; rfl
    · rw [← List.append_assoc]; exact hreach _ _ (.ok h₀ halloc)
    · rw [hexp, List.flatMap_append, hnew, snapSpec, List.take_left' hl, List.drop_left' hl,
        List.drop_replicate, hrest, List.append_assoc]
    · rw [htm, snapSpec, List.take_left' hl, List.drop_left' hl, List.drop_replicate, hrest,
        List.countP_append, countP_map_fresh, hl, UInt64.ofNat_add, UInt64.ofNat_toNat_eq,
        add_assoc]
    · rcases List.mem_append.1 h with h | h
      · exact hr r h
      · exact hnewpos r h
  | case4 b runs tm a g hlt d len n hn ih =>
    rw [mkOriginLoop, if_pos hlt] at h
    simp only [if_neg hn] at h
    obtain ⟨hnext, hlen, hle, hbound, hrest⟩ :=
      mkOrigin_stretch len hlt (rng.randomRange_mem g 16 64 (by decide)).1 rfl
    obtain ⟨snap, fresh, hsl, hspos, hfl, hreach, hblk, hexp, htm, hpos⟩ := ih hwf hle h
    refine ⟨⟨.hole, len⟩ :: snap, fresh, ?_, ?_, hfl, hreach, hblk, ?_, ?_,
      fun hr => hpos fun r h => ?_⟩
    · rw [snapLen_cons, hsl, hnext]; dsimp only; omega
    · simp only [List.mem_cons, forall_eq_or_imp]
      exact ⟨by omega, hspos⟩
    · rw [hexp, List.flatMap_append, snapSpec, List.drop_replicate, hrest, List.append_assoc,
        List.flatMap_singleton]
      rfl
    · rw [htm, snapSpec, List.drop_replicate, hrest, List.countP_append, List.countP_replicate]
      simp
    · rcases List.mem_append.1 h with h | h
      · exact hr r h
      · rw [List.mem_singleton.1 h]; show 0 < len.toNat; omega
  | case5 b runs tm a g hge =>
    rw [mkOriginLoop, if_neg hge] at h
    cases h
    rw [UInt64.lt_iff_toNat_lt] at hge
    rw [UInt64.le_iff_toNat_le] at hb
    refine ⟨[], [], by simp only [snapLen_nil]; omega, by simp, rfl, fun _ _ h => by simpa using h,
      rfl, by simp [snapSpec], by simp [snapSpec], id⟩

theorem mkOriginLoop_ne_assertion (totalLen percentMapped : UInt64) (creationTime : UInt32)
    (b : UInt64) (runs : List Run) (tm : UInt64) (a : Allocator) (g : ρ) (hwf : a.WF) :
    (mkOriginLoop rng totalLen percentMapped creationTime b runs tm a g).1 ≠ .error .assertion := by
  induction b, runs, tm, a, g using mkOriginLoop.induct rng totalLen percentMapped creationTime with
  | case1 b runs tm a g hlt d len n hn e a₁ halloc =>
    rw [mkOriginLoop, if_pos hlt]
    simp only [if_pos hn, halloc]
    exact fun h => by cases h
  | case2 b runs tm a g hlt d len n hn datas a₁ halloc e hpush =>
    rw [pushMapped_eq_ok _ _ (Allocator.alloc_eq_ok hwf halloc).2.2.1] at hpush
    cases hpush
  | case3 b runs tm a g hlt d len n hn datas a₁ halloc runs₁ hpush ih =>
    rw [mkOriginLoop, if_pos hlt]
    simp only [if_pos hn, halloc, hpush]
    exact ih (Allocator.alloc_eq_ok hwf halloc).2.2.2
  | case4 b runs tm a g hlt d len n hn ih =>
    rw [mkOriginLoop, if_pos hlt]
    simp only [if_neg hn]
    exact ih hwf
  | case5 b runs tm a g hge =>
    rw [mkOriginLoop, if_neg hge]
    exact fun h => by cases h

/-- The loop of `mk_origin` succeeds whenever the allocator has a free block for each position
still to go. -/
theorem mkOriginLoop_ok (totalLen percentMapped : UInt64) (creationTime : UInt32) (b : UInt64)
    (runs : List Run) (tm : UInt64) (a : Allocator) (g : ρ) (hwf : a.WF) (hb : b ≤ totalLen)
    (hroom : totalLen.toNat - b.toNat ≤ a.blocks.length) :
    ∃ r g', mkOriginLoop rng totalLen percentMapped creationTime b runs tm a g = (.ok r, g') := by
  induction b, runs, tm, a, g using mkOriginLoop.induct rng totalLen percentMapped creationTime with
  | case1 b runs tm a g hlt d len n hn e a₁ halloc =>
    obtain ⟨-, -, -, hbound, -⟩ :=
      mkOrigin_stretch len hlt (rng.randomRange_mem g 16 64 (by decide)).1 rfl
    exact absurd (Allocator.alloc_eq_error hwf halloc).1 (by omega)
  | case2 b runs tm a g hlt d len n hn datas a₁ halloc e hpush =>
    rw [pushMapped_eq_ok _ _ (Allocator.alloc_eq_ok hwf halloc).2.2.1] at hpush
    cases hpush
  | case3 b runs tm a g hlt d len n hn datas a₁ halloc runs₁ hpush ih =>
    rw [mkOriginLoop, if_pos hlt]
    simp only [if_pos hn, halloc, hpush]
    obtain ⟨-, -, hle, hbound, hrest⟩ :=
      mkOrigin_stretch len hlt (rng.randomRange_mem g 16 64 (by decide)).1 rfl
    have hl := Allocator.length_blocks_alloc hwf halloc
    exact ih (Allocator.alloc_eq_ok hwf halloc).2.2.2 hle (by omega)
  | case4 b runs tm a g hlt d len n hn ih =>
    rw [mkOriginLoop, if_pos hlt]
    simp only [if_neg hn]
    obtain ⟨-, -, hle, hbound, hrest⟩ :=
      mkOrigin_stretch len hlt (rng.randomRange_mem g 16 64 (by decide)).1 rfl
    exact ih hwf hle (by omega)
  | case5 b runs tm a g hge =>
    rw [mkOriginLoop, if_neg hge]
    exact ⟨_, _, rfl⟩

/-- The `assert!` of `mk_origin` never fires: from a well-formed allocator, whatever the draws,
building an origin fails only when an allocation fails. -/
theorem mkOrigin_ne_assertion (thinId : UInt32) (totalLen percentMapped : UInt64) (a : Allocator)
    (creationTime snapTime : UInt32) (g : ρ) (hwf : a.WF) :
    (mkOrigin rng thinId totalLen percentMapped a creationTime snapTime g).1 ≠ .error .assertion := by
  have hloop := mkOriginLoop_ne_assertion rng totalLen percentMapped creationTime 0 [] 0 a g hwf
  unfold mkOrigin
  split
  · exact fun h => by cases h
  · next e g' h =>
    rw [h] at hloop
    exact fun he => hloop (by cases he; rfl)

/-- `mk_origin` builds a consistent device of `total_len` blocks: the snapshot of an unmapped
device by a map of stretches, the blocks of its `Diff` stretches taken from the allocator. -/
theorem mkOrigin_spec (thinId : UInt32) (totalLen percentMapped : UInt64) (a : Allocator)
    (creationTime snapTime : UInt32) (g : ρ) {dev : ThinDev} {a' : Allocator} {g' : ρ}
    (hwf : a.WF)
    (h : mkOrigin rng thinId totalLen percentMapped a creationTime snapTime g = (.ok (dev, a'), g')) :
    dev.Consistent ∧ dev.devSize = totalLen ∧ ∃ (snap : List SnapRun) (fresh : List Nat),
      (∀ a₀ handed, Allocator.Reach a₀ handed a → Allocator.Reach a₀ (handed ++ fresh) a') ∧
      fresh ++ a'.blocks = a.blocks ∧ snapLen snap = totalLen.toNat ∧ fresh.length = diffLen snap ∧
      dev.expand = snapSpec creationTime snap (List.replicate totalLen.toNat none) fresh := by
  unfold mkOrigin at h
  split at h
  · next runs totalMapped a₁ g₁ hloop =>
    cases h
    obtain ⟨snap, fresh, hsl, -, hfl, hreach, hblk, hexp, htm, hpos⟩ :=
      mkOriginLoop_spec rng totalLen percentMapped creationTime 0 [] 0 a g hwf
        (UInt64.le_iff_toNat_le.2 (Nat.zero_le _)) hloop
    simp only [UInt64.toNat_zero, Nat.sub_zero, List.flatMap_nil, List.nil_append] at hsl hexp htm
    have hlen := length_snapSpec creationTime snap (List.replicate totalLen.toNat none) fresh
      (by simp [hsl]) hfl.ge
    refine ⟨⟨?_, ?_, hpos (by simp)⟩, rfl, snap, fresh, hreach, hblk, hsl, hfl, hexp⟩
    · rw [ThinDev.expand, hexp, hlen, hsl]
    · rw [ThinDev.expand, hexp, htm, zero_add]
  · cases h

/-- `mk_snapshot` of a consistent device builds a consistent device of the same size: the
snapshot of the device by a map of stretches, the blocks of its `Diff` stretches taken from the
allocator. -/
theorem mkSnapshot_spec (thinId : UInt32) (origin : ThinDev) (percentChange : UInt64)
    (a : Allocator) (creationTime snapTime : UInt32) (g : ρ) {dev : ThinDev} {a' : Allocator}
    {g' : ρ} (hwf : a.WF) (hcons : origin.Consistent)
    (h : mkSnapshot rng thinId origin percentChange a creationTime snapTime g =
      (.ok (dev, a'), g')) :
    dev.Consistent ∧ dev.devSize = origin.devSize ∧ ∃ (snap : List SnapRun) (fresh : List Nat),
      (∀ a₀ handed, Allocator.Reach a₀ handed a → Allocator.Reach a₀ (handed ++ fresh) a') ∧
      fresh ++ a'.blocks = a.blocks ∧ snapLen snap = origin.devSize.toNat ∧
      fresh.length = diffLen snap ∧
      dev.expand = snapSpec creationTime snap origin.expand fresh := by
  unfold mkSnapshot at h
  split_ifs at h
  · cases h
  dsimp only at h
  split at h
  · next runs totalMapped a₁ happ =>
    cases h
    obtain ⟨hsl, hspos⟩ := mkSnapMapping_spec rng origin.devSize ⟨16, 64⟩ (by decide)
      (100 - percentChange) (100 - percentChange + percentChange / 2) g
    obtain ⟨fresh, hreach, hblk, hfl, hexp, htm, hpos⟩ :=
      applySnapRunsLoop_spec creationTime _ origin.runs [] 0 a _ _ _ hwf happ
    simp only [List.flatMap_nil, List.nil_append] at hexp
    have hlen := length_snapSpec creationTime _ origin.expand fresh
      (by rw [hsl, hcons.length_expand]) hfl.ge
    refine ⟨⟨?_, ?_, hpos (by simpa using hcons.len_pos) hspos⟩, rfl, _, fresh, hreach, hblk, hsl, hfl,
      hexp⟩
    · rw [ThinDev.expand, hexp, ← ThinDev.expand, hlen, hsl]
    · rw [ThinDev.expand, hexp, ← ThinDev.expand, htm, zero_add]; rfl
  · cases h

/-- `mk_origin` succeeds whenever the allocator has a free block for each position of the device,
and leaves a well-formed allocator short of at most that many blocks. -/
theorem mkOrigin_ok (thinId : UInt32) (totalLen percentMapped : UInt64) (a : Allocator)
    (creationTime snapTime : UInt32) (g : ρ) (hwf : a.WF)
    (hroom : totalLen.toNat ≤ a.blocks.length) :
    ∃ dev a' g', mkOrigin rng thinId totalLen percentMapped a creationTime snapTime g =
        (.ok (dev, a'), g') ∧ dev.Consistent ∧ dev.devSize = totalLen ∧ a'.WF ∧
      a.blocks.length ≤ a'.blocks.length + totalLen.toNat := by
  obtain ⟨r, g', hloop⟩ := mkOriginLoop_ok rng totalLen percentMapped creationTime 0 [] 0 a g hwf
    (UInt64.le_iff_toNat_le.2 (Nat.zero_le _)) (by simpa using hroom)
  match h : mkOrigin rng thinId totalLen percentMapped a creationTime snapTime g with
  | (.error _, _) => simp [mkOrigin, hloop] at h
  | (.ok (dev, a'), g') =>
    obtain ⟨hcons, hsize, snap, fresh, hreach, hblk, hsl, hfl, -⟩ :=
      mkOrigin_spec rng thinId totalLen percentMapped a creationTime snapTime g hwf h
    exact ⟨dev, a', g', rfl, hcons, hsize, hsl ▸ room_of_take hwf hreach hblk hfl⟩

/-- `mk_snapshot` of a consistent device, with a change of at most 100 percent, succeeds whenever
the allocator has a free block for each position of the device, and leaves a well-formed
allocator short of at most that many blocks. -/
theorem mkSnapshot_ok (thinId : UInt32) (origin : ThinDev) (percentChange : UInt64)
    (a : Allocator) (creationTime snapTime : UInt32) (g : ρ) (hwf : a.WF)
    (hcons : origin.Consistent) (hchange : percentChange ≤ 100)
    (hroom : origin.devSize.toNat ≤ a.blocks.length) :
    ∃ dev a' g', mkSnapshot rng thinId origin percentChange a creationTime snapTime g =
        (.ok (dev, a'), g') ∧ dev.Consistent ∧ dev.devSize = origin.devSize ∧ a'.WF ∧
      a.blocks.length ≤ a'.blocks.length + origin.devSize.toNat := by
  obtain ⟨hsl, -⟩ := mkSnapMapping_spec rng origin.devSize ⟨16, 64⟩ (by decide)
    (100 - percentChange) (100 - percentChange + percentChange / 2) g
  obtain ⟨r, a', happ⟩ := applySnapRunsLoop_ok creationTime _ origin.runs [] 0 a hwf
    ((diffLen_le_snapLen _).trans (hsl ▸ hroom))
  match h : mkSnapshot rng thinId origin percentChange a creationTime snapTime g with
  | (.error _, _) =>
    have hle : ¬ percentChange > 100 := fun hgt => by
      rw [gt_iff_lt, UInt64.lt_iff_toNat_lt] at hgt
      rw [UInt64.le_iff_toNat_le] at hchange
      exact absurd hchange (Nat.not_le.2 hgt)
    simp [mkSnapshot, hle, applySnapRuns, happ] at h
  | (.ok (dev, a'), g') =>
    obtain ⟨hcons', hsize, snap, fresh, hreach, hblk, hsl', hfl, -⟩ :=
      mkSnapshot_spec rng thinId origin percentChange a creationTime snapTime g hwf hcons h
    exact ⟨dev, a', g', rfl, hcons', hsize, hsl' ▸ room_of_take hwf hreach hblk hfl⟩

end Generators

/-- An origin of 16 blocks from a pool of 64, each draw the lowest. -/
theorem mkOrigin_ne_assertion_lowest :
    (⟨[⟨0, 64⟩]⟩ : Allocator).WF ∧
      (mkOrigin Rng.lowest 0 16 50 ⟨[⟨0, 64⟩]⟩ 0 1 ()).1 ≠ .error .assertion :=
  ⟨by decide, mkOrigin_ne_assertion Rng.lowest 0 16 50 _ 0 1 () (by decide)⟩

end ThinProvisioning.Tests
