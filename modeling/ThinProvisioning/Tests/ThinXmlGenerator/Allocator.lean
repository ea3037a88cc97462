import ThinProvisioning.Word
import Mathlib.Data.List.Perm.Basic
import Mathlib.Data.List.Nodup

/-!
# The allocator of the test generators

The tests build the metadata they dump, shrink and restore from generators that drive a
`MetadataVisitor` (`tests/common/thin_xml_generator.rs`). The generator of snapshots takes the
data blocks of its devices from an `Allocator`: the data blocks of the pool cut into runs of
random lengths and shuffled, a queue of free runs from which `alloc` takes blocks at the front.

The random source `rand::rng()` is a parameter, `Rng`, whose state is threaded through the
generators. Its contract is what the code relies on: `random_range(lo..hi)` draws a number in
`[lo, hi)`, and `shuffle` reorders a list. Every result here holds for every such source.

`alloc(len)` takes whole free runs from the front until `len` blocks are found, the last one cut
in two when it is longer than needed. On success the blocks it returns, followed by the blocks
still free, are the blocks free before (`alloc_eq_ok`): it takes exactly `len` blocks, from the
front. On failure fewer than `len` blocks were free, and the allocator is left empty: a failed
request drains it (`alloc_eq_error`). Over any sequence of requests from `new_shuffled`, the
blocks handed out are pairwise distinct, below the size of the pool, and none of them is still
free (`Allocator.reach_newShuffled`).

## Main definitions

* `Rng`: the random source and its contract.
* `Range`, `Range.blocks`: a range of `u64`, and the blocks it stands for.
* `cuts`: the loop of `mk_runs` and `Allocator::new_shuffled`.
* `Allocator`, `Allocator.newShuffled`, `Allocator.alloc`.
* `Allocator.Reach`: the states reached by a sequence of requests, with the blocks handed out.

## Main results

* `cuts_spec`: the pieces of the loop cover `[b, total_len)` in order, each non-empty.
* `alloc_eq_ok`, `alloc_eq_error`, `alloc_spec`, `alloc_ok_of_le`: one request.
* `Allocator.Reach.sublist`, `Allocator.Reach.nodup_of_perm`, `Allocator.reach_newShuffled`:
  every run of requests.

## References

* `src/tests/common/thin_xml_generator.rs`, lines 143–159 and 265–320.
-/

namespace ThinProvisioning.Tests

/-- The random source `rand::rng()`, on a state `ρ`: `random_range(lo..hi)` draws a number in
`[lo, hi)` for a non-empty range, and `shuffle` puts a list in some order. -/
structure Rng (ρ : Type) where
  randomRange : ρ → UInt64 → UInt64 → UInt64 × ρ
  randomRange_mem : ∀ g lo hi, lo < hi →
    lo ≤ (randomRange g lo hi).1 ∧ (randomRange g lo hi).1 < hi
  shuffle : {α : Type} → ρ → List α → List α × ρ
  perm_shuffle : ∀ {α : Type} (g : ρ) (l : List α), (shuffle g l).1.Perm l

/-- `Range<u64>`: the numbers from `start` up to `end`, `end` excluded. -/
structure Range where
  start : UInt64
  «end» : UInt64
deriving DecidableEq, Repr

namespace Range

/-- The blocks of a range, as natural numbers. -/
def blocks (r : Range) : List Nat :=
  List.range' r.start.toNat (r.end.toNat - r.start.toNat)

/-- The range is not empty: `end - start` does not wrap and is one at least. -/
def Valid (r : Range) : Prop := r.start < r.end

instance (r : Range) : Decidable r.Valid := inferInstanceAs (Decidable (_ < _))

@[simp] theorem length_blocks (r : Range) : r.blocks.length = r.end.toNat - r.start.toNat := by
  simp [blocks]

theorem toNat_sub {r : Range} (hv : r.Valid) : (r.end - r.start).toNat = r.end.toNat - r.start.toNat :=
  UInt64.toNat_sub_of_le _ _ (UInt64.le_iff_toNat_le.2 (Nat.le_of_lt hv))

end Range

/-! ### The loop of `mk_runs`, `new_shuffled` and `mk_snap_mapping` -/

/-- One piece of the loop: from `b`, `min (total_len - b) x` blocks, which does not pass
`total_len`. -/
theorem toNat_add_min_sub {b totalLen : UInt64} (x : UInt64) (hb : b ≤ totalLen) :
    (b + min (totalLen - b) x).toNat = b.toNat + min (totalLen.toNat - b.toNat) x.toNat := by
  rw [UInt64.toNat_add_eq, UInt64.toNat_min, UInt64.toNat_sub_of_le _ _ hb]
  have := totalLen.toNat_lt_two_pow
  rw [UInt64.le_iff_toNat_le] at hb
  exact Nat.mod_eq_of_lt (by omega)

section Cuts

variable {ρ : Type} (rng : Rng ρ)

/-- The loop of `mk_runs`, `Allocator::new_shuffled` and `mk_snap_mapping`: from `b`, the
pieces `(b, len, x)` of `[b, total_len)` in order, each `len` drawn from `run_len` and cut short
by what is left, then `x` drawn by `draw` (`mk_snap_mapping` draws the kind of its stretch, the
others nothing). The range `run_len` starts at one at least, as at every call, so that the loop
ends. -/
@[semireducible] def cuts {β : Type} (draw : ρ → β × ρ) (runLen : Range)
    (hrun : 1 ≤ runLen.start ∧ runLen.start < runLen.end) (totalLen b : UInt64) (g : ρ) :
    List (UInt64 × UInt64 × β) × ρ :=
  if b < totalLen then
    let d := rng.randomRange g runLen.start runLen.end
    let x := draw d.2
    let rest := cuts draw runLen hrun totalLen (b + min (totalLen - b) d.1) x.2
    ((b, min (totalLen - b) d.1, x.1) :: rest.1, rest.2)
  else ([], g)
termination_by totalLen.toNat - b.toNat
decreasing_by
  have hb : b < totalLen := ‹_›
  have hd := (rng.randomRange_mem g _ _ hrun.2).1
  rw [UInt64.le_iff_toNat_le] at hd hrun
  rw [toNat_add_min_sub _ (UInt64.le_iff_toNat_le.2 (Nat.le_of_lt hb))]
  rw [UInt64.lt_iff_toNat_lt] at hb
  have := hrun.1
  simp only [UInt64.toNat_one_eq] at this
  omega

/-- The pieces of the loop from `b` cover `[b, total_len)` in order; each is non-empty and
ends by `total_len`. -/
theorem cuts_spec {β : Type} (draw : ρ → β × ρ) (runLen : Range)
    (hrun : 1 ≤ runLen.start ∧ runLen.start < runLen.end) (totalLen b : UInt64) (g : ρ)
    (hb : b ≤ totalLen) :
    ((cuts rng draw runLen hrun totalLen b g).1.flatMap fun p =>
        List.range' p.1.toNat p.2.1.toNat) = List.range' b.toNat (totalLen.toNat - b.toNat) ∧
      ∀ p ∈ (cuts rng draw runLen hrun totalLen b g).1, 1 ≤ p.2.1.toNat ∧
        p.1.toNat + p.2.1.toNat ≤ totalLen.toNat := by
  induction b, g using cuts.induct rng draw runLen hrun totalLen with
  | case1 b g hlt d x ih =>
    rw [cuts, if_pos hlt]
    dsimp only
    have hd : runLen.start ≤ d.1 := (rng.randomRange_mem g _ _ hrun.2).1
    have hnext := toNat_add_min_sub d.1 hb
    obtain ⟨ihc, ihp⟩ := ih (by rw [UInt64.le_iff_toNat_le, hnext]; rw [UInt64.lt_iff_toNat_lt] at hlt; omega)
    have hlen : (min (totalLen - b) d.1).toNat = min (totalLen.toNat - b.toNat) d.1.toNat := by
      rw [UInt64.toNat_min, UInt64.toNat_sub_of_le _ _ hb]
    rw [UInt64.le_iff_toNat_le] at hd hrun hb
    rw [UInt64.lt_iff_toNat_lt] at hlt
    have := hrun.1
    simp only [UInt64.toNat_one_eq] at this
    refine ⟨?_, ?_⟩
    · have happ := List.range'_append b.toNat (min (totalLen.toNat - b.toNat) d.1.toNat)
        (totalLen.toNat - (b.toNat + min (totalLen.toNat - b.toNat) d.1.toNat)) 1
      rw [Nat.one_mul] at happ
      rw [List.flatMap_cons, ihc, hnext, hlen, happ]
      congr 1
      omega
    · intro p hp
      rcases List.mem_cons.1 hp with rfl | hp
      · dsimp only
        rw [hlen]
        omega
      · exact ihp p hp
  | case2 b g hge =>
    rw [cuts, if_neg hge]
    rw [UInt64.lt_iff_toNat_lt] at hge
    rw [UInt64.le_iff_toNat_le] at hb
    simp only [List.flatMap_nil, List.not_mem_nil, false_implies, implies_true, and_true]
    rw [show totalLen.toNat - b.toNat = 0 by omega]
    rfl

end Cuts

/-! ### The allocator -/

/-- `Allocator`: the queue of free runs of data blocks, its front the head of the list. -/
structure Allocator where
  runs : List Range
deriving DecidableEq, Repr

/-- The errors of the allocator: `"could not allocate; out of space"`. -/
inductive AllocError
  | outOfSpace
deriving DecidableEq, Repr

namespace Allocator

/-- The free blocks, in queue order. -/
def blocks (a : Allocator) : List Nat := a.runs.flatMap Range.blocks

/-- Every free run is a valid range: it is not empty. -/
def WF (a : Allocator) : Prop := ∀ r ∈ a.runs, r.Valid

instance (a : Allocator) : Decidable a.WF := inferInstanceAs (Decidable (∀ r ∈ a.runs, r.Valid))

/-- `Allocator::new_shuffled`: the pool `[0, total_len)` cut into runs of random lengths drawn
from `run_len`, then shuffled. -/
def newShuffled {ρ : Type} (rng : Rng ρ) (totalLen : UInt64) (runLen : Range)
    (hrun : 1 ≤ runLen.start ∧ runLen.start < runLen.end) (g : ρ) : Allocator × ρ :=
  let c := cuts rng (fun g => ((), g)) runLen hrun totalLen 0 g
  let s := rng.shuffle c.2 (c.1.map fun p => (⟨p.1, p.1 + p.2.1⟩ : Range))
  (⟨s.1⟩, s.2)

/-- The loop of `Allocator::alloc`, over the free runs `free`, with `len` blocks still to find
and the runs `runs` found so far: what `alloc` returns, and the free runs left. -/
def allocLoop (len : UInt64) (runs : List Range) :
    List Range → Except AllocError (List Range) × List Range
  | [] => if 0 < len then (.error .outOfSpace, []) else (.ok runs, [])
  | r :: free =>
    if 0 < len then
      if len < r.end - r.start then
        (.ok (runs ++ [⟨r.start, r.start + len⟩]), ⟨r.start + len, r.end⟩ :: free)
      else allocLoop (len - (r.end - r.start)) (runs ++ [r]) free
    else (.ok runs, r :: free)

/-- `Allocator::alloc`: `len` blocks from the front of the queue, as runs; the allocator keeps
what the loop leaves, also when it fails. -/
def alloc (self : Allocator) (len : UInt64) : Except AllocError (List Range) × Allocator :=
  let r := allocLoop len [] self.runs
  (r.1, ⟨r.2⟩)

/-- When the loop succeeds, the runs it adds and then the free runs it leaves stand for the free
blocks it started from, and the runs it adds stand for exactly `len` blocks. -/
theorem allocLoop_eq_ok {len : UInt64} {runs free out free' : List Range}
    (hv : ∀ r ∈ free, r.Valid) (h : allocLoop len runs free = (.ok out, free')) :
    ∃ new, out = runs ++ new ∧
      new.flatMap Range.blocks ++ free'.flatMap Range.blocks = free.flatMap Range.blocks ∧
      (new.flatMap Range.blocks).length = len.toNat ∧ (∀ r ∈ new, r.Valid) ∧
      ∀ r ∈ free', r.Valid := by
  induction free generalizing len runs with
  | nil =>
    unfold allocLoop at h
    split at h
    · cases h
    · next hlen =>
      cases h
      refine ⟨[], by simp, rfl, ?_, by simp, by simp⟩
      rw [UInt64.lt_iff_toNat_lt] at hlen
      simp only [List.flatMap_nil, List.length_nil]
      exact (Nat.eq_zero_of_not_pos hlen).symm
  | cons r free ih =>
    simp only [List.mem_cons, forall_eq_or_imp] at hv
    have hr := Range.toNat_sub hv.1
    have hv₁ := hv.1
    rw [Range.Valid, UInt64.lt_iff_toNat_lt] at hv₁
    have := r.end.toNat_lt_two_pow
    unfold allocLoop at h
    split at h
    · next hpos =>
      split at h
      · next hlt =>
        cases h
        rw [UInt64.lt_iff_toNat_lt, hr] at hlt
        have hmid : (r.start + len).toNat = r.start.toNat + len.toNat := by
          rw [UInt64.toNat_add_eq]; exact Nat.mod_eq_of_lt (by omega)
        refine ⟨[⟨r.start, r.start + len⟩], rfl, ?_, ?_, ?_, ?_⟩
        · have happ := List.range'_append r.start.toNat len.toNat
            (r.end.toNat - (r.start.toNat + len.toNat)) 1
          rw [Nat.one_mul] at happ
          simp only [List.flatMap_cons, List.flatMap_nil, List.append_nil, ← List.append_assoc,
            Range.blocks, hmid, Nat.add_sub_cancel_left, happ]
          congr 2
          omega
        · simp [hmid]
        · rw [UInt64.lt_iff_toNat_lt] at hpos
          simp only [List.mem_singleton, forall_eq, Range.Valid, UInt64.lt_iff_toNat_lt, hmid]
          exact Nat.lt_add_of_pos_right hpos
        · simp only [List.mem_cons, forall_eq_or_imp, Range.Valid, UInt64.lt_iff_toNat_lt, hmid]
          exact ⟨by omega, hv.2⟩
      · next hge =>
        obtain ⟨new, rfl, hblocks, hlen, hnew, hfree⟩ := ih hv.2 h
        rw [UInt64.lt_iff_toNat_lt, hr] at hge
        refine ⟨r :: new, by simp, ?_, ?_, ?_, hfree⟩
        · simp only [List.flatMap_cons, List.append_assoc, hblocks]
        · rw [List.flatMap_cons, List.length_append, hlen, Range.length_blocks,
            UInt64.toNat_sub_of_le _ _ (by rw [UInt64.le_iff_toNat_le, hr]; omega), hr]
          omega
        · simp only [List.mem_cons, forall_eq_or_imp]
          exact ⟨hv.1, hnew⟩
    · next hlen =>
      cases h
      refine ⟨[], by simp, rfl, ?_, by simp, ?_⟩
      · rw [UInt64.lt_iff_toNat_lt] at hlen
        simp only [List.flatMap_nil, List.length_nil]
        exact (Nat.eq_zero_of_not_pos hlen).symm
      · simp only [List.mem_cons, forall_eq_or_imp]
        exact hv

/-- When the loop fails, fewer than `len` blocks were free, and it has taken them all. -/
theorem allocLoop_eq_error {len : UInt64} {runs free free' : List Range} {e : AllocError}
    (hv : ∀ r ∈ free, r.Valid) (h : allocLoop len runs free = (.error e, free')) :
    (free.flatMap Range.blocks).length < len.toNat ∧ free' = [] := by
  induction free generalizing len runs with
  | nil =>
    unfold allocLoop at h
    split at h
    · next hlen =>
      cases h
      exact ⟨by simpa [UInt64.lt_iff_toNat_lt] using hlen, rfl⟩
    · cases h
  | cons r free ih =>
    simp only [List.mem_cons, forall_eq_or_imp] at hv
    have hr := Range.toNat_sub hv.1
    unfold allocLoop at h
    split at h
    · split at h
      · cases h
      · next hge =>
        obtain ⟨hlt, rfl⟩ := ih hv.2 h
        rw [UInt64.lt_iff_toNat_lt, hr] at hge
        rw [UInt64.toNat_sub_of_le _ _ (by rw [UInt64.le_iff_toNat_le, hr]; omega), hr] at hlt
        refine ⟨?_, rfl⟩
        rw [List.flatMap_cons, List.length_append, Range.length_blocks]
        omega
    · cases h

/-- A request that succeeds takes exactly `len` blocks from the front of the queue, as valid
runs. -/
theorem alloc_eq_ok {a a' : Allocator} {len : UInt64} {out : List Range} (hwf : a.WF)
    (h : a.alloc len = (.ok out, a')) :
    out.flatMap Range.blocks ++ a'.blocks = a.blocks ∧
      (out.flatMap Range.blocks).length = len.toNat ∧ (∀ r ∈ out, r.Valid) ∧ a'.WF := by
  simp only [alloc, Prod.mk.injEq] at h
  obtain ⟨h, rfl⟩ := h
  obtain ⟨new, rfl, hblocks, hlen, hnew, hfree⟩ := allocLoop_eq_ok hwf (Prod.ext h rfl)
  exact ⟨by simpa [blocks] using hblocks, by simpa using hlen, by simpa using hnew, hfree⟩

/-- A request that fails found fewer than `len` free blocks, and leaves the allocator empty. -/
theorem alloc_eq_error {a a' : Allocator} {len : UInt64} {e : AllocError} (hwf : a.WF)
    (h : a.alloc len = (.error e, a')) : a.blocks.length < len.toNat ∧ a' = ⟨[]⟩ := by
  simp only [alloc, Prod.mk.injEq] at h
  obtain ⟨h, rfl⟩ := h
  obtain ⟨hlt, hfree⟩ := allocLoop_eq_error hwf (Prod.ext h rfl)
  exact ⟨hlt, congrArg Allocator.mk hfree⟩

/-- A request that succeeds leaves `len` fewer free blocks. -/
theorem length_blocks_alloc {a a' : Allocator} {len : UInt64} {out : List Range} (hwf : a.WF)
    (h : a.alloc len = (.ok out, a')) : a'.blocks.length + len.toNat = a.blocks.length := by
  obtain ⟨hblocks, hl, -, -⟩ := alloc_eq_ok hwf h
  rw [← hblocks, List.length_append, hl, Nat.add_comm]

/-- A request for no more than the free blocks succeeds. -/
theorem alloc_ok_of_le {a : Allocator} (hwf : a.WF) (len : UInt64)
    (hle : len.toNat ≤ a.blocks.length) : ∃ out a', a.alloc len = (.ok out, a') := by
  match h : a.alloc len with
  | (.ok out, a') => exact ⟨out, a', rfl⟩
  | (.error _, _) => exact absurd (alloc_eq_error hwf h).1 (Nat.not_lt.2 hle)

/-- `alloc(len)` on a queue of valid runs succeeds exactly when `len` blocks are free, and then
takes the first `len` of them; when fewer are free it fails, and the runs it has popped are lost:
the allocator is left empty. -/
theorem alloc_spec {a : Allocator} (hwf : a.WF) (len : UInt64) :
    match a.alloc len with
    | (.ok out, a') => len.toNat ≤ a.blocks.length ∧
        out.flatMap Range.blocks ++ a'.blocks = a.blocks ∧
        (out.flatMap Range.blocks).length = len.toNat
    | (.error _, a') => a.blocks.length < len.toNat ∧ a' = ⟨[]⟩ := by
  split
  · next out a' h =>
    obtain ⟨hblocks, hlen, -, -⟩ := alloc_eq_ok hwf h
    refine ⟨?_, hblocks, hlen⟩
    rw [← hblocks, List.length_append, hlen]
    exact Nat.le_add_right _ _
  · next e a' h => exact alloc_eq_error hwf h

/-- Two free blocks, and a request for three. -/
theorem alloc_spec_out_of_space :
    (⟨[⟨0, 2⟩]⟩ : Allocator).WF ∧
      (⟨[⟨0, 2⟩]⟩ : Allocator).alloc 3 = (.error .outOfSpace, ⟨[]⟩) ∧
      ((⟨[⟨0, 2⟩]⟩ : Allocator).blocks.length < (3 : UInt64).toNat ∧
        (⟨[]⟩ : Allocator) = ⟨[]⟩) := by
  have hwf : (⟨[⟨0, 2⟩]⟩ : Allocator).WF := by decide
  have h := alloc_spec hwf 3
  have halloc : (⟨[⟨0, 2⟩]⟩ : Allocator).alloc 3 = (.error .outOfSpace, ⟨[]⟩) := rfl
  rw [halloc] at h
  exact ⟨hwf, halloc, h⟩

/-! ### Runs of requests -/

/-- The allocators reached from `a₀` by a sequence of requests, with the blocks handed out by
the requests that succeeded, in order. -/
inductive Reach (a₀ : Allocator) : List Nat → Allocator → Prop
  | refl : Reach a₀ [] a₀
  | ok {handed : List Nat} {a a' : Allocator} {len : UInt64} {out : List Range} :
      Reach a₀ handed a → a.alloc len = (.ok out, a') →
        Reach a₀ (handed ++ out.flatMap Range.blocks) a'
  | error {handed : List Nat} {a a' : Allocator} {len : UInt64} {e : AllocError} :
      Reach a₀ handed a → a.alloc len = (.error e, a') → Reach a₀ handed a'

/-- Along any sequence of requests, the blocks handed out followed by the blocks still free
are a sublist of the blocks free at the start. -/
theorem Reach.sublist {a₀ a : Allocator} {handed : List Nat} (hwf : a₀.WF)
    (h : Reach a₀ handed a) : (handed ++ a.blocks).Sublist a₀.blocks ∧ a.WF := by
  induction h with
  | refl => exact ⟨List.Sublist.refl _, hwf⟩
  | ok _ halloc ih =>
    obtain ⟨hblocks, -, -, hwf'⟩ := alloc_eq_ok ih.2 halloc
    exact ⟨by rw [List.append_assoc, hblocks]; exact ih.1, hwf'⟩
  | error _ halloc ih =>
    obtain ⟨-, rfl⟩ := alloc_eq_error ih.2 halloc
    refine ⟨?_, fun r hr => by cases hr⟩
    simpa [blocks] using (List.sublist_append_left _ _).trans ih.1

/-- The blocks of a fresh allocator are those of the pool, in some order. -/
theorem blocks_newShuffled {ρ : Type} (rng : Rng ρ) (totalLen : UInt64) (runLen : Range)
    (hrun : 1 ≤ runLen.start ∧ runLen.start < runLen.end) (g : ρ) :
    (newShuffled rng totalLen runLen hrun g).1.blocks.Perm (List.range totalLen.toNat) ∧
      (newShuffled rng totalLen runLen hrun g).1.WF := by
  obtain ⟨hcover, hpieces⟩ := cuts_spec rng (fun g => ((), g)) runLen hrun totalLen 0 g
    (UInt64.le_iff_toNat_le.2 (Nat.zero_le _))
  have hperm := rng.perm_shuffle (cuts rng (fun g => ((), g)) runLen hrun totalLen 0 g).2
    ((cuts rng (fun g => ((), g)) runLen hrun totalLen 0 g).1.map fun p =>
      (⟨p.1, p.1 + p.2.1⟩ : Range))
  have hend : ∀ p ∈ (cuts rng (fun g => ((), g)) runLen hrun totalLen 0 g).1,
      (p.1 + p.2.1).toNat = p.1.toNat + p.2.1.toNat :=
    fun p hp => by
      have := (hpieces p hp).2
      have := totalLen.toNat_lt_two_pow
      rw [UInt64.toNat_add_eq]; exact Nat.mod_eq_of_lt (by omega)
  refine ⟨?_, fun r hr => ?_⟩
  · refine (hperm.flatMap_right Range.blocks).trans ?_
    rw [List.flatMap_map, List.range_eq_range']
    simp only [UInt64.toNat_zero, Nat.sub_zero] at hcover
    rw [← hcover]
    refine List.Perm.of_eq (List.flatMap_congr fun p hp => ?_)
    simp only [Function.comp, Range.blocks, hend p hp, Nat.add_sub_cancel_left]
  · obtain ⟨p, hp, rfl⟩ := List.mem_map.1 (hperm.mem_iff.1 hr)
    show p.1.toNat < (p.1 + p.2.1).toNat
    rw [hend p hp]
    exact Nat.lt_add_of_pos_right (hpieces p hp).1

/-- From a pool whose free blocks are the numbers below `T`, in some order, the blocks handed out
along any run of requests and the blocks still free are pairwise distinct, and those handed out
are below `T`. -/
theorem Reach.nodup_of_perm {a₀ a : Allocator} {handed : List Nat} {T : Nat} (hwf : a₀.WF)
    (hperm : a₀.blocks.Perm (List.range T)) (h : Reach a₀ handed a) :
    (handed ++ a.blocks).Nodup ∧ ∀ b ∈ handed, b < T := by
  have hsub := (Reach.sublist hwf h).1
  refine ⟨hsub.nodup (hperm.nodup_iff.2 (List.nodup_range _)), fun b hb => ?_⟩
  exact List.mem_range.1 (hperm.mem_iff.1 (hsub.subset (List.mem_append_left _ hb)))

/-- From `Allocator::new_shuffled`, whatever the random draws and whatever the sequence of
requests, the blocks handed out are pairwise distinct and below the size of the pool, and none
of them is still free. -/
theorem reach_newShuffled {ρ : Type} (rng : Rng ρ) (totalLen : UInt64) (runLen : Range)
    (hrun : 1 ≤ runLen.start ∧ runLen.start < runLen.end) (g : ρ) {handed : List Nat}
    {a : Allocator} (h : Reach (newShuffled rng totalLen runLen hrun g).1 handed a) :
    handed.Nodup ∧ (∀ b ∈ handed, b < totalLen.toNat) ∧ ∀ b ∈ handed, b ∉ a.blocks := by
  obtain ⟨hperm, hwf⟩ := blocks_newShuffled rng totalLen runLen hrun g
  obtain ⟨hnodup, hlt⟩ := Reach.nodup_of_perm hwf hperm h
  exact ⟨hnodup.of_append_left, hlt, fun b hb hfree => List.disjoint_of_nodup_append hnodup hb hfree⟩

end Allocator

/-- A random source that always draws the lower bound and never reorders. -/
def Rng.lowest : Rng Unit where
  randomRange g lo _ := (lo, g)
  randomRange_mem _ _ _ h := ⟨UInt64.le_iff_toNat_le.2 (Nat.le_refl _), h⟩
  shuffle g l := (l, g)
  perm_shuffle _ _ := List.Perm.refl _

/-- A pool of four blocks in runs of one, and a request for two of them. -/
theorem reach_newShuffled_two :
    Allocator.Reach (Allocator.newShuffled Rng.lowest 4 ⟨1, 2⟩ (by decide) ()).1 [0, 1]
        ⟨[⟨2, 3⟩, ⟨3, 4⟩]⟩ ∧
      ([0, 1] : List Nat).Nodup ∧ (∀ b ∈ [0, 1], b < (4 : UInt64).toNat) ∧
      ∀ b ∈ [0, 1], b ∉ (⟨[⟨2, 3⟩, ⟨3, 4⟩]⟩ : Allocator).blocks := by
  have h : Allocator.Reach (Allocator.newShuffled Rng.lowest 4 ⟨1, 2⟩ (by decide) ()).1 [0, 1]
      ⟨[⟨2, 3⟩, ⟨3, 4⟩]⟩ :=
    @Allocator.Reach.ok _ _ _ _ 2 [⟨0, 1⟩, ⟨1, 2⟩] .refl rfl
  exact ⟨h, Allocator.reach_newShuffled Rng.lowest 4 ⟨1, 2⟩ (by decide) () h⟩

end ThinProvisioning.Tests
