import ThinProvisioning.Thin.Ir
import Mathlib.Data.List.Sort

/-!
# The mapping-run coalescer

`RunBuilder` turns the mappings `(thin_block, data_block, time)` of a leaf group into runs
`ir::Map`. It keeps one open run: `next` extends it by a mapping that continues it in both
address spaces at the same time, and otherwise replaces it by a run of the new mapping alone and
returns the run it replaced; `complete` returns the open run. Every addition is the code's `u64`
addition, which wraps.

For every input of fewer than `2 ^ 64` mappings, in any order, the runs of a fresh builder are
the maximal-run decomposition of the input in `u64` arithmetic: each is non-empty, they expand
back to the input, and none could have absorbed the first mapping of the next
(`buildRuns_maximal_decomposition`). On an input with strictly increasing thin blocks no run
wraps and the runs are strictly increasing and disjoint in thin space
(`buildRuns_thin_disjoint`). The additions `thin_begin + len` and `data_begin + len` of `next`
are unchecked: after a run that ends at `u64::MAX` the next call adds past it, and in wrapping
arithmetic merges the mapping at block `0` into that run (`runBuilder_adds_past_u64_max`).

## Main definitions

* `RunBuilder.next`, `RunBuilder.complete`: the operations of the source.
* `RunBuilder.feed`: `next` on each mapping of a list, collecting the runs returned.
* `buildRuns`: the runs a fresh builder returns for a list, `complete` included.
* `Ir.Map.expand`: the mappings a run stands for.

## Main results

* `RunBuilder.runsFrom_expand`, `RunBuilder.runsFrom_chain`: the invariants of a run from any
  builder state, by induction on the input from the step lemmas of `next`.
* `Ir.Map.pairwise_disjoint_of_expand`: runs whose expansion is strictly increasing in thin
  space are disjoint.
* `buildRuns_maximal_decomposition`, `buildRuns_thin_disjoint`,
  `runBuilder_adds_past_u64_max`.

## References

* `src/src/thin/dump.rs`, lines 27–76.
-/

namespace ThinProvisioning.Thin

open Ir

/-- A mapping as `RunBuilder::next` receives it: `(thin_block, data_block, time)`. -/
abbrev Triple := UInt64 × UInt64 × UInt32

namespace Ir.Map

/-- The test of `RunBuilder::next`: the run `m` absorbs the mapping
`(thinBlock, dataBlock, time)`. -/
def Continues (m : Map) (thinBlock dataBlock : UInt64) (time : UInt32) : Prop :=
  thinBlock = m.thinBegin + m.len ∧ dataBlock = m.dataBegin + m.len ∧ m.time = time

/-- The mappings the run stands for, `(thin_begin + j, data_begin + j, time)` for `j < len`, in
`u64` arithmetic. -/
def expand (m : Map) : List Triple :=
  (List.range m.len.toNat).map fun j =>
    (m.thinBegin + UInt64.ofNat j, m.dataBegin + UInt64.ofNat j, m.time)

theorem length_expand (m : Map) : m.expand.length = m.len.toNat := by
  simp [expand]

theorem expand_getElem_fst (m : Map) {j : Nat} (hj : j < m.expand.length) :
    (m.expand[j]).1.toNat = (m.thinBegin.toNat + j) % 2 ^ 64 := by
  rw [length_expand] at hj
  simp only [expand, List.getElem_map, List.getElem_range, UInt64.toNat_add_eq,
    UInt64.toNat_ofNat_eq]
  omega

/-- A run of one more mapping expands to one more mapping, provided its length does not wrap. -/
theorem expand_grow (m : Map) (h : m.len.toNat + 1 < 2 ^ 64) :
    { m with len := m.len + 1 }.expand =
      m.expand ++ [(m.thinBegin + m.len, m.dataBegin + m.len, m.time)] := by
  have hlen : (m.len + 1).toNat = m.len.toNat + 1 := by
    rw [UInt64.toNat_add_eq]
    exact Nat.mod_eq_of_lt h
  simp only [expand, hlen, List.range_succ, List.map_append, List.map_cons, List.map_nil,
    UInt64.ofNat_toNat_eq]

theorem getElem_mem_expand_fst (m : Map) {j : Nat} (hj : j < m.len.toNat) :
    ∃ x ∈ m.expand, x.1.toNat = (m.thinBegin.toNat + j) % 2 ^ 64 := by
  have hj' : j < m.expand.length := by rwa [length_expand]
  exact ⟨m.expand[j], List.getElem_mem hj', expand_getElem_fst m hj'⟩

/-- A run whose mappings have strictly increasing thin blocks does not wrap in thin space. -/
theorem thin_end_le_of_pairwise (m : Map)
    (hs : m.expand.Pairwise fun x y => x.1 < y.1) :
    m.thinBegin.toNat + m.len.toNat ≤ 2 ^ 64 := by
  have htb := m.thinBegin.toNat_lt_two_pow
  by_contra hlt
  have hk : 2 ^ 64 - 1 - m.thinBegin.toNat + 1 < m.expand.length := by
    rw [length_expand]; omega
  have hmono := List.pairwise_iff_getElem.1 hs _ _ (by omega) hk (Nat.lt_succ_self _)
  rw [UInt64.lt_iff_toNat_lt, expand_getElem_fst, expand_getElem_fst] at hmono
  omega

theorem expand_single (t d : UInt64) (tm : UInt32) :
    (⟨t, d, tm, 1⟩ : Map).expand = [(t, d, tm)] := by
  simp [expand, List.range_succ]

end Ir.Map

/-- `RunBuilder`: the run under construction, if any. -/
structure RunBuilder where
  run : Option Map
deriving DecidableEq, Repr

namespace RunBuilder

/-- `RunBuilder::new`. -/
def new : RunBuilder := ⟨none⟩

/-- `RunBuilder::next`: extend the open run by the mapping when it continues the run in thin and
data blocks at the same time; otherwise replace the open run by a run of the mapping alone, and
return the run replaced. Returns the builder after the call and the run returned. -/
def next (self : RunBuilder) (thinBlock dataBlock : UInt64) (time : UInt32) :
    RunBuilder × Option Map :=
  match self.run with
  | none => (⟨some ⟨thinBlock, dataBlock, time, 1⟩⟩, none)
  | some ⟨thinBegin, dataBegin, mtime, len⟩ =>
    if thinBlock = thinBegin + len ∧ dataBlock = dataBegin + len ∧ mtime = time then
      (⟨some ⟨thinBegin, dataBegin, mtime, len + 1⟩⟩, none)
    else
      (⟨some ⟨thinBlock, dataBlock, time, 1⟩⟩, self.run)

/-- `RunBuilder::complete`: take the open run. -/
def complete (self : RunBuilder) : RunBuilder × Option Map := (⟨none⟩, self.run)

/-- `next` on each mapping in turn: the builder after the last call and the runs returned, in
call order. -/
def feed (b : RunBuilder) : List Triple → RunBuilder × List Map
  | [] => (b, [])
  | x :: xs =>
    let step := b.next x.1 x.2.1 x.2.2
    let rest := step.1.feed xs
    (rest.1, step.2.toList ++ rest.2)

/-- Every run a builder returns from here on: those `feed` returns, then the open run that
`complete` takes. -/
def runsFrom (b : RunBuilder) (xs : List Triple) : List Map :=
  (b.feed xs).2 ++ ((b.feed xs).1.complete).2.toList

@[simp] theorem complete_snd (b : RunBuilder) : b.complete.2 = b.run := rfl

@[simp] theorem feed_nil (b : RunBuilder) : b.feed [] = (b, []) := rfl

theorem feed_cons (b : RunBuilder) (x : Triple) (xs : List Triple) :
    b.feed (x :: xs) =
      (((b.next x.1 x.2.1 x.2.2).1.feed xs).1,
        (b.next x.1 x.2.1 x.2.2).2.toList ++ ((b.next x.1 x.2.1 x.2.2).1.feed xs).2) := rfl

theorem feed_append (b : RunBuilder) (xs ys : List Triple) :
    b.feed (xs ++ ys) = (((b.feed xs).1.feed ys).1, (b.feed xs).2 ++ ((b.feed xs).1.feed ys).2) := by
  induction xs generalizing b with
  | nil => rfl
  | cons x xs ih => simp only [List.cons_append, feed_cons, ih, List.append_assoc]

@[simp] theorem runsFrom_nil (b : RunBuilder) : b.runsFrom [] = b.run.toList := rfl

theorem runsFrom_cons (b : RunBuilder) (x : Triple) (xs : List Triple) :
    b.runsFrom (x :: xs) =
      (b.next x.1 x.2.1 x.2.2).2.toList ++ (b.next x.1 x.2.1 x.2.2).1.runsFrom xs := by
  simp only [runsFrom, feed_cons, List.append_assoc]

theorem runsFrom_append (b : RunBuilder) (xs ys : List Triple) :
    b.runsFrom (xs ++ ys) = (b.feed xs).2 ++ (b.feed xs).1.runsFrom ys := by
  simp only [runsFrom, feed_append, List.append_assoc]

/-! ### The three outcomes of `next` -/

section Next

variable {b : RunBuilder} {m : Map} {t d : UInt64} {tm : UInt32}

theorem next_of_run_none (h : b.run = none) :
    b.next t d tm = (⟨some ⟨t, d, tm, 1⟩⟩, none) := by
  simp [next, h]

theorem next_of_continues (h : b.run = some m) (hc : m.Continues t d tm) :
    b.next t d tm = (⟨some { m with len := m.len + 1 }⟩, none) := by
  obtain ⟨tb, db, mt, len⟩ := m
  simp only [Map.Continues] at hc
  simp [next, h, hc]

theorem next_of_not_continues (h : b.run = some m) (hc : ¬ m.Continues t d tm) :
    b.next t d tm = (⟨some ⟨t, d, tm, 1⟩⟩, some m) := by
  obtain ⟨tb, db, mt, len⟩ := m
  simp only [Map.Continues] at hc
  simp [next, h, hc]

variable (b t d tm)

/-- Everything one call of `next` can do. -/
theorem next_cases :
    (b.run = none ∧ b.next t d tm = (⟨some ⟨t, d, tm, 1⟩⟩, none)) ∨
    (∃ m, b.run = some m ∧ m.Continues t d tm ∧
      b.next t d tm = (⟨some { m with len := m.len + 1 }⟩, none)) ∨
    (∃ m, b.run = some m ∧ ¬ m.Continues t d tm ∧
      b.next t d tm = (⟨some ⟨t, d, tm, 1⟩⟩, some m)) := by
  cases hb : b.run with
  | none => exact .inl ⟨rfl, next_of_run_none hb⟩
  | some m =>
    by_cases hc : m.Continues t d tm
    · exact .inr (.inl ⟨m, rfl, hc, next_of_continues hb hc⟩)
    · exact .inr (.inr ⟨m, rfl, hc, next_of_not_continues hb hc⟩)

end Next

/-! ### The open run can grow without wrapping -/

/-- The length of the open run, `0` when there is none. -/
def openLen (b : RunBuilder) : Nat := b.run.elim 0 fun m => m.len.toNat

/-- The builder can take `n` more mappings with no run length wrapping, and its open run is not
empty. -/
structure CanGrow (b : RunBuilder) (n : Nat) : Prop where
  lt : b.openLen + n < 2 ^ 64
  pos : ∀ m ∈ b.run, 1 ≤ m.len.toNat

theorem canGrow_new (n : Nat) (h : n < 2 ^ 64) : new.CanGrow n :=
  ⟨by simpa [openLen, new] using h, by simp [new]⟩

theorem canGrow_single (t d : UInt64) (tm : UInt32) {n : Nat} (h : n + 1 < 2 ^ 64) :
    CanGrow ⟨some ⟨t, d, tm, 1⟩⟩ n :=
  ⟨by simp only [openLen, Option.elim, UInt64.toNat_one_eq]; omega, by simp⟩

/-- One call of `next` uses up one mapping of room. -/
theorem CanGrow.next {b : RunBuilder} {n : Nat} (h : b.CanGrow (n + 1)) (t d : UInt64)
    (tm : UInt32) : (b.next t d tm).1.CanGrow n := by
  have hlt := h.lt
  rcases next_cases b t d tm with ⟨hb, hn⟩ | ⟨m, hb, -, hn⟩ | ⟨m, hb, -, hn⟩ <;>
    rw [hn] <;> simp only [openLen, hb, Option.elim] at hlt
  · exact canGrow_single t d tm (by simpa using hlt)
  · have hlen : (m.len + 1).toNat = m.len.toNat + 1 := by
      rw [UInt64.toNat_add_eq, UInt64.toNat_one_eq]; exact Nat.mod_eq_of_lt (by omega)
    exact ⟨by simp only [openLen, Option.elim, hlen]; omega, by simp [hlen]⟩
  · exact canGrow_single t d tm (by omega)

/-- A run that `next` returns is the open run before the call, so it is not empty. -/
theorem CanGrow.pos_of_next {b : RunBuilder} {n : Nat} (h : b.CanGrow n) {t d : UInt64}
    {tm : UInt32} {r : Map} (hr : r ∈ (b.next t d tm).2) : 1 ≤ r.len.toNat := by
  rcases next_cases b t d tm with ⟨-, hn⟩ | ⟨m, -, -, hn⟩ | ⟨m, hb, -, hn⟩ <;> rw [hn] at hr
  · cases hr
  · cases hr
  · obtain rfl : m = r := by simpa using hr
    exact h.pos m (by simp [hb])

/-! ### Step and run lemmas -/

/-- One call of `next` moves one mapping into the runs, returned or open. -/
theorem next_expand {b : RunBuilder} (h : b.CanGrow 1) (t d : UInt64) (tm : UInt32) :
    (b.next t d tm).2.toList.flatMap Map.expand ++ (b.next t d tm).1.run.toList.flatMap Map.expand =
      b.run.toList.flatMap Map.expand ++ [(t, d, tm)] := by
  rcases next_cases b t d tm with ⟨hb, hn⟩ | ⟨m, hb, hc, hn⟩ | ⟨m, hb, -, hn⟩ <;> rw [hn, hb]
  · simp [Map.expand_single]
  · have hlt := h.lt
    rw [openLen, hb] at hlt
    obtain ⟨rfl, rfl, rfl⟩ := hc
    simp [Map.expand_grow m (by simpa using hlt)]
  · simp [Map.expand_single]

/-- The runs from a builder state expand to its open run followed by the input. -/
theorem runsFrom_expand {b : RunBuilder} {xs : List Triple} (h : b.CanGrow xs.length) :
    (b.runsFrom xs).flatMap Map.expand = b.run.toList.flatMap Map.expand ++ xs := by
  induction xs generalizing b with
  | nil => simp
  | cons x xs ih =>
    have hstep := next_expand ⟨by have := h.lt; simp at this; omega, h.pos⟩ x.1 x.2.1 x.2.2
    rw [runsFrom_cons, List.flatMap_append, ih (h.next _ _ _), ← List.append_assoc, hstep]
    simp

/-- Every run returned from a builder state is non-empty. -/
theorem runsFrom_pos {b : RunBuilder} {xs : List Triple} (h : b.CanGrow xs.length) :
    ∀ r ∈ b.runsFrom xs, 1 ≤ r.len.toNat := by
  induction xs generalizing b with
  | nil => simpa using h.pos
  | cons x xs ih =>
    intro r hr
    rw [runsFrom_cons, List.mem_append] at hr
    rcases hr with hr | hr
    · exact h.pos_of_next (Option.mem_toList.1 hr)
    · exact ih (h.next _ _ _) r hr

/-- The first run from a builder with an open run starts where the open run starts. -/
theorem runsFrom_head {b : RunBuilder} {m : Map} (h : b.run = some m) (xs : List Triple) :
    ∃ r rs, b.runsFrom xs = r :: rs ∧ r.thinBegin = m.thinBegin ∧ r.dataBegin = m.dataBegin ∧
      r.time = m.time := by
  induction xs generalizing b m with
  | nil => exact ⟨m, [], by simp [h], rfl, rfl, rfl⟩
  | cons x xs ih =>
    rw [runsFrom_cons]
    by_cases hc : m.Continues x.1 x.2.1 x.2.2
    · simpa [next_of_continues h hc] using @ih ⟨some { m with len := m.len + 1 }⟩ _ rfl
    · simp only [next_of_not_continues h hc, Option.toList_some, List.singleton_append]
      exact ⟨m, _, rfl, rfl, rfl, rfl⟩

/-- No run returned from a builder state could have absorbed the first mapping of the run after
it. -/
theorem runsFrom_chain (b : RunBuilder) (xs : List Triple) :
    (b.runsFrom xs).Chain' fun r r' => ¬ r.Continues r'.thinBegin r'.dataBegin r'.time := by
  induction xs generalizing b with
  | nil => rw [runsFrom_nil]; cases b.run <;> simp
  | cons x xs ih =>
    rw [runsFrom_cons]
    rcases next_cases b x.1 x.2.1 x.2.2 with ⟨-, hn⟩ | ⟨m, -, -, hn⟩ | ⟨m, -, hc, hn⟩ <;> rw [hn]
    · simpa using ih _
    · simpa using ih _
    · simp only [Option.toList_some, List.singleton_append]
      obtain ⟨r, rs, hrs, h1, h2, h3⟩ := @runsFrom_head ⟨some ⟨x.1, x.2.1, x.2.2, 1⟩⟩ _ rfl xs
      rw [hrs]
      exact List.Chain'.cons (by simpa [h1, h2, h3] using hc) (hrs ▸ ih _)

end RunBuilder

/-! ### The runs of a fresh builder -/

/-- The runs a fresh `RunBuilder` returns for the mappings `xs`: `next` on each, then
`complete`, keeping every run returned, in call order. -/
def buildRuns (xs : List Triple) : List Map :=
  (RunBuilder.new.feed xs).2 ++ ((RunBuilder.new.feed xs).1.complete).2.toList

theorem buildRuns_eq_runsFrom (xs : List Triple) : buildRuns xs = RunBuilder.new.runsFrom xs :=
  rfl

theorem expand_buildRuns {xs : List Triple} (h : xs.length < 2 ^ 64) :
    (buildRuns xs).flatMap Map.expand = xs := by
  simpa [RunBuilder.new] using RunBuilder.runsFrom_expand (RunBuilder.canGrow_new _ h)

theorem buildRuns_pos {xs : List Triple} (h : xs.length < 2 ^ 64) :
    ∀ r ∈ buildRuns xs, 1 ≤ r.len.toNat :=
  RunBuilder.runsFrom_pos (RunBuilder.canGrow_new _ h)

/-- For every input of fewer than `2 ^ 64` mappings, in any order, the runs of a fresh builder
are its maximal-run decomposition in `u64` arithmetic: every run is non-empty, the runs expand
back to the input in order, and no run could have been extended by the first mapping of the
next. -/
theorem buildRuns_maximal_decomposition (xs : List Triple) (h : xs.length < 2 ^ 64) :
    (∀ r ∈ buildRuns xs, 1 ≤ r.len) ∧
    (buildRuns xs).flatMap Map.expand = xs ∧
    (buildRuns xs).Chain' fun r r' =>
      r'.thinBegin ≠ r.thinBegin + r.len ∨ r'.dataBegin ≠ r.dataBegin + r.len ∨
        r'.time ≠ r.time := by
  refine ⟨fun r hr => UInt64.le_iff_toNat_le.2 (buildRuns_pos h r hr), expand_buildRuns h,
    (RunBuilder.runsFrom_chain _ xs).imp ?_⟩
  intro r r' hr
  simp only [Map.Continues, not_and_or] at hr
  rcases hr with hr | hr | hr
  · exact .inl hr
  · exact .inr (.inl hr)
  · exact .inr (.inr (Ne.symm hr))

theorem buildRuns_maximal_decomposition_two :
    ([(0, 100, 0), (1, 101, 0)] : List Triple).length < 2 ^ 64 ∧
      buildRuns [(0, 100, 0), (1, 101, 0)] = [⟨0, 100, 0, 2⟩] ∧
      ((buildRuns [(0, 100, 0), (1, 101, 0)]).flatMap Map.expand = [(0, 100, 0), (1, 101, 0)]) :=
  ⟨by decide, by decide, (buildRuns_maximal_decomposition _ (by decide)).2.1⟩

/-- Runs whose expansion is strictly increasing in thin blocks neither wrap nor overlap: each
ends by `2 ^ 64`, and each ends before any later one begins. -/
theorem Ir.Map.pairwise_disjoint_of_expand {rs : List Map} (hpos : ∀ r ∈ rs, 1 ≤ r.len.toNat)
    (hs : ((rs.flatMap Map.expand).map Prod.fst).Sorted (· < ·)) :
    (∀ r ∈ rs, r.thinBegin.toNat + r.len.toNat ≤ 2 ^ 64) ∧
    rs.Pairwise fun r r' => r.thinBegin.toNat + r.len.toNat ≤ r'.thinBegin.toNat := by
  obtain ⟨hrun, hpair⟩ := List.pairwise_flatMap.1 (List.pairwise_map.1 hs)
  have hend : ∀ r ∈ rs, r.thinBegin.toNat + r.len.toNat ≤ 2 ^ 64 := fun r hr =>
    r.thin_end_le_of_pairwise (hrun r hr)
  refine ⟨hend, hpair.imp_of_mem fun {r r'} hr hr' hlt => ?_⟩
  have hpos' := hpos r hr
  obtain ⟨x, hx, hx1⟩ := r.getElem_mem_expand_fst (show r.len.toNat - 1 < r.len.toNat by omega)
  obtain ⟨y, hy, hy1⟩ := r'.getElem_mem_expand_fst (show 0 < r'.len.toNat from hpos r' hr')
  have hxy := UInt64.lt_iff_toNat_lt.1 (hlt x hx y hy)
  have := hend r hr
  have := r'.thinBegin.toNat_lt_two_pow
  omega

/-- For every input of fewer than `2 ^ 64` mappings with strictly increasing thin blocks, the runs
of a fresh builder do not wrap and are strictly increasing and disjoint in thin space. -/
theorem buildRuns_thin_disjoint (xs : List Triple) (h : xs.length < 2 ^ 64)
    (hs : (xs.map Prod.fst).Sorted (· < ·)) :
    (∀ r ∈ buildRuns xs, r.thinBegin.toNat + r.len.toNat ≤ 2 ^ 64) ∧
    (buildRuns xs).Chain' fun r r' => r.thinBegin.toNat + r.len.toNat ≤ r'.thinBegin.toNat := by
  obtain ⟨hend, hpair⟩ := Ir.Map.pairwise_disjoint_of_expand (buildRuns_pos h)
    (by rwa [expand_buildRuns h])
  exact ⟨hend, hpair.chain'⟩

theorem buildRuns_thin_disjoint_two :
    ([(0, 100, 0), (1, 101, 0), (5, 7, 0)] : List Triple).length < 2 ^ 64 ∧
      ([(0, 100, 0), (1, 101, 0), (5, 7, 0)].map Prod.fst : List UInt64).Sorted (· < ·) ∧
      (buildRuns [(0, 100, 0), (1, 101, 0), (5, 7, 0)]).Chain'
        fun r r' => r.thinBegin.toNat + r.len.toNat ≤ r'.thinBegin.toNat :=
  ⟨by decide, by decide, (buildRuns_thin_disjoint _ (by decide) (by decide)).2⟩

/-- `next` adds without a check. After a run that ends at thin block `u64::MAX`, the next call
computes `thin_begin + len = u64::MAX + 1`, past `u64::MAX` over the naturals (a panic in a build
with overflow checks); in wrapping arithmetic the sum is `0`, and the mapping `(0, 6, 0)` is
merged into the run that starts at `(u64::MAX, 5, 0)`. -/
theorem runBuilder_adds_past_u64_max :
    (RunBuilder.new.next 18446744073709551615 5 0).1.run =
        some ⟨18446744073709551615, 5, 0, 1⟩ ∧
      (18446744073709551615 : UInt64).toNat + (1 : UInt64).toNat = 2 ^ 64 ∧
      buildRuns [(18446744073709551615, 5, 0), (0, 6, 0)] = [⟨18446744073709551615, 5, 0, 2⟩] :=
  ⟨rfl, rfl, by decide⟩

end ThinProvisioning.Thin
