import ThinProvisioning.Thin.Dump.Trace

/-!
# What a dump writes, whatever the batches and the leaf groups

Two properties of the output of `dump_metadata` that no single function of `dump.rs` shows.

`read_for` cuts the leaf locations into batches of the engine's batch size, an optimisation of
one read per block. When the engine answers every batch, block by block, the batches play no
part: two engines that read each location alike drive the visitor through the same callbacks to
the same end, errors included (`dumpMetadata_batch_independent`). The trace of a dump depends on
the engine only through the results of its reads (`dumpTrace_congr`).

A mapping's entries interleave groups of leaves with references, and `emit_entries` gives each
group a fresh `RunBuilder`. When the keys of the mapping's leaves, in entry order, are strictly
increasing, the `map` callbacks `emit_entries` makes for the whole mapping expand back to the
mappings of its leaves, and are non-empty, strictly increasing and pairwise disjoint in thin
space, across every reference and every group boundary (`emitEntries_runs_increasing`).

## Main definitions

* `Ir.Event.mapRun`: the run of a `map` callback.
* `leafTriples`: the mappings of the leaves of a list of entries, in entry order.

## Main results

* `dumpTrace_congr`, `dumpMetadata_batch_independent`.
* `bodyEvents_runs`, `emitEntries_runs_increasing`.

## References

* `src/src/thin/dump.rs`, lines 256–316 and 346–379.
-/

namespace ThinProvisioning.Thin

/-! ### Batch sizes -/

section Batches

variable {D ε σ : Type} (metadataBlockType : D → BT) (unpackNode : D → Except ε (Node BlockTime))
  (unpackSMRoot : List UInt8 → Except ε SMRoot) (out : Ir.Event → EStateM ε σ Ir.Visit)

/-- The trace of a dump depends on the engine only through the results of its reads. -/
theorem dumpTrace_congr {engine engine' : Engine D ε}
    (h : ∀ ls, readResults engine ls = readResults engine' ls) (sb : ThinSuperblock)
    (md : Metadata) :
    dumpTrace metadataBlockType unpackNode unpackSMRoot engine sb md =
      dumpTrace metadataBlockType unpackNode unpackSMRoot engine' sb md := by
  have hseg : segmentTrace metadataBlockType unpackNode engine =
      segmentTrace metadataBlockType unpackNode engine' := by
    funext seg
    cases seg <;> simp only [segmentTrace, h]
  simp only [dumpTrace, entriesTrace, hseg]

/-- The batch size plays no part in a dump. Two engines, of any batch sizes, whose `read_many`
answers every batch with the result `read` gives for each of its locations, make
`dump_metadata` issue the same callbacks and end in the same state with the same result, errors
included, for every superblock, metadata and visitor. -/
theorem dumpMetadata_batch_independent (engine engine' : Engine D ε)
    (read : UInt64 → Except ε (Block D)) (h : ∀ cs, engine.readMany cs = .ok (cs.map read))
    (h' : ∀ cs, engine'.readMany cs = .ok (cs.map read)) (sb : ThinSuperblock) (md : Metadata) :
    dumpMetadata metadataBlockType unpackNode unpackSMRoot engine out sb md =
      dumpMetadata metadataBlockType unpackNode unpackSMRoot engine' out sb md := by
  rw [dumpMetadata_eq_replay, dumpMetadata_eq_replay,
    dumpTrace_congr metadataBlockType unpackNode unpackSMRoot fun ls =>
      (readResults_of_chunks fun cs _ => h cs).trans (readResults_of_chunks fun cs _ => h' cs).symm]

end Batches

/-- Batch sizes one and two, over a device of three leaves, one of which is not a leaf node. -/
theorem dumpMetadata_batch_one_two :
    let md : Metadata := ⟨[], [⟨0, ⟨3, 1, 0, 0⟩, ⟨[.leaf 1, .leaf 2, .leaf 3]⟩⟩]⟩
    let sb : ThinSuperblock := .inCore ⟨⟨false⟩, 2, 0, 1, 128, 1024⟩
    let read : UInt64 → Except Unit (Block UInt64) := fun l => .ok ⟨l, l⟩
    let engine : Engine UInt64 Unit := ⟨1, by decide, fun cs => .ok (cs.map read)⟩
    let engine' : Engine UInt64 Unit := ⟨2, by decide, fun cs => .ok (cs.map read)⟩
    let out : Ir.Event → EStateM Unit (List Ir.Event) Ir.Visit := fun e s => .ok .continue (s ++ [e])
    (∀ cs, engine.readMany cs = .ok (cs.map read)) ∧ (∀ cs, engine'.readMany cs = .ok (cs.map read)) ∧
      dumpMetadata (fun d => if d = 2 then .unknown else .node)
          (fun d => .ok (.leaf [d] [⟨d + 100, 0⟩])) (fun _ => .error ()) engine out sb md =
        dumpMetadata (fun d => if d = 2 then .unknown else .node)
          (fun d => .ok (.leaf [d] [⟨d + 100, 0⟩])) (fun _ => .error ()) engine' out sb md := by
  intro md sb read engine engine' out
  exact ⟨fun _ => rfl, fun _ => rfl, dumpMetadata_batch_independent _ _ _ out engine engine' read
    (fun _ => rfl) (fun _ => rfl) sb md⟩

/-! ### Runs in thin space -/

/-- The run of a `map` callback; no run for the other callbacks. -/
def Ir.Event.mapRun : Ir.Event → Option Ir.Map
  | .map m => some m
  | _ => none

/-! ### The runs of a mapping -/

/-- The mappings of the leaves of `entries`, `leafMappings l` for each leaf `l`, in entry
order; references have none. -/
def leafTriples (leafMappings : UInt64 → List Triple) (entries : List Entry) : List Triple :=
  entries.flatMap fun
    | .leaf l => leafMappings l
    | .ref _ => []

/-- The runs of one segment: those of a fresh `RunBuilder` over a group, none for a
reference. -/
def segmentRuns (leafMappings : UInt64 → List Triple) : Segment → List Ir.Map
  | .leaves ls => buildRuns (ls.flatMap leafMappings)
  | .ref _ => []

section Runs

variable (leafMappings : UInt64 → List Triple)

theorem filterMap_mapRun_bodyEvents (entries : List Entry) :
    (bodyEvents leafMappings entries).filterMap Ir.Event.mapRun =
      (segments entries).flatMap (segmentRuns leafMappings) := by
  rw [bodyEvents, List.filterMap_flatMap]
  refine List.flatMap_congr fun seg _ => ?_
  cases seg <;> simp [segmentRuns, Ir.Event.mapRun, List.filterMap_map, Function.comp_def]

theorem leafTriples_segments (entries : List Entry) :
    leafTriples leafMappings entries =
      ((segments entries).map fun seg => leafTriples leafMappings seg.entries).flatten := by
  conv_lhs => rw [← entries_segments entries]
  rw [leafTriples, List.flatMap_assoc, List.flatMap_def]
  rfl

theorem sublist_leafTriples_of_mem_segments {entries : List Entry} {seg : Segment}
    (hseg : seg ∈ segments entries) :
    (leafTriples leafMappings seg.entries).Sublist (leafTriples leafMappings entries) := by
  rw [leafTriples_segments leafMappings entries]
  exact List.sublist_flatten_of_mem (List.mem_map_of_mem _ hseg)

@[simp] theorem leafTriples_leaves (ls : List UInt64) :
    leafTriples leafMappings (Segment.leaves ls).entries = ls.flatMap leafMappings := by
  simp [leafTriples, Segment.entries, List.flatMap_map]

/-- The runs of the segments expand back to the mappings of the leaves, no group having
`2 ^ 64` mappings or more. -/
theorem expand_segmentRuns (entries : List Entry)
    (hlen : (leafTriples leafMappings entries).length < 2 ^ 64) :
    ((segments entries).flatMap (segmentRuns leafMappings)).flatMap Ir.Map.expand =
      leafTriples leafMappings entries := by
  rw [List.flatMap_assoc, leafTriples_segments, ← List.flatMap_def]
  refine List.flatMap_congr fun seg hseg => ?_
  have hsub := sublist_leafTriples_of_mem_segments leafMappings hseg
  cases seg with
  | ref id => rfl
  | leaves ls =>
    rw [leafTriples_leaves] at hsub ⊢
    exact expand_buildRuns (lt_of_le_of_lt hsub.length_le hlen)

/-- The `map` callbacks of the body of a mapping: they expand back to the mappings of its
leaves, and each is non-empty. -/
theorem bodyEvents_runs (entries : List Entry)
    (hlen : (leafTriples leafMappings entries).length < 2 ^ 64) :
    ((bodyEvents leafMappings entries).filterMap Ir.Event.mapRun).flatMap Ir.Map.expand =
        leafTriples leafMappings entries ∧
      ∀ r ∈ (bodyEvents leafMappings entries).filterMap Ir.Event.mapRun, 1 ≤ r.len.toNat := by
  rw [filterMap_mapRun_bodyEvents]
  refine ⟨expand_segmentRuns leafMappings entries hlen, fun r hr => ?_⟩
  obtain ⟨seg, hseg, hr⟩ := List.mem_flatMap.1 hr
  have hsub := sublist_leafTriples_of_mem_segments leafMappings hseg
  cases seg with
  | ref id => cases hr
  | leaves ls =>
    rw [leafTriples_leaves] at hsub
    exact buildRuns_pos (lt_of_le_of_lt hsub.length_le hlen) r hr

end Runs

section Emit

variable {D ε σ : Type} (metadataBlockType : D → BT) (unpackNode : D → Except ε (Node BlockTime))
  (engine : Engine D ε) (out : Ir.Event → EStateM ε σ Ir.Visit)

/-- For every mapping whose leaf reads all succeed and decode as leaves, and whose leaf keys, in
entry order, are strictly increasing (fewer than `2 ^ 64` mappings), `emit_entries` makes a list
of callbacks whose `map` runs expand back to the mappings of the leaves, across every reference
and group boundary, and are non-empty, do not wrap, and are strictly increasing and pairwise
disjoint in thin space. The visitor is any. -/
theorem emitEntries_runs_increasing (entries : List Entry) (block : UInt64 → Block D)
    (hread : ∀ cs, (∀ l ∈ cs, Entry.leaf l ∈ entries) →
      engine.readMany cs = .ok (cs.map fun l => .ok (block l)))
    (keys : UInt64 → List UInt64) (values : UInt64 → List BlockTime)
    (hleaf : ∀ l, Entry.leaf l ∈ entries → metadataBlockType (block l).data = .node ∧
      unpackNode (block l).data = .ok (.leaf (keys l) (values l)))
    (hlen : (leafTriples (fun l => triples (keys l) (values l)) entries).length < 2 ^ 64)
    (hs : ((leafTriples (fun l => triples (keys l) (values l)) entries).map Prod.fst).Sorted
      (· < ·)) :
    ∃ evs : List Ir.Event,
      emitEntries metadataBlockType unpackNode engine out entries = evs.forM (callback out) ∧
      (evs.filterMap Ir.Event.mapRun).flatMap Ir.Map.expand =
        leafTriples (fun l => triples (keys l) (values l)) entries ∧
      (∀ r ∈ evs.filterMap Ir.Event.mapRun,
        1 ≤ r.len.toNat ∧ r.thinBegin.toNat + r.len.toNat ≤ 2 ^ 64) ∧
      (evs.filterMap Ir.Event.mapRun).Pairwise fun r r' =>
        r.thinBegin.toNat + r.len.toNat ≤ r'.thinBegin.toNat := by
  obtain ⟨hexp, hpos⟩ := bodyEvents_runs _ entries hlen
  obtain ⟨hend, hpair⟩ := Ir.Map.pairwise_disjoint_of_expand hpos (hexp ▸ hs)
  refine ⟨_, ?_, hexp, fun r hr => ⟨hpos r hr, hend r hr⟩, hpair⟩
  rw [emitEntries_eq_replay, entriesTrace_of_leaves metadataBlockType unpackNode engine entries
    hread fun l hl => leafOf_of_leaf metadataBlockType unpackNode (hleaf l hl).1 (hleaf l hl).2,
    replay_map_ok]

end Emit

/-- Two leaves around a reference, with increasing keys `1, 2` and `5`. -/
theorem emitEntries_runs_increasing_ref :
    let entries : List Entry := [.leaf 1, .ref 7, .leaf 5]
    let engine : Engine UInt64 Unit := ⟨2, by decide, fun cs => .ok (cs.map fun l => .ok ⟨l, l⟩)⟩
    let out : Ir.Event → EStateM Unit (List Ir.Event) Ir.Visit := fun e s => .ok .continue (s ++ [e])
    let keys : UInt64 → List UInt64 := fun l => if l = 1 then [1, 2] else [l]
    let values : UInt64 → List BlockTime := fun l => if l = 1 then [⟨10, 0⟩, ⟨11, 0⟩] else [⟨l, 0⟩]
    (leafTriples (fun l => triples (keys l) (values l)) entries).length < 2 ^ 64 ∧
      ((leafTriples (fun l => triples (keys l) (values l)) entries).map Prod.fst).Sorted (· < ·) ∧
      ∃ evs : List Ir.Event,
        emitEntries (fun _ => .node) (fun d => .ok (.leaf (keys d) (values d))) engine out entries =
          evs.forM (callback out) ∧
        (evs.filterMap Ir.Event.mapRun).Pairwise fun r r' =>
          r.thinBegin.toNat + r.len.toNat ≤ r'.thinBegin.toNat := by
  intro entries engine out keys values
  have hlen : (leafTriples (fun l => triples (keys l) (values l)) entries).length < 2 ^ 64 := by
    decide
  have hs : ((leafTriples (fun l => triples (keys l) (values l)) entries).map Prod.fst).Sorted
      (· < ·) := by decide
  obtain ⟨evs, hevs, -, -, hpair⟩ := emitEntries_runs_increasing (fun _ => .node)
    (fun d => .ok (.leaf (keys d) (values d))) engine out entries (fun l => ⟨l, l⟩)
    (fun _ _ => rfl) keys values (fun _ _ => ⟨rfl, rfl⟩) hlen hs
  exact ⟨hlen, hs, evs, hevs, hpair⟩

end ThinProvisioning.Thin
