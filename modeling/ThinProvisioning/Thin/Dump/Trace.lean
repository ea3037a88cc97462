import ThinProvisioning.Thin.Dump.ReadFor
import ThinProvisioning.Thin.Dump.Entries

/-!
# The callbacks of a dump

What a caller of `dump_metadata` observes is the sequence of callbacks its visitor receives and
where the dump stops. This file computes that sequence without running the visitor: the *trace*
of a dump is the list of its callbacks, in order, in which a failure of `to_superblock_ir`, of a
`read_many`, of a block read, of a block-type check or of a node decode appears as an error step
where it occurs. Running the dump is replaying its trace: making the callbacks in order and
stopping at the first error step or at the first callback that fails (`dumpMetadata_eq_replay`).
The visitor can stop the dump, but it cannot change which callbacks come before.

From this the dump fails fast (`dumpMetadata_fails_fast`): it succeeds exactly when the trace
has no error step and the visitor, given its callbacks in turn (`deliver`), accepts every one,
and when it fails, the visitor has received the callbacks before the failure and no other; in
particular the open run of the leaf group in progress is not flushed. When every read and
decode succeeds, the dump delivers to the visitor the sequence of callbacks the format
prescribes, the runs of each leaf group being those of a fresh `RunBuilder` over the group's
mappings (`dumpMetadata_callbacks`).

## Main definitions

* `Step`, `replay`: a callback or an error, and the run of a list of them.
* `deliver`: the visitor receiving a list of callbacks in turn, written from the spec.
* `leavesTrace`, `segmentTrace`, `entriesTrace`, `dumpTrace`: the traces of `emit_leaves`,
  `emit_entries` and `dump_metadata`.
* `bodyEvents`, `dumpEvents`: the callbacks of a dump whose reads and decodes all succeed.

## Main results

* `emitLeaves_eq_replay`, `emitEntries_eq_replay`, `dumpMetadata_eq_replay`: each function of
  the dump is the replay of its trace.
* `dumpMetadata_fails_fast`, `dumpMetadata_callbacks`.

## References

* `src/src/thin/dump.rs`, lines 97–132 and 234–379.
-/

namespace ThinProvisioning.Thin

/-- One step of a dump as the visitor and the caller observe it: a callback, or the error that
ends the dump. -/
abbrev Step (ε : Type) := Except (DumpError ε) Ir.Event

/-- The steps `map(run)` of a list of runs. -/
def mapSteps {ε : Type} (runs : List Ir.Map) : List (Step ε) :=
  runs.map fun r => .ok (.map r)

@[simp] theorem mapSteps_append {ε : Type} (p q : List Ir.Map) :
    (mapSteps (p ++ q) : List (Step ε)) = mapSteps p ++ mapSteps q :=
  List.map_append _ _ _

section Replay

variable {ε σ : Type} (out : Ir.Event → EStateM ε σ Ir.Visit)

/-- The visitor receiving the callbacks `evs` in turn, and nothing else: it stops at the first
callback that fails, with that callback's error. -/
def deliver : List Ir.Event → EStateM ε σ Unit
  | [] => pure ()
  | e :: evs => out e >>= fun _ => deliver evs

theorem deliver_append (l₁ l₂ : List Ir.Event) (s s' : σ) :
    deliver out (l₁ ++ l₂) s = .ok () s' ↔
      ∃ s₁, deliver out l₁ s = .ok () s₁ ∧ deliver out l₂ s₁ = .ok () s' := by
  induction l₁ generalizing s with
  | nil =>
    simp only [List.nil_append, deliver, EStateM.pure_apply, EStateM.Result.ok.injEq, true_and]
    exact ⟨fun h => ⟨s, rfl, h⟩, fun ⟨_, h₁, h₂⟩ => h₁ ▸ h₂⟩
  | cons e l₁ ih =>
    rw [List.cons_append]
    simp only [deliver, EStateM.bind_eq_ok_iff]
    constructor
    · rintro ⟨v, s₂, h, h'⟩
      obtain ⟨s₁, h₁, h₂⟩ := (ih s₂).1 h'
      exact ⟨s₁, ⟨v, s₂, h, h₁⟩, h₂⟩
    · rintro ⟨s₁, ⟨v, s₂, h, h₁⟩, h₂⟩
      exact ⟨v, s₂, h, (ih s₂).2 ⟨s₁, h₁, h₂⟩⟩

/-- Callbacks through `OutputVisitor` are the visitor receiving them in turn, its errors under
the context `OutputError`. -/
theorem forM_callback (evs : List Ir.Event) :
    evs.forM (callback out) = (deliver out evs).adaptExcept .output := by
  induction evs with
  | nil => rfl
  | cons e evs ih =>
    funext s
    rw [List.forM_cons', ih]
    show EStateM.bind (callback out e) _ s = EStateM.adaptExcept _ (EStateM.bind (out e) _) s
    simp only [EStateM.bind, callback, EStateM.adaptExcept]
    cases out e s <;> rfl

theorem adaptExcept_eq_ok_iff {ε' α : Type} (f : ε → ε') (x : EStateM ε σ α) (s s' : σ) (a : α) :
    x.adaptExcept f s = .ok a s' ↔ x s = .ok a s' := by
  simp only [EStateM.adaptExcept]
  cases x s <;> simp

theorem callback_eq_error_iff (ev : Ir.Event) (s s' : σ) (err : DumpError ε) :
    callback out ev s = .error err s' ↔ ∃ e, out ev s = .error e s' ∧ err = .output e := by
  simp only [callback]
  cases out ev s with
  | ok v s₁ => simp
  | error e s₁ =>
    simp only [EStateM.Result.error.injEq]
    exact ⟨fun ⟨h₁, h₂⟩ => ⟨e, ⟨rfl, h₂⟩, h₁.symm⟩, fun ⟨_, ⟨rfl, h₂⟩, h₁⟩ => ⟨h₁.symm, h₂⟩⟩

/-- The callbacks of the steps, in order, up to the first error step, which ends the run with
its error. -/
def replay (steps : List (Step ε)) : DumpM ε σ Unit :=
  foldResults (fun _ e => callback out e) () steps

@[simp] theorem replay_nil : replay out [] = pure () := rfl

theorem replay_cons_ok (e : Ir.Event) (steps : List (Step ε)) :
    replay out (.ok e :: steps) = callback out e >>= fun _ => replay out steps := rfl

theorem replay_cons_error (err : DumpError ε) (steps : List (Step ε)) :
    replay out (.error err :: steps) = throw err := rfl

theorem replay_append (p q : List (Step ε)) :
    replay out (p ++ q) = replay out p >>= fun _ => replay out q :=
  foldResults_append _ () p q

theorem replay_singleton (e : Ir.Event) : replay out [.ok e] = callback out e := by
  rw [replay_cons_ok, replay_nil, bind_pure]

theorem replay_flatMap {β : Type} (xs : List β) (g : β → List (Step ε)) :
    replay out (xs.flatMap g) = xs.forM fun x => replay out (g x) := by
  induction xs with
  | nil => rfl
  | cons x xs ih => rw [List.flatMap_cons, replay_append, ih, List.forM_cons']

theorem replay_map_ok (evs : List Ir.Event) :
    replay out (evs.map .ok) = evs.forM (callback out) := by
  induction evs with
  | nil => rfl
  | cons e evs ih => rw [List.map_cons, replay_cons_ok, ih, List.forM_cons']

theorem foldlM_callback_eq_forM (evs : List Ir.Event) :
    evs.foldlM (fun _ e => callback out e) () = evs.forM (callback out) := by
  rw [← foldResults_map_ok]
  exact replay_map_ok out evs

theorem replay_mapSteps_option (o : Option Ir.Map) :
    replay out (mapSteps o.toList) =
      match o with
      | some run => callback out (.map run)
      | none => pure () := by
  cases o <;> simp [mapSteps, replay_singleton]

end Replay

/-! ### The trace of a leaf group -/

section Leaves

variable {D ε σ : Type} (metadataBlockType : D → BT) (unpackNode : D → Except ε (Node BlockTime))
  (engine : Engine D ε) (out : Ir.Event → EStateM ε σ Ir.Visit)

/-- `visit` closes the runs that `feed` returns, in order, and leaves the builder `feed`
leaves. -/
theorem visit_eq_replay (b : RunBuilder) (keys : List UInt64) (values : List BlockTime) :
    visit out b keys values =
      replay out (mapSteps (b.feed (triples keys values)).2) >>= fun _ =>
        pure (b.feed (triples keys values)).1 := by
  rw [visit, triples]
  induction keys.zip values generalizing b with
  | nil => simp [mapSteps]
  | cons kv kvs ih =>
    simp only [List.foldlM_cons, visitStep, List.map_cons, RunBuilder.feed_cons, mapSteps_append,
      replay_append, replay_mapSteps_option, bind_assoc]
    cases (b.next kv.1 kv.2.block kv.2.time).2 <;> simp only [bind_assoc, pure_bind, ih]

/-- The steps of `emit_leaves` over the results `rs` of its reads, from the builder `b`: the
runs each leaf closes, and the open run at the end. A failed read, a block whose type is not
`NODE`, a block that does not decode, and an internal node are each the last step. -/
def leavesTrace (b : RunBuilder) : List (Except (DumpError ε) (Block D)) → List (Step ε)
  | [] => mapSteps b.run.toList
  | .error err :: _ => [.error err]
  | .ok blk :: rs =>
    if metadataBlockType blk.data ≠ .node then
      [.error (.checksumFailed blk.loc (metadataBlockType blk.data))]
    else
      match unpackNode blk.data with
      | .error e => [.error (.unpack e)]
      | .ok (.internal ..) => [.error (.notLeaf blk.loc)]
      | .ok (.leaf keys values) =>
        mapSteps (b.feed (triples keys values)).2 ++ leavesTrace (b.feed (triples keys values)).1 rs

/-- The checks of the trace are those of `emit_leaf`. -/
theorem leavesTrace_ok_cons (b : RunBuilder) (blk : Block D)
    (rs : List (Except (DumpError ε) (Block D))) :
    leavesTrace metadataBlockType unpackNode b (.ok blk :: rs) =
      match leafOf metadataBlockType unpackNode blk with
      | .error err => [.error err]
      | .ok leaf =>
        mapSteps (b.feed (triples leaf.1 leaf.2)).2 ++
          leavesTrace metadataBlockType unpackNode (b.feed (triples leaf.1 leaf.2)).1 rs := by
  rw [leavesTrace, leafOf]
  split_ifs
  · rfl
  · rcases unpackNode blk.data with e | ⟨_, _⟩ | ⟨keys, values⟩ <;> rfl

private theorem foldResults_emitLeaf (b : RunBuilder) (rs : List (Except (DumpError ε) (Block D))) :
    (foldResults (emitLeaf metadataBlockType unpackNode out) b rs >>= endWalk out) =
      replay out (leavesTrace metadataBlockType unpackNode b rs) := by
  induction rs generalizing b with
  | nil =>
    simp only [foldResults_nil, pure_bind, leavesTrace, endWalk, RunBuilder.complete_snd]
    exact (replay_mapSteps_option out _).symm
  | cons r rs ih =>
    cases r with
    | error e => rfl
    | ok blk =>
      simp only [foldResults_ok_cons, leavesTrace_ok_cons, emitLeaf]
      cases leafOf metadataBlockType unpackNode blk with
      | error e => rfl
      | ok leaf =>
        simp only [liftExcept, pure_bind, visit_eq_replay, bind_assoc, ih, replay_append]

/-- `emit_leaves` is the replay of the trace of its reads. -/
theorem emitLeaves_eq_replay (leaves : List UInt64) :
    emitLeaves metadataBlockType unpackNode engine out leaves =
      replay out (leavesTrace metadataBlockType unpackNode RunBuilder.new
        (readResults engine leaves)) := by
  rw [emitLeaves, readFor_eq_foldResults, foldResults_emitLeaf]

end Leaves

/-! ### The trace of a dump -/

section Dump

variable {D ε σ : Type} (metadataBlockType : D → BT) (unpackNode : D → Except ε (Node BlockTime))
  (unpackSMRoot : List UInt8 → Except ε SMRoot) (engine : Engine D ε)
  (out : Ir.Event → EStateM ε σ Ir.Visit)

/-- The steps of one segment of a mapping: those of `emit_leaves` over a group, or the
`ref_shared` of a reference. -/
def segmentTrace : Segment → List (Step ε)
  | .leaves ls => leavesTrace metadataBlockType unpackNode RunBuilder.new (readResults engine ls)
  | .ref id => [.ok (.refShared (toString id))]

/-- The steps of `emit_entries`: those of each segment, in order. -/
def entriesTrace (entries : List Entry) : List (Step ε) :=
  (segments entries).flatMap (segmentTrace metadataBlockType unpackNode engine)

/-- The steps of `dump_metadata`: the superblock, then for each definition and each device its
opening callback, the steps of its entries and its closing callback, then the end. The error
steps are exactly the failures of `to_superblock_ir`, of `read_many`, of block reads, of
block-type checks and of node decodes. -/
def dumpTrace (sb : ThinSuperblock) (md : Metadata) : List (Step ε) :=
  match toSuperblockIr unpackSMRoot sb with
  | .error e => [.error (.unpack e)]
  | .ok outSb =>
    .ok (.superblockB outSb) ::
      (md.defs.flatMap fun d =>
        .ok (.defSharedB (toString d.defId)) ::
          entriesTrace metadataBlockType unpackNode engine d.map.entries ++ [.ok .defSharedE]) ++
      (md.devs.flatMap fun dev =>
        .ok (.deviceB ⟨dev.thinId, dev.detail.mappedBlocks, dev.detail.transactionId,
          dev.detail.creationTime, dev.detail.snapshottedTime⟩) ::
          entriesTrace metadataBlockType unpackNode engine dev.map.entries ++ [.ok .deviceE]) ++
      [.ok .superblockE, .ok .eof]

theorem emitEntries_eq_replay (entries : List Entry) :
    emitEntries metadataBlockType unpackNode engine out entries =
      replay out (entriesTrace metadataBlockType unpackNode engine entries) := by
  rw [emitEntries_eq_forM_segments, entriesTrace, replay_flatMap]
  congr 1
  funext seg
  cases seg with
  | leaves ls => exact emitLeaves_eq_replay metadataBlockType unpackNode engine out ls
  | ref id => exact (replay_singleton out _).symm

/-- `dump_metadata` is the replay of its trace: the callbacks in order, stopping at the first
error step or at the first callback that fails. -/
theorem dumpMetadata_eq_replay (sb : ThinSuperblock) (md : Metadata) :
    dumpMetadata metadataBlockType unpackNode unpackSMRoot engine out sb md =
      replay out (dumpTrace metadataBlockType unpackNode unpackSMRoot engine sb md) := by
  rw [dumpMetadata, dumpTrace]
  cases toSuperblockIr unpackSMRoot sb with
  | error e => rfl
  | ok outSb =>
    simp only [liftExcept, pure_bind, replay_cons_ok, replay_append, replay_flatMap,
      List.cons_append, replay_nil, bind_pure_unit, emitEntries_eq_replay, bind_assoc,
      Device.toIr]

theorem dumpMetadata_eq_ok_iff (sb : ThinSuperblock) (md : Metadata) (s s' : σ) :
    dumpMetadata metadataBlockType unpackNode unpackSMRoot engine out sb md s = .ok () s' ↔
      ∃ evs : List Ir.Event,
        dumpTrace metadataBlockType unpackNode unpackSMRoot engine sb md = evs.map .ok ∧
        deliver out evs s = .ok () s' := by
  rw [dumpMetadata_eq_replay, replay, foldResults_eq_ok_iff]
  simp only [foldlM_callback_eq_forM, forM_callback, adaptExcept_eq_ok_iff]

theorem dumpMetadata_eq_error {sb : ThinSuperblock} {md : Metadata} {s s' : σ}
    {err : DumpError ε}
    (h : dumpMetadata metadataBlockType unpackNode unpackSMRoot engine out sb md s =
      .error err s') :
    ∃ (evs : List Ir.Event) (st : Step ε) (rest : List (Step ε)) (s₁ : σ),
      dumpTrace metadataBlockType unpackNode unpackSMRoot engine sb md =
        evs.map .ok ++ st :: rest ∧
      deliver out evs s = .ok () s₁ ∧
      ((st = .error err ∧ s' = s₁) ∨
        ∃ ev e, st = .ok ev ∧ out ev s₁ = .error e s' ∧ err = .output e) := by
  rw [dumpMetadata_eq_replay, replay] at h
  obtain ⟨evs, st, rest, _, s₁, htr, hpre, hend⟩ := foldResults_eq_error _ () _ s s' err h
  rw [foldlM_callback_eq_forM, forM_callback, adaptExcept_eq_ok_iff] at hpre
  refine ⟨evs, st, rest, s₁, htr, hpre, hend.imp_right fun ⟨ev, hst, hcb⟩ => ?_⟩
  obtain ⟨e, he, rfl⟩ := (callback_eq_error_iff out ev s₁ s' err).1 hcb
  exact ⟨ev, e, hst, he, rfl⟩

/-- The dump fails fast. It succeeds exactly when the trace has no error step
(`to_superblock_ir`, every `read_many`, every block read, every block-type check and every decode
succeed) and the visitor accepts every callback of the trace. When it fails, the visitor has
received the callbacks of a prefix of the trace, and nothing after: the dump stopped at the next
step, an error step, or a callback the visitor failed, whose error it returns under
`OutputError`. -/
theorem dumpMetadata_fails_fast (sb : ThinSuperblock) (md : Metadata) :
    (∀ s s', dumpMetadata metadataBlockType unpackNode unpackSMRoot engine out sb md s =
        .ok () s' ↔
      ∃ evs : List Ir.Event,
        dumpTrace metadataBlockType unpackNode unpackSMRoot engine sb md = evs.map .ok ∧
        deliver out evs s = .ok () s') ∧
    (∀ s err s', dumpMetadata metadataBlockType unpackNode unpackSMRoot engine out sb md s =
        .error err s' →
      ∃ (evs : List Ir.Event) (st : Step ε) (rest : List (Step ε)) (s₁ : σ),
        dumpTrace metadataBlockType unpackNode unpackSMRoot engine sb md =
          evs.map .ok ++ st :: rest ∧
        deliver out evs s = .ok () s₁ ∧
        ((st = .error err ∧ s' = s₁) ∨
          ∃ ev e, st = .ok ev ∧ out ev s₁ = .error e s' ∧ err = .output e)) :=
  ⟨dumpMetadata_eq_ok_iff metadataBlockType unpackNode unpackSMRoot engine out sb md,
    fun _ _ _ => dumpMetadata_eq_error metadataBlockType unpackNode unpackSMRoot engine out⟩

/-! ### The callbacks of a dump whose reads all succeed -/

/-- The leaf `l` belongs to a mapping of the model. -/
def Metadata.HasLeaf (md : Metadata) (l : UInt64) : Prop :=
  (∃ d ∈ md.defs, Entry.leaf l ∈ d.map.entries) ∨ ∃ dev ∈ md.devs, Entry.leaf l ∈ dev.map.entries

/-- The callbacks for the entries of a mapping, `leafMappings l` being the mappings of the leaf
at `l`: for each maximal group of consecutive leaves, `map` on each run a fresh `RunBuilder`
makes of the group's mappings, in order; `ref_shared` with the decimal id of each reference. -/
def bodyEvents (leafMappings : UInt64 → List Triple) (entries : List Entry) : List Ir.Event :=
  (segments entries).flatMap fun
    | .leaves ls => (buildRuns (ls.flatMap leafMappings)).map .map
    | .ref id => [.refShared (toString id)]

/-- The callbacks of a dump: `superblock_b`, each definition between `def_shared_b` and
`def_shared_e`, each device between `device_b` and `device_e`, then `superblock_e` and `eof`. -/
def dumpEvents (outSb : Ir.Superblock) (leafMappings : UInt64 → List Triple) (md : Metadata) :
    List Ir.Event :=
  .superblockB outSb ::
    (md.defs.flatMap fun d =>
      .defSharedB (toString d.defId) :: bodyEvents leafMappings d.map.entries ++ [.defSharedE]) ++
    (md.devs.flatMap fun dev =>
      .deviceB ⟨dev.thinId, dev.detail.mappedBlocks, dev.detail.transactionId,
        dev.detail.creationTime, dev.detail.snapshottedTime⟩ ::
        bodyEvents leafMappings dev.map.entries ++ [.deviceE]) ++
    [.superblockE, .eof]

section Reads

variable {block : UInt64 → Block D} {keys : UInt64 → List UInt64}
  {values : UInt64 → List BlockTime}

theorem leavesTrace_of_leaves (b : RunBuilder) (ls : List UInt64)
    (hleaf : ∀ l ∈ ls, leafOf metadataBlockType unpackNode (block l) = .ok (keys l, values l)) :
    leavesTrace metadataBlockType unpackNode b (ls.map fun l => .ok (block l)) =
      mapSteps (b.runsFrom (ls.flatMap fun l => triples (keys l) (values l))) := by
  induction ls generalizing b with
  | nil => rfl
  | cons l ls ih =>
    simp only [List.map_cons, leavesTrace_ok_cons, hleaf l (List.mem_cons_self l ls),
      ih _ (fun l' hl' => hleaf l' (List.mem_cons_of_mem l hl')), List.flatMap_cons,
      RunBuilder.runsFrom_append, mapSteps_append]

theorem entriesTrace_of_leaves (entries : List Entry)
    (hread : ∀ cs, (∀ l ∈ cs, Entry.leaf l ∈ entries) →
      engine.readMany cs = .ok (cs.map fun l => .ok (block l)))
    (hleaf : ∀ l, Entry.leaf l ∈ entries →
      leafOf metadataBlockType unpackNode (block l) = .ok (keys l, values l)) :
    entriesTrace metadataBlockType unpackNode engine entries =
      (bodyEvents (fun l => triples (keys l) (values l)) entries).map .ok := by
  rw [entriesTrace, bodyEvents, List.map_flatMap]
  refine List.flatMap_congr fun seg hseg => ?_
  cases seg with
  | ref id => rfl
  | leaves ls =>
    have hmem : ∀ l ∈ ls, Entry.leaf l ∈ entries := fun l hl =>
      mem_of_mem_segments hseg (List.mem_map_of_mem _ hl)
    have hres : readResults engine ls = ls.map fun l => .ok (block l) :=
      @readResults_of_chunks D ε engine (fun l => .ok (block l)) ls
        (fun cs hcs => hread cs fun l hl => hmem l (mem_of_mem_chunks hcs hl))
    simp only [segmentTrace, hres, leavesTrace_of_leaves metadataBlockType unpackNode _ ls
      (fun l hl => hleaf l (hmem l hl)), mapSteps, buildRuns_eq_runsFrom, List.map_map]
    rfl

theorem dumpTrace_of_reads {sb : ThinSuperblock} {md : Metadata} {outSb : Ir.Superblock}
    (hsb : toSuperblockIr unpackSMRoot sb = .ok outSb)
    (hread : ∀ cs, (∀ l ∈ cs, md.HasLeaf l) →
      engine.readMany cs = .ok (cs.map fun l => .ok (block l)))
    (hleaf : ∀ l, md.HasLeaf l →
      leafOf metadataBlockType unpackNode (block l) = .ok (keys l, values l)) :
    dumpTrace metadataBlockType unpackNode unpackSMRoot engine sb md =
      (dumpEvents outSb (fun l => triples (keys l) (values l)) md).map .ok := by
  have hdef : ∀ d ∈ md.defs, entriesTrace metadataBlockType unpackNode engine d.map.entries =
      (bodyEvents (fun l => triples (keys l) (values l)) d.map.entries).map .ok := fun d hd =>
    entriesTrace_of_leaves metadataBlockType unpackNode engine _
      (fun cs hcs => hread cs fun l hl => .inl ⟨d, hd, hcs l hl⟩)
      (fun l hl => hleaf l (.inl ⟨d, hd, hl⟩))
  have hdev : ∀ dev ∈ md.devs, entriesTrace metadataBlockType unpackNode engine dev.map.entries =
      (bodyEvents (fun l => triples (keys l) (values l)) dev.map.entries).map .ok := fun dev hd =>
    entriesTrace_of_leaves metadataBlockType unpackNode engine _
      (fun cs hcs => hread cs fun l hl => .inr ⟨dev, hd, hcs l hl⟩)
      (fun l hl => hleaf l (.inr ⟨dev, hd, hl⟩))
  simp only [dumpTrace, hsb, dumpEvents, List.map_cons, List.map_append, List.map_flatMap,
    List.map_nil]
  rw [List.flatMap_congr fun (d : Def) hd => by rw [hdef d hd],
    List.flatMap_congr fun (dev : Device) hd => by rw [hdev dev hd]]

end Reads

theorem leafOf_of_leaf {b : Block D} {keys : List UInt64} {values : List BlockTime}
    (hbt : metadataBlockType b.data = .node)
    (hnode : unpackNode b.data = .ok (.leaf keys values)) :
    leafOf metadataBlockType unpackNode b = .ok (keys, values) := by
  simp [leafOf, hbt, hnode]

/-- When the superblock converts, every read of leaf locations succeeds and answers each location
in request order, and every leaf block is a B-tree node that decodes to a leaf, `dump_metadata`
makes exactly the callbacks of `dumpEvents`, in order: the superblock; each definition, then
each device, with its body between its opening and closing callbacks; the end. A body is `map`
on the runs of a fresh `RunBuilder` over the mappings `(key, value.block, value.time)` of each
maximal group of consecutive leaves, in entry order and key order, and `ref_shared` on each
reference. The visitor is any: it receives these callbacks in turn, up to the first one that
fails, whose error the dump returns under `OutputError`. -/
theorem dumpMetadata_callbacks (sb : ThinSuperblock) (md : Metadata) (outSb : Ir.Superblock)
    (hsb : toSuperblockIr unpackSMRoot sb = .ok outSb) (block : UInt64 → Block D)
    (hread : ∀ cs, (∀ l ∈ cs, md.HasLeaf l) →
      engine.readMany cs = .ok (cs.map fun l => .ok (block l)))
    (keys : UInt64 → List UInt64) (values : UInt64 → List BlockTime)
    (hleaf : ∀ l, md.HasLeaf l → metadataBlockType (block l).data = .node ∧
      unpackNode (block l).data = .ok (.leaf (keys l) (values l))) :
    dumpMetadata metadataBlockType unpackNode unpackSMRoot engine out sb md =
      (deliver out (dumpEvents outSb (fun l => triples (keys l) (values l)) md)).adaptExcept
        .output := by
  rw [dumpMetadata_eq_replay, dumpTrace_of_reads metadataBlockType unpackNode unpackSMRoot engine
    hsb hread fun l hl => leafOf_of_leaf metadataBlockType unpackNode (hleaf l hl).1 (hleaf l hl).2,
    replay_map_ok, forM_callback]

/-- A device with two leaves of one mapping each, read by an engine of batch size one, and a
visitor that records its callbacks. -/
theorem dumpMetadata_callbacks_two_leaves :
    let md : Metadata := ⟨[], [⟨0, ⟨2, 1, 0, 0⟩, ⟨[.leaf 1, .leaf 2]⟩⟩]⟩
    let sb : ThinSuperblock := .inCore ⟨⟨false⟩, 2, 0, 1, 128, 1024⟩
    let outSb : Ir.Superblock := ⟨"", 0, 1, none, some 2, 128, 1024, none⟩
    let engine : Engine UInt64 Unit := ⟨1, by decide, fun cs => .ok (cs.map fun l => .ok ⟨l, l⟩)⟩
    let out : Ir.Event → EStateM Unit (List Ir.Event) Ir.Visit := fun e s => .ok .continue (s ++ [e])
    dumpMetadata (fun _ => .node) (fun d => .ok (.leaf [d] [⟨d + 100, 0⟩])) (fun _ => .error ())
        engine out sb md =
      (deliver out (dumpEvents outSb (fun l => triples [l] [⟨l + 100, 0⟩]) md)).adaptExcept
        .output := by
  intro md sb outSb engine out
  exact dumpMetadata_callbacks (fun _ => .node) (fun d => .ok (.leaf [d] [⟨d + 100, 0⟩]))
    (fun _ => .error ()) engine out sb md outSb rfl (fun l => ⟨l, l⟩) (fun _ _ => rfl)
    (fun l => [l]) (fun l => [⟨l + 100, 0⟩]) (fun _ _ => ⟨rfl, rfl⟩)

end Dump

end ThinProvisioning.Thin
