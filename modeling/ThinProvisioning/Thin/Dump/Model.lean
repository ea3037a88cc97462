import ThinProvisioning.Thin.RunBuilder

/-!
# The dump of a metadata model

`dump_metadata` drives a `MetadataVisitor` through the superblock, the shared definitions and
the devices of a `Metadata`, reading the leaves of each mapping from the metadata device and
coalescing their mappings into runs. This file embeds it with everything it calls in
`thin/dump.rs`: `to_superblock_ir`, `emit_entries`, `emit_leaves`, `read_for`, `emit_leaf`, and
the methods `visit` and `end_walk` of `MappingVisitor`.

A visitor is a state `σ` that every callback may change and may fail on, so the dump runs in
`EStateM`: an error ends the dump and keeps the state the visitor had reached, as the Rust
visitor keeps what it has written. The closure that `read_for` calls is stateful (it holds the
`MappingVisitor` with its `RunBuilder`); here its state is passed explicitly. What the code takes
from other modules is a parameter: the I/O engine (`Engine`), the block-type check of
`checksum` (`metadataBlockType`), the node decoder of `pdata::btree` (`unpackNode`), the decoder
of a space-map root (`unpackSMRoot`) and the visitor (`out`).

## Main definitions

* `Entry`, `Metadata`: the model the dump reads; `ThinSuperblock`, `toSuperblockIr`.
* `Engine`, `chunks`: the engine's `read_many` and batch size, and Rust's `slice::chunks`.
* `DumpM`, `DumpError`, `callback`: the dump's monad, its errors, and a callback through
  `OutputVisitor`.
* `visit`, `endWalk`, `leafOf`, `emitLeaf`, `readFor`, `emitLeaves`, `emitEntries`,
  `dumpMetadata`: the functions of the source.

## References

* `src/src/thin/dump.rs`, lines 84–182 and 232–379.
-/

namespace ThinProvisioning.Thin

/-! ### The metadata model and the superblock -/

/-- `metadata::Entry`: a leaf of a mapping tree, held by this mapping alone, or a reference to a
shared definition. -/
inductive Entry
  | leaf (loc : UInt64)
  | ref (id : UInt64)
deriving DecidableEq, Repr

/-- `metadata::Mapping`: the entries of one mapping tree, leaves in key order. -/
structure Mapping where
  entries : List Entry
deriving DecidableEq, Repr

/-- The details of a device, as the device-details tree stores them. -/
structure DeviceDetail where
  mappedBlocks : UInt64
  transactionId : UInt64
  creationTime : UInt32
  snapshottedTime : UInt32
deriving DecidableEq, Repr

/-- `metadata::Def`: a shared definition. -/
structure Def where
  defId : UInt64
  map : Mapping
deriving DecidableEq, Repr

/-- `metadata::Device`: a thin device, its details and its mapping. -/
structure Device where
  thinId : UInt32
  detail : DeviceDetail
  map : Mapping
deriving DecidableEq, Repr

/-- `metadata::Metadata`: the shared definitions and the devices, in the order they are
dumped. -/
structure Metadata where
  defs : List Def
  devs : List Device
deriving DecidableEq, Repr

/-- The record `dump_metadata` passes to `device_b`. -/
def Device.toIr (dev : Device) : Ir.Device where
  devId := dev.thinId
  mappedBlocks := dev.detail.mappedBlocks
  transaction := dev.detail.transactionId
  creationTime := dev.detail.creationTime
  snapTime := dev.detail.snapshottedTime

/-- `block_time::BlockTime`: the value of a mapping, a data block and the time it was written. -/
structure BlockTime where
  block : UInt64
  time : UInt32
deriving DecidableEq, Repr

/-- The flags of the superblock that the dump reads. -/
structure SuperblockFlags where
  needsCheck : Bool
deriving DecidableEq, Repr

/-- The on-disk superblock, with the fields `to_superblock_ir` reads; `dataSmRoot` holds the
packed root of the data space map. -/
structure Superblock where
  flags : SuperblockFlags
  version : UInt32
  time : UInt32
  transactionId : UInt64
  dataSmRoot : List UInt8
  dataBlockSize : UInt32
deriving DecidableEq, Repr

/-- A superblock rebuilt by the repair path, with the number of data blocks in place of the
space-map root. -/
structure InCoreSuperblock where
  flags : SuperblockFlags
  version : UInt32
  time : UInt32
  transactionId : UInt64
  dataBlockSize : UInt32
  nrDataBlocks : UInt64
deriving DecidableEq, Repr

/-- `ThinSuperblock`: read from disk, or rebuilt in core. -/
inductive ThinSuperblock
  | onDisk (sb : Superblock)
  | inCore (sb : InCoreSuperblock)
deriving DecidableEq, Repr

/-- `SMRoot`, with the one field the dump reads. -/
structure SMRoot where
  nrBlocks : UInt64
deriving DecidableEq, Repr

section Superblock

variable {ε : Type} (unpackSMRoot : List UInt8 → Except ε SMRoot)

/-- `to_superblock_ir`: the superblock record of the output. Only the on-disk superblock can
fail, when its space-map root does not decode. -/
def toSuperblockIr : ThinSuperblock → Except ε Ir.Superblock
  | .onDisk sb => do
    let dataRoot ← unpackSMRoot sb.dataSmRoot
    pure { uuid := "", time := sb.time, transaction := sb.transactionId,
           flags := if sb.flags.needsCheck then some 1 else none, version := some sb.version,
           dataBlockSize := sb.dataBlockSize, nrDataBlocks := dataRoot.nrBlocks,
           metadataSnap := none }
  | .inCore sb =>
    pure { uuid := "", time := sb.time, transaction := sb.transactionId,
           flags := if sb.flags.needsCheck then some 1 else none, version := some sb.version,
           dataBlockSize := sb.dataBlockSize, nrDataBlocks := sb.nrDataBlocks,
           metadataSnap := none }

end Superblock

/-! ### Blocks, nodes and the engine -/

/-- `checksum::BT`: the kinds of metadata block. -/
inductive BT
  | thinSuperblock
  | node
  | index
  | bitmap
  | cacheSuperblock
  | eraSuperblock
  | unknown
deriving DecidableEq, Repr

/-- `btree::Node<V>`, without the header, which `emit_leaf` passes on unread. -/
inductive Node (V : Type)
  | internal (keys : List UInt64) (values : List UInt64)
  | leaf (keys : List UInt64) (values : List V)

/-- A block read from the metadata device: its location and its contents. -/
structure Block (D : Type) where
  loc : UInt64
  data : D

/-- The part of `IoEngine` the dump uses. `read_many` fails as a whole or gives one result per
block; the batch size is positive, as `slice::chunks` requires. -/
structure Engine (D ε : Type) where
  batchSize : Nat
  batchSize_pos : 0 < batchSize
  readMany : List UInt64 → Except ε (List (Except ε (Block D)))

/-- `xs.chunks(n)`: `xs` cut into consecutive pieces of `n` elements, the last one possibly
shorter. -/
def chunks {α : Type} (n : Nat) (hn : 0 < n) : List α → List (List α)
  | [] => []
  | x :: xs => (x :: xs).take n :: chunks n hn ((x :: xs).drop n)
termination_by xs => xs.length
decreasing_by simp only [List.length_drop, List.length_cons]; omega

theorem flatten_chunks {α : Type} (n : Nat) (hn : 0 < n) (xs : List α) :
    (chunks n hn xs).flatten = xs := by
  induction xs using chunks.induct n hn with
  | case1 => simp [chunks]
  | case2 x xs ih => rw [chunks, List.flatten_cons, ih, List.take_append_drop]

/-! ### The dump's monad -/

/-- The errors of the dump: those it raises itself, with the texts of its `anyhow!` messages,
and those of its collaborators, passed on by `?`. -/
inductive DumpError (ε : Type)
  /-- `"read_many failed"` -/
  | readManyFailed
  /-- `"read of individual block failed"` -/
  | readFailed
  /-- `"checksum failed for node {loc}, {bt:?}"` -/
  | checksumFailed (loc : UInt64) (bt : BT)
  /-- `"block {loc} is not a leaf"` -/
  | notLeaf (loc : UInt64)
  /-- an error of a decoder, `unpack_node` or `unpack::<SMRoot>` -/
  | unpack (e : ε)
  /-- an error of the visitor, under the context `OutputError` that `OutputVisitor` adds -/
  | output (e : ε)
deriving DecidableEq, Repr

/-- A computation of the dump: it changes the visitor's state `σ` and may fail, keeping the
state reached. -/
abbrev DumpM (ε σ : Type) := EStateM (DumpError ε) σ

/-- `x.map_err(f)?` on a result computed outside the visitor. -/
def liftExcept {ε ε' σ α : Type} (f : ε' → DumpError ε) : Except ε' α → DumpM ε σ α
  | .ok a => pure a
  | .error e => throw (f e)

section Dump

variable {D ε σ : Type} (metadataBlockType : D → BT) (unpackNode : D → Except ε (Node BlockTime))
  (unpackSMRoot : List UInt8 → Except ε SMRoot) (engine : Engine D ε)
  (out : Ir.Event → EStateM ε σ Ir.Visit)

/-- A callback made through `OutputVisitor`: an error of the visitor gets the context
`OutputError`, and the `Visit` returned is dropped by the `?;` of every call site. -/
def callback (e : Ir.Event) : DumpM ε σ Unit := fun s =>
  match out e s with
  | .ok _ s' => .ok () s'
  | .error err s' => .error (.output err) s'

/-! ### `MappingVisitor` and `emit_leaf` -/

/-- The mappings of a leaf, `(key, value.block, value.time)` for each key and value in turn. -/
def triples (keys : List UInt64) (values : List BlockTime) : List Triple :=
  (keys.zip values).map fun kv => (kv.1, kv.2.block, kv.2.time)

/-- One iteration of `MappingVisitor::visit`: `next` on one mapping, and `map` on the run it
returns, if any. -/
def visitStep (builder : RunBuilder) (kv : UInt64 × BlockTime) : DumpM ε σ RunBuilder := do
  let step := builder.next kv.1 kv.2.block kv.2.time
  match step.2 with
  | some run => callback out (.map run)
  | none => pure ()
  pure step.1

/-- `MappingVisitor::visit`: the mappings of a leaf through the builder, in key order. -/
def visit (builder : RunBuilder) (keys : List UInt64) (values : List BlockTime) :
    DumpM ε σ RunBuilder :=
  (keys.zip values).foldlM (visitStep out) builder

/-- `MappingVisitor::end_walk`: `map` on the open run, if any. -/
def endWalk (builder : RunBuilder) : DumpM ε σ Unit :=
  match builder.complete.2 with
  | some run => callback out (.map run)
  | none => pure ()

/-- The checks `emit_leaf` makes before its visit: the block is a B-tree node and decodes to a
leaf, whose keys and values are returned. -/
def leafOf (b : Block D) : Except (DumpError ε) (List UInt64 × List BlockTime) :=
  let bt := metadataBlockType b.data
  if bt ≠ .node then .error (.checksumFailed b.loc bt) else
  match unpackNode b.data with
  | .error e => .error (.unpack e)
  | .ok (.internal ..) => .error (.notLeaf b.loc)
  | .ok (.leaf keys values) => .ok (keys, values)

/-- `emit_leaf`: a block of the leaf group, checked and decoded, through `visit`. -/
def emitLeaf (builder : RunBuilder) (b : Block D) : DumpM ε σ RunBuilder := do
  let leaf ← liftExcept id (leafOf metadataBlockType unpackNode b)
  visit out builder leaf.1 leaf.2

/-! ### Reading, and the bodies of definitions and devices -/

/-- The inner loop of `read_for`: `t` on each block result of one `read_many`. -/
def readBlocks {α : Type} (t : α → Block D → DumpM ε σ α) (a : α)
    (rs : List (Except ε (Block D))) : DumpM ε σ α :=
  rs.foldlM (fun a r => do t a (← liftExcept (fun _ => .readFailed) r)) a

/-- `read_for`: read `blocks` in chunks of the engine's batch size and call `t` on each block
read, in order; `a` is the state of the closure `t`. -/
def readFor {α : Type} (blocks : List UInt64) (t : α → Block D → DumpM ε σ α) (a : α) :
    DumpM ε σ α :=
  (chunks engine.batchSize engine.batchSize_pos blocks).foldlM
    (fun a cs => do
      let rs ← liftExcept (fun _ => .readManyFailed) (engine.readMany cs)
      readBlocks t a rs) a

/-- `emit_leaves`: a fresh `MappingVisitor` over the leaf group, then `end_walk`. -/
def emitLeaves (leaves : List UInt64) : DumpM ε σ Unit := do
  let builder ← readFor engine leaves (emitLeaf metadataBlockType unpackNode out) RunBuilder.new
  endWalk out builder

/-- The body of the loop of `emit_entries`: a leaf joins the group being collected; a reference
first emits the group, if any, and is then passed to `ref_shared`. -/
def entriesStep (leaves : List UInt64) : Entry → DumpM ε σ (List UInt64)
  | .leaf b => pure (leaves ++ [b])
  | .ref id => do
    if !leaves.isEmpty then emitLeaves metadataBlockType unpackNode engine out leaves
    callback out (.refShared (toString id))
    pure []

/-- `emit_entries`: the loop over the entries, then the last group of leaves, if any. -/
def emitEntries (entries : List Entry) : DumpM ε σ Unit := do
  let leaves ← entries.foldlM (entriesStep metadataBlockType unpackNode engine out) []
  if !leaves.isEmpty then emitLeaves metadataBlockType unpackNode engine out leaves

/-- `dump_metadata`: the superblock, each shared definition, each device, and the end. -/
def dumpMetadata (sb : ThinSuperblock) (md : Metadata) : DumpM ε σ Unit := do
  let outSb ← liftExcept .unpack (toSuperblockIr unpackSMRoot sb)
  callback out (.superblockB outSb)
  md.defs.forM fun d => do
    callback out (.defSharedB (toString d.defId))
    emitEntries metadataBlockType unpackNode engine out d.map.entries
    callback out .defSharedE
  md.devs.forM fun dev => do
    callback out (.deviceB dev.toIr)
    emitEntries metadataBlockType unpackNode engine out dev.map.entries
    callback out .deviceE
  callback out .superblockE
  callback out .eof

end Dump

end ThinProvisioning.Thin
