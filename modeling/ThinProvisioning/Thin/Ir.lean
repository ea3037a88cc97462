import ThinProvisioning.Word

/-!
# The intermediate representation of a dump

`thin::ir` is the vocabulary between the dump and its output formats: a dump drives a
`MetadataVisitor` through a superblock, the shared definitions, the devices and their mapping
runs. The records are the ones `thin/dump.rs` builds, with the fields it sets; the visitor's
callbacks are one constructor each of `Ir.Event`, so that a visitor is a single function of the
event.

## Main definitions

* `Ir.Map`: a run of mappings, `thin_begin ↦ data_begin` for `len` blocks, all at `time`.
* `Ir.Superblock`, `Ir.Device`: the records passed to `superblock_b` and `device_b`.
* `Ir.Visit`, `Ir.Event`: the result of a callback, and the callbacks of `MetadataVisitor` that
  the dump makes.

## References

* `src/src/thin/dump.rs`, lines 27–76, 146–182 and 318–379.
-/

namespace ThinProvisioning.Thin.Ir

/-- `ir::Map`: the run of `len` mappings `thin_begin + j ↦ data_begin + j`, `j < len`, all
written at `time`. -/
structure Map where
  thinBegin : UInt64
  dataBegin : UInt64
  time : UInt32
  len : UInt64
deriving DecidableEq, Repr

/-- `ir::Superblock`, as `to_superblock_ir` fills it. -/
structure Superblock where
  uuid : String
  time : UInt32
  transaction : UInt64
  flags : Option UInt32
  version : Option UInt32
  dataBlockSize : UInt32
  nrDataBlocks : UInt64
  metadataSnap : Option UInt64
deriving DecidableEq, Repr

/-- `ir::Device`, as `dump_metadata` fills it from a device's details. -/
structure Device where
  devId : UInt32
  mappedBlocks : UInt64
  transaction : UInt64
  creationTime : UInt32
  snapTime : UInt32
deriving DecidableEq, Repr

/-- `ir::Visit`: what a callback asks of its caller. The dump reads only whether a callback
failed, never this value. -/
inductive Visit
  | «continue»
  | stop
deriving DecidableEq, Repr

/-- The callbacks of `MetadataVisitor` that a dump makes, with their arguments. -/
inductive Event
  | superblockB (sb : Superblock)
  | superblockE
  | defSharedB (name : String)
  | defSharedE
  | deviceB (d : Device)
  | deviceE
  | map (m : Map)
  | refShared (name : String)
  | eof
deriving DecidableEq, Repr

end ThinProvisioning.Thin.Ir
