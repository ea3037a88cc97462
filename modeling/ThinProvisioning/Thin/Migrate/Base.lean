import ThinProvisioning.Word
import ThinProvisioning.EState

/-!
# The copy operations of a migration

`copy_regions` reads the chunks of a thin device from a stream and pushes a `CopyOp` to a
batcher for each block to copy: nothing for a `Skip` chunk, and for a `Copy` chunk the blocks
from `offset / block_size` up to `(offset + len) / block_size`, the end excluded, each copied to
the same block of the destination. A copier thread then carries the operations out.

Both ends are rounded down, and `copy_regions` checks no alignment. The blocks pushed for a
`Copy` chunk therefore cover the positions from `offset` and `offset + len`, each rounded down
to a multiple of the block size (`copyRegions_covers`). This is the chunk itself when its
offset and length are multiples of the block size, as the chunks of a thin device are; an
unaligned chunk loses its partial last block and takes the start of its first block from what
comes before it (`copyRegions_unaligned_chunk`).

The model keeps the operations pushed, in order. The batcher, the channel, the copier thread
and the progress report are left out; so are the stream's errors, which end the loop after the
chunks read so far.

Before the copy, `migrate` reads the length of the source and opens the destination: a block
device or an existing file must already have that length, and a file opened with `create` is
given it by `set_len`. Whatever the destination, once it is open it has the source's length
(`openDest_fileSize`); the two checks report a difference with two texts, one with a colon and
one without.

## Main definitions

* `ChunkContents`, `Chunk`, `CopyOp`.
* `rangeU64`, `chunkOps`, `copyRegions`.
* `Os`: the calls to the file system, with the contract of `set_len`.
* `openDestDev`, `openDestFile`, `openDest`, `migrate`.

## Main results

* `copyRegions_eq_some`, `mem_chunkOps`: the operations pushed, chunk by chunk.
* `copyRegions_covers`: the positions they cover.
* `copyRegions_increasing`: on a stream of increasing chunks, no block is copied twice.
* `openDest_fileSize`: an open destination has the length asked for.

## References

* `src/src/thin/migrate/base.rs`, lines 24–46 and 90–211.
-/

namespace ThinProvisioning.Thin.Migrate

/-- `ChunkContents`: what the stream says of a range of the thin device. -/
inductive ChunkContents
  | skip
  | copy
  | discard
deriving DecidableEq, Repr

/-- `Chunk`: a range of the thin device, `offset` and `len` in the unit of the block size. -/
structure Chunk where
  offset : UInt64
  len : UInt64
  contents : ChunkContents
deriving DecidableEq, Repr

/-- `CopyOp`: copy block `src` of the source to block `dst` of the destination. -/
structure CopyOp where
  src : UInt64
  dst : UInt64
deriving DecidableEq, Repr

/-- `lo..hi` over `u64`: the numbers from `lo` up to `hi`, `hi` excluded. -/
def rangeU64 (lo hi : UInt64) : List UInt64 :=
  (List.range' lo.toNat (hi.toNat - lo.toNat)).map UInt64.ofNat

theorem mem_rangeU64 {lo hi b : UInt64} : b ∈ rangeU64 lo hi ↔ lo.toNat ≤ b.toNat ∧ b.toNat < hi.toNat := by
  simp only [rangeU64, List.mem_map, List.mem_range'_1]
  constructor
  · rintro ⟨m, hm, rfl⟩
    have := hi.toNat_lt_two_pow
    rw [UInt64.toNat_ofNat_eq, Nat.mod_eq_of_lt (by omega)]
    omega
  · intro hb
    exact ⟨b.toNat, by omega, UInt64.ofNat_toNat_eq b⟩

/-- The body of the loop of `copy_regions` for one chunk: the operations it pushes, or `none`
when it reaches the `todo!()` of a `Discard` chunk. -/
def chunkOps (blockSize : UInt64) (chunk : Chunk) : Option (List CopyOp) :=
  match chunk.contents with
  | .skip => some []
  | .copy => some ((rangeU64 (chunk.offset / blockSize)
      ((chunk.offset + chunk.len) / blockSize)).map fun b => ⟨b, b⟩)
  | .discard => none

/-- `copy_regions`: the operations pushed to the batcher, in order, over the chunks of the
stream; `none` when the program panics, by a division by a zero block size before the loop, or
at a `Discard` chunk. -/
def copyRegions (blockSize : UInt64) (chunks : List Chunk) : Option (List CopyOp) :=
  if blockSize = 0 then none else
  chunks.foldlM (fun ops chunk => (ops ++ ·) <$> chunkOps blockSize chunk) []

/-! ### The operations pushed -/

section Ops

variable {blockSize : UInt64}

/-- With no `Discard` chunk, the loop pushes the operations of each chunk in turn. -/
theorem foldlM_chunkOps {chunks : List Chunk} (hdiscard : ∀ c ∈ chunks, c.contents ≠ .discard)
    (acc : List CopyOp) :
    chunks.foldlM (fun ops chunk => (ops ++ ·) <$> chunkOps blockSize chunk) acc =
      some (acc ++ chunks.flatMap fun c => (chunkOps blockSize c).getD []) := by
  induction chunks generalizing acc with
  | nil => simp
  | cons c chunks ih =>
    simp only [List.mem_cons, forall_eq_or_imp] at hdiscard
    obtain ⟨ops, hops⟩ : ∃ ops, chunkOps blockSize c = some ops := by
      unfold chunkOps
      split
      · exact ⟨_, rfl⟩
      · exact ⟨_, rfl⟩
      · next h => exact absurd h hdiscard.1
    simp only [Option.map_eq_map] at ih ⊢
    simp only [List.foldlM_cons, hops, Option.map_some', Option.bind_eq_bind, Option.some_bind,
      ih hdiscard.2, List.flatMap_cons, Option.getD_some, List.append_assoc]

/-- An operation is pushed for a `Copy` chunk, on one of the blocks from `offset / block_size`
up to `(offset + len) / block_size`, to the same block. -/
theorem mem_chunkOps {c : Chunk} {op : CopyOp} :
    op ∈ (chunkOps blockSize c).getD [] ↔ c.contents = .copy ∧ op.src = op.dst ∧
      (c.offset / blockSize).toNat ≤ op.src.toNat ∧
      op.src.toNat < ((c.offset + c.len) / blockSize).toNat := by
  unfold chunkOps
  split
  · next h => simp [h]
  · next h =>
    simp only [Option.getD_some, List.mem_map, mem_rangeU64, h, true_and]
    constructor
    · rintro ⟨b, hb, rfl⟩
      exact ⟨rfl, hb⟩
    · rintro ⟨hsd, hb⟩
      exact ⟨op.src, hb, by cases op; dsimp only at hsd ⊢; rw [hsd]⟩
  · next h => simp [h]

theorem copyRegions_eq_some {chunks : List Chunk} (hbs : blockSize ≠ 0)
    (hdiscard : ∀ c ∈ chunks, c.contents ≠ .discard) :
    copyRegions blockSize chunks = some (chunks.flatMap fun c => (chunkOps blockSize c).getD []) := by
  rw [copyRegions, if_neg hbs, foldlM_chunkOps hdiscard, List.nil_append]

/-! ### The positions covered -/

/-- The blocks from `lo` up to `hi` cover the positions from `lo * bs` up to `hi * bs`. -/
theorem exists_block_iff {bs lo hi p : Nat} (hbs : 0 < bs) :
    (∃ b, lo ≤ b ∧ b < hi ∧ b * bs ≤ p ∧ p < (b + 1) * bs) ↔ lo * bs ≤ p ∧ p < hi * bs := by
  constructor
  · rintro ⟨b, hlo, hhi, hp, hp'⟩
    exact ⟨(Nat.mul_le_mul_right bs hlo).trans hp, hp'.trans_le (Nat.mul_le_mul_right bs hhi)⟩
  · rintro ⟨hp, hp'⟩
    refine ⟨p / bs, (Nat.le_div_iff_mul_le hbs).2 hp, (Nat.div_lt_iff_lt_mul hbs).2 hp',
      Nat.div_mul_le_self p bs, ?_⟩
    rw [Nat.succ_mul]
    exact Nat.lt_div_mul_add hbs

/-- The operations pushed for a chunk cover the positions from `offset` to `offset + len`,
both rounded down to a multiple of the block size, when the chunk is a `Copy` chunk. -/
theorem covers_chunkOps {c : Chunk} (hbs : blockSize ≠ 0)
    (hfit : c.offset.toNat + c.len.toNat < 2 ^ 64) (p : Nat) :
    (∃ op ∈ (chunkOps blockSize c).getD [], op.src.toNat * blockSize.toNat ≤ p ∧
        p < (op.src.toNat + 1) * blockSize.toNat) ↔
      c.contents = .copy ∧ c.offset.toNat / blockSize.toNat * blockSize.toNat ≤ p ∧
        p < (c.offset.toNat + c.len.toNat) / blockSize.toNat * blockSize.toNat := by
  have hpos : 0 < blockSize.toNat := Nat.pos_of_ne_zero fun h => hbs (UInt64.eq_iff_toNat_eq.2 h)
  have hend : (c.offset + c.len).toNat = c.offset.toNat + c.len.toNat := by
    rw [UInt64.toNat_add_eq, Nat.mod_eq_of_lt hfit]
  rw [← exists_block_iff hpos]
  simp only [mem_chunkOps, UInt64.toNat_div, hend]
  constructor
  · rintro ⟨op, ⟨hc, -, hlo, hhi⟩, hp⟩
    exact ⟨hc, op.src.toNat, hlo, hhi, hp⟩
  · rintro ⟨hc, b, hlo, hhi, hp⟩
    have hb : (UInt64.ofNat b).toNat = b := by
      rw [UInt64.toNat_ofNat_eq, Nat.mod_eq_of_lt]
      exact hhi.trans_le ((Nat.div_le_self _ _).trans hfit.le)
    refine ⟨⟨UInt64.ofNat b, UInt64.ofNat b⟩, ⟨hc, rfl, ?_⟩, ?_⟩ <;> dsimp only <;> rw [hb]
    exacts [⟨hlo, hhi⟩, hp]

/-- For a block size of at least one and a stream of `Skip` and `Copy` chunks that do not pass
`u64::MAX`, `copy_regions` pushes operations that copy each block to itself. They cover the
positions from `offset` to `offset + len` of each `Copy` chunk, both rounded down to a multiple
of the block size, and nothing else; when the offset and the length of every `Copy` chunk are
multiples of the block size, these are exactly the positions of the `Copy` chunks. -/
theorem copyRegions_covers (blockSize : UInt64) (chunks : List Chunk) (hbs : blockSize ≠ 0)
    (hdiscard : ∀ c ∈ chunks, c.contents ≠ .discard)
    (hfit : ∀ c ∈ chunks, c.offset.toNat + c.len.toNat < 2 ^ 64) :
    ∃ ops, copyRegions blockSize chunks = some ops ∧ (∀ op ∈ ops, op.src = op.dst) ∧
      (∀ p : Nat, (∃ op ∈ ops, op.src.toNat * blockSize.toNat ≤ p ∧
          p < (op.src.toNat + 1) * blockSize.toNat) ↔
        ∃ c ∈ chunks, c.contents = .copy ∧
          c.offset.toNat / blockSize.toNat * blockSize.toNat ≤ p ∧
          p < (c.offset.toNat + c.len.toNat) / blockSize.toNat * blockSize.toNat) ∧
      ((∀ c ∈ chunks, c.contents = .copy →
          blockSize.toNat ∣ c.offset.toNat ∧ blockSize.toNat ∣ c.len.toNat) →
        ∀ p : Nat, (∃ op ∈ ops, op.src.toNat * blockSize.toNat ≤ p ∧
            p < (op.src.toNat + 1) * blockSize.toNat) ↔
          ∃ c ∈ chunks, c.contents = .copy ∧ c.offset.toNat ≤ p ∧
            p < c.offset.toNat + c.len.toNat) := by
  have hcov : ∀ p : Nat, (∃ op ∈ chunks.flatMap fun c => (chunkOps blockSize c).getD [],
      op.src.toNat * blockSize.toNat ≤ p ∧ p < (op.src.toNat + 1) * blockSize.toNat) ↔
      ∃ c ∈ chunks, c.contents = .copy ∧
        c.offset.toNat / blockSize.toNat * blockSize.toNat ≤ p ∧
        p < (c.offset.toNat + c.len.toNat) / blockSize.toNat * blockSize.toNat := fun p => by
    constructor
    · rintro ⟨op, hop, hp⟩
      obtain ⟨c, hc, hop⟩ := List.mem_flatMap.1 hop
      exact ⟨c, hc, (covers_chunkOps hbs (hfit c hc) p).1 ⟨op, hop, hp⟩⟩
    · rintro ⟨c, hc, h⟩
      obtain ⟨op, hop, hp⟩ := (covers_chunkOps hbs (hfit c hc) p).2 h
      exact ⟨op, List.mem_flatMap.2 ⟨c, hc, hop⟩, hp⟩
  refine ⟨_, copyRegions_eq_some hbs hdiscard, fun op hop => ?_, hcov,
    fun halign p => (hcov p).trans ?_⟩
  · obtain ⟨c, -, hop⟩ := List.mem_flatMap.1 hop
    exact (mem_chunkOps.1 hop).2.1
  · refine exists_congr fun c => and_congr_right fun hc => and_congr_right fun hcopy => ?_
    obtain ⟨ho, hl⟩ := halign c hc hcopy
    rw [Nat.div_mul_cancel ho, Nat.div_mul_cancel (Nat.dvd_add ho hl)]

/-! ### The order of the operations -/

/-- The operations pushed for one chunk copy increasing blocks. -/
theorem sorted_chunkOps (c : Chunk) :
    (((chunkOps blockSize c).getD []).map fun op => op.src.toNat).Sorted (· < ·) := by
  unfold chunkOps
  split
  · exact List.sorted_nil
  · simp only [Option.getD_some, List.map_map, rangeU64, List.Sorted, List.pairwise_map]
    refine (List.pairwise_lt_range' _ _).imp_of_mem fun {a b} ha hb hab => ?_
    rw [List.mem_range'_1] at ha hb
    have := ((c.offset + c.len) / blockSize).toNat_lt_two_pow
    simp only [Function.comp, UInt64.toNat_ofNat_eq]
    rw [Nat.mod_eq_of_lt (by omega), Nat.mod_eq_of_lt (by omega)]
    exact hab
  · exact List.sorted_nil

/-- For a block size of at least one and a stream of `Skip` and `Copy` chunks that do not pass
`u64::MAX` and come in increasing order without overlapping, `copy_regions` pushes operations on
strictly increasing blocks: no block is copied twice, even where an unaligned chunk shares a
block with the chunk before it. -/
theorem copyRegions_increasing (blockSize : UInt64) (chunks : List Chunk) (hbs : blockSize ≠ 0)
    (hdiscard : ∀ c ∈ chunks, c.contents ≠ .discard)
    (hfit : ∀ c ∈ chunks, c.offset.toNat + c.len.toNat < 2 ^ 64)
    (hord : chunks.Chain' fun c c' => c.offset.toNat + c.len.toNat ≤ c'.offset.toNat) :
    ∃ ops, copyRegions blockSize chunks = some ops ∧ (ops.map fun op => op.src.toNat).Sorted (· < ·) := by
  refine ⟨_, copyRegions_eq_some hbs hdiscard, ?_⟩
  haveI : IsTrans Chunk fun c c' => c.offset.toNat + c.len.toNat ≤ c'.offset.toNat :=
    ⟨fun _ _ _ h h' => by omega⟩
  rw [List.Sorted, List.map_flatMap, List.pairwise_flatMap]
  refine ⟨fun c _ => sorted_chunkOps c, (List.chain'_iff_pairwise.1 hord).imp_of_mem fun {c c'} hc hc' hle => ?_⟩
  intro x hx y hy
  obtain ⟨op, hop, rfl⟩ := List.mem_map.1 hx
  obtain ⟨op', hop', rfl⟩ := List.mem_map.1 hy
  have h := (mem_chunkOps.1 hop).2.2.2
  have h' := (mem_chunkOps.1 hop').2.2.1
  have hend : (c.offset + c.len).toNat = c.offset.toNat + c.len.toNat := by
    rw [UInt64.toNat_add_eq, Nat.mod_eq_of_lt (hfit c hc)]
  rw [UInt64.toNat_div, hend] at h
  rw [UInt64.toNat_div] at h'
  calc op.src.toNat < (c.offset.toNat + c.len.toNat) / blockSize.toNat := h
    _ ≤ c'.offset.toNat / blockSize.toNat := Nat.div_le_div_right hle
    _ ≤ op'.src.toNat := h'

end Ops

/-- Two unaligned `Copy` chunks that share block `1` of size two: blocks `0`, then `1` and `2`. -/
theorem copyRegions_increasing_unaligned :
    ∃ ops, copyRegions 2 [⟨0, 3, .copy⟩, ⟨3, 3, .copy⟩] = some ops ∧
      (ops.map fun op => op.src.toNat).Sorted (· < ·) :=
  copyRegions_increasing 2 [⟨0, 3, .copy⟩, ⟨3, 3, .copy⟩] (by decide) (by decide) (by decide)
    (by simp)

/-- Block size two, and an aligned stream: four positions to copy, then two to skip. -/
theorem copyRegions_covers_aligned :
    ∃ ops, copyRegions 2 [⟨0, 4, .copy⟩, ⟨4, 2, .skip⟩] = some ops ∧
      ∀ op ∈ ops, op.src = op.dst :=
  let ⟨ops, hops, hsd, _⟩ := copyRegions_covers 2 [⟨0, 4, .copy⟩, ⟨4, 2, .skip⟩] (by decide)
    (by decide) (by decide)
  ⟨ops, hops, hsd⟩

/-- A `Copy` chunk of two positions from position one, after a `Skip` chunk of position zero,
with a block size of two: `copy_regions` copies block `0`, positions `0` and `1`. Position `0`
belongs to the `Skip` chunk, and position `2` of the `Copy` chunk is not copied. -/
theorem copyRegions_unaligned_chunk :
    copyRegions 2 [⟨0, 1, .skip⟩, ⟨1, 2, .copy⟩] = some [⟨0, 0⟩] ∧
      ¬ ∀ p : Nat, (∃ op ∈ [(⟨0, 0⟩ : CopyOp)], op.src.toNat * 2 ≤ p ∧ p < (op.src.toNat + 1) * 2) ↔
        ∃ c ∈ [(⟨0, 1, .skip⟩ : Chunk), ⟨1, 2, .copy⟩], c.contents = .copy ∧ c.offset.toNat ≤ p ∧
          p < c.offset.toNat + c.len.toNat := by
  refine ⟨by decide, fun h => ?_⟩
  obtain ⟨c, hc, hcopy, h0, -⟩ := (h 0).1 ⟨⟨0, 0⟩, List.mem_singleton_self _, by decide, by decide⟩
  simp only [List.mem_cons, List.mem_singleton, List.not_mem_nil, or_false] at hc
  rcases hc with rfl | rfl
  · exact absurd hcopy (by decide)
  · exact absurd h0 (by decide)

/-! ### Opening the destination, and the migration -/

/-- `OpenOptions`, with the flags `migrate` sets: `O_EXCL | O_DIRECT` as one flag. -/
structure OpenOptions where
  read : Bool
  write : Bool
  create : Bool
  exclusiveDirect : Bool
deriving DecidableEq, Repr

/-- The calls to the system that `migrate` makes to open its files, on a state `φ` of the file
system: `OpenOptions::open`, `file_utils::file_size` and `File::set_len`, each of which may fail.
After `set_len`, the file has the length asked for. -/
structure Os (Path φ ε : Type) where
  openFile : OpenOptions → Path → φ → Except ε φ
  fileSize : Path → φ → Except ε UInt64
  setLen : Path → UInt64 → φ → Except ε φ
  fileSize_setLen : ∀ p n s s', setLen p n s = .ok s' → fileSize p s' = .ok n

/-- `SourceArgs`: the thin device to read. -/
structure SourceArgs (Path : Type) where
  path : Path

/-- `FileDestArgs`. -/
structure FileDestArgs (Path : Type) where
  path : Path
  create : Bool

/-- `DestArgs`: a block device, or a file that may be created. -/
inductive DestArgs (Path : Type)
  | dev (path : Path)
  | file (args : FileDestArgs Path)

/-- The path of the destination. -/
def DestArgs.path {Path : Type} : DestArgs Path → Path
  | .dev path => path
  | .file args => args.path

/-- The errors of opening the files: those of the system, and the two `anyhow!` messages of a
destination whose length is not the source's. -/
inductive MigrateError (ε : Type)
  | io (e : ε)
  /-- `"lengths differ: input({}) != output({})"`, for a block device -/
  | lengthsDifferDev (input output : UInt64)
  /-- `"lengths differ input({}) != output({})"`, for a file -/
  | lengthsDifferFile (input output : UInt64)

/-- The text of an error that `migrate` raises itself. -/
def MigrateError.message {ε : Type} : MigrateError ε → Option String
  | .io _ => none
  | .lengthsDifferDev i o => some ("lengths differ: input(" ++ toString i ++ ") != output(" ++
      toString o ++ ")")
  | .lengthsDifferFile i o => some ("lengths differ input(" ++ toString i ++ ") != output(" ++
      toString o ++ ")")

/-- The source `open_source` opens: the stream of its chunks and its data block size. -/
structure Source (Path : Type) where
  file : Path
  stream : List Chunk
  blockSize : UInt64

/-- The options of a migration that the model reads. -/
structure ThinMigrateOptions (Path : Type) where
  source : SourceArgs Path
  dest : DestArgs Path

section Migrate

variable {Path φ ε : Type} (os : Os Path φ ε)

/-- The opening of the files: a computation on the file system that may fail. -/
abbrev MigrateM (ε φ : Type) := EStateM (MigrateError ε) φ

/-- A call to the system that changes the file system, `?` on its result. -/
def sysUpdate (call : φ → Except ε φ) : MigrateM ε φ Unit := fun s =>
  match call s with
  | .ok s' => .ok () s'
  | .error e => .error (.io e) s

/-- A call to the system that reads the file system, `?` on its result. -/
def sysRead {α : Type} (call : φ → Except ε α) : MigrateM ε φ α := fun s =>
  match call s with
  | .ok a => .ok a s
  | .error e => .error (.io e) s

/-- `open_dest_dev`: open the device, and check that its length is the source's. -/
def openDestDev (path : Path) (expectedLen : UInt64) : MigrateM ε φ Path := do
  sysUpdate (os.openFile ⟨true, true, false, true⟩ path)
  let actualLen ← sysRead (os.fileSize path)
  if actualLen ≠ expectedLen then throw (.lengthsDifferDev expectedLen actualLen)
  pure path

/-- `open_dest_file`: create the file and give it the source's length, or open it and check
that its length is the source's. -/
def openDestFile (path : Path) (create : Bool) (expectedLen : UInt64) : MigrateM ε φ Path :=
  if create then do
    sysUpdate (os.openFile ⟨true, true, create, false⟩ path)
    sysUpdate (os.setLen path expectedLen)
    pure path
  else do
    sysUpdate (os.openFile ⟨true, true, false, false⟩ path)
    let actualLen ← sysRead (os.fileSize path)
    if actualLen ≠ expectedLen then throw (.lengthsDifferFile expectedLen actualLen)
    pure path

/-- `open_dest`. -/
def openDest (dst : DestArgs Path) (expectedLen : UInt64) : MigrateM ε φ Path :=
  match dst with
  | .dev path => openDestDev os path expectedLen
  | .file fdest => openDestFile os fdest.path fdest.create expectedLen

/-- `migrate`: open the source, read its length, open the destination, then `copy_regions`,
whose operations are returned (`none` for a panic). `open_source` is a parameter. -/
def migrate (openSource : SourceArgs Path → MigrateM ε φ (Source Path))
    (opts : ThinMigrateOptions Path) : MigrateM ε φ (Option (List CopyOp)) := do
  let src ← openSource opts.source
  let expectedLen ← sysRead (os.fileSize opts.source.path)
  let _ ← openDest os opts.dest expectedLen
  pure (copyRegions src.blockSize src.stream)

theorem sysUpdate_eq_ok_iff {call : φ → Except ε φ} {s s' : φ} {u : Unit} :
    sysUpdate call s = .ok u s' ↔ call s = .ok s' := by
  unfold sysUpdate
  split <;> simp_all

theorem sysRead_eq_ok_iff {α : Type} {call : φ → Except ε α} {s s' : φ} {a : α} :
    sysRead call s = .ok a s' ↔ call s = .ok a ∧ s' = s := by
  unfold sysRead
  split <;> simp_all [eq_comm]

/-- The check of `open_dest_dev` and of `open_dest_file` on an existing file passes only when
the length read is the one asked for, and changes nothing. -/
theorem check_eq_ok {actualLen expectedLen : UInt64} {e : MigrateError ε} {p p' : Path}
    {s s' : φ}
    (h : (show MigrateM ε φ Path from do
      if actualLen ≠ expectedLen then throw e
      pure p) s = .ok p' s') :
    actualLen = expectedLen ∧ s' = s := by
  by_cases hc : actualLen = expectedLen
  · simp only [hc, ne_eq, not_true_eq_false, if_false] at h
    cases h
    exact ⟨hc, rfl⟩
  · simp only [ne_eq, hc, not_false_eq_true, if_true] at h
    cases h

/-- Whenever `open_dest` succeeds, the destination has the length asked for. -/
theorem openDest_fileSize {dst : DestArgs Path} {expectedLen : UInt64} {s s' : φ} {p : Path}
    (h : openDest os dst expectedLen s = .ok p s') : os.fileSize dst.path s' = .ok expectedLen := by
  rcases dst with path | ⟨path, _ | _⟩ <;>
    simp only [openDest, openDestDev, openDestFile, Bool.false_eq_true, if_true, if_false,
      EStateM.bind_eq_ok_iff] at h
  · obtain ⟨-, s₁, -, actualLen, s₂, hread, h⟩ := h
    obtain ⟨hsize, rfl⟩ := sysRead_eq_ok_iff.1 hread
    obtain ⟨rfl, rfl⟩ := check_eq_ok h
    exact hsize
  · obtain ⟨-, s₁, -, actualLen, s₂, hread, h⟩ := h
    obtain ⟨hsize, rfl⟩ := sysRead_eq_ok_iff.1 hread
    obtain ⟨rfl, rfl⟩ := check_eq_ok h
    exact hsize
  · obtain ⟨-, s₁, -, _, s₂, hset, h⟩ := h
    obtain ⟨-, rfl⟩ : path = p ∧ s₂ = s' := EStateM.Result.ok.inj h
    exact os.fileSize_setLen _ _ _ _ (sysUpdate_eq_ok_iff.1 hset)

end Migrate

end ThinProvisioning.Thin.Migrate
