import Mathlib.Data.Finset.Basic
import Mathlib.Data.PNat.Basic
import ThinProvisioning.Word
import ThinProvisioning.EState

/-!
# The allocated blocks of a space map

`allocated_blocks` reads the index block of a space map, pairs each index entry with its
position `key`, sorts the pairs by the location of their bitmap block, and reads the bitmaps in
that order. Entry `i` of the bitmap of `key` that is not `Small(0)` puts the block
`key * ENTRIES_PER_BITMAP + i` into a `RoaringBitmap`, whose elements are `u32`: the number is
cast with `as u32`, which keeps its low 32 bits.

When every read succeeds, the result holds exactly those numbers reduced modulo `2 ^ 32`
(`allocatedBlocks_spec`); the order of the reads plays no part. The index is decoded from the
one metadata block of 4096 bytes read at `sm_root`, which holds a `u64` location for each
bitmap, and each bitmap from one block, at two bits an entry: every block number then fits in 32
bits, and the numbers reported are exact (`allocatedBlocks_exact`).

What the function takes from other modules is a parameter: `engine.read`, `load_metadata_index`,
`Bitmap::unpack` and the constant `ENTRIES_PER_BITMAP`, a positive number. The `RoaringBitmap`
is a `Finset UInt32`: `insert` of a present element leaves it as it is.

## Main definitions

* `IndexEntry`, `MetadataIndex`, `BitmapEntry`, `Bitmap`, `IndexInfo`.
* `metadataBlockSize`: the size of a metadata block, in bytes.
* `markBitmap`, `markInfo`, `allocatedBlocks`.

## Main results

* `allocatedBlocks_spec`: the blocks reported, with the cast to `u32`.
* `allocatedBlocks_exact`: the blocks reported, exactly, for an index and bitmaps read from
  metadata blocks.

## References

* `src/src/pdata/space_map/allocated_blocks.rs`, lines 11–54.
-/

namespace ThinProvisioning.PData

/-- `IndexEntry`, with the field `allocated_blocks` reads: the location of a bitmap block. -/
structure IndexEntry where
  blocknr : UInt64
deriving DecidableEq, Repr

/-- `MetadataIndex`, with its index entries, one for each bitmap, in key order. -/
structure MetadataIndex where
  indexes : List IndexEntry
deriving DecidableEq, Repr

/-- `BitmapEntry`: a reference count of at most two, or an overflow into the reference-count
tree. -/
inductive BitmapEntry
  | small (n : UInt8)
  | overflow
deriving DecidableEq, Repr

/-- `Bitmap`, with its entries. -/
structure Bitmap where
  entries : List BitmapEntry
deriving DecidableEq, Repr

/-- The size of a metadata block, in bytes. -/
def metadataBlockSize : Nat := 4096

/-- `IndexInfo`: the position of an index entry and the location of its bitmap. -/
structure IndexInfo where
  key : UInt64
  loc : UInt64
deriving DecidableEq, Repr

/-! ### The loops -/

/-- The body of the loop over a bitmap: entry `i` marks the block `base + i`, cast to `u32`,
unless it is `Small(0)`. -/
def markEntry (base : UInt64) (bits : Finset UInt32) : Nat × BitmapEntry → Finset UInt32
  | (_, .small 0) => bits
  | (i, _) => insert (base + UInt64.ofNat i).toUInt32 bits

/-- `for i in 0..bm.entries.len() { … }`: the entries of a bitmap marked from `base`. -/
def markBitmap (base : UInt64) (bm : Bitmap) (bits : Finset UInt32) : Finset UInt32 :=
  bm.entries.enum.foldl (markEntry base) bits

theorem mem_markEntry {base : UInt64} {bits : Finset UInt32} {p : Nat × BitmapEntry}
    {x : UInt32} :
    x ∈ markEntry base bits p ↔
      x ∈ bits ∨ p.2 ≠ .small 0 ∧ x = (base + UInt64.ofNat p.1).toUInt32 := by
  unfold markEntry
  split
  · simp
  · next e h => simp [Finset.mem_insert, or_comm, show e ≠ .small 0 from h]

theorem mem_markBitmap {base : UInt64} {bm : Bitmap} {bits : Finset UInt32} {x : UInt32} :
    x ∈ markBitmap base bm bits ↔ x ∈ bits ∨ ∃ i be, bm.entries[i]? = some be ∧
      be ≠ .small 0 ∧ x = (base + UInt64.ofNat i).toUInt32 := by
  have h : ∀ (ps : List (Nat × BitmapEntry)) bits, x ∈ ps.foldl (markEntry base) bits ↔
      x ∈ bits ∨ ∃ p ∈ ps, p.2 ≠ .small 0 ∧ x = (base + UInt64.ofNat p.1).toUInt32 := by
    intro ps
    induction ps with
    | nil => simp
    | cons p ps ih => intro bits; simp only [List.foldl_cons, ih, mem_markEntry,
        List.mem_cons, exists_eq_or_imp, or_assoc]
  simp only [markBitmap, h, List.mem_enum_iff_getElem?, Prod.exists]

section AllocatedBlocks

variable {D ε : Type} (entriesPerBitmap : ℕ+) (read : UInt64 → Except ε D)
  (loadMetadataIndex : D → UInt64 → Except ε MetadataIndex) (unpackBitmap : D → Except ε Bitmap)

/-- The body of the loop over the sorted infos: read the bitmap block of `info`, and mark its
entries from `info.key * ENTRIES_PER_BITMAP`. -/
def markInfo (bits : Finset UInt32) (info : IndexInfo) : Except ε (Finset UInt32) := do
  let b ← read info.loc
  let base := info.key * UInt64.ofNat entriesPerBitmap
  let bm ← unpackBitmap b
  pure (markBitmap base bm bits)

/-- The index entries with their positions, as `IndexInfo`s, in key order. -/
def indexInfos (indexes : MetadataIndex) : List IndexInfo :=
  indexes.indexes.enum.map fun (key, entry) => ⟨UInt64.ofNat key, entry.blocknr⟩

/-- `allocated_blocks`: the blocks whose bitmap entry is not `Small(0)`, as `u32`. -/
def allocatedBlocks (smRoot nrBlocks : UInt64) : Except ε (Finset UInt32) := do
  let b ← read smRoot
  let indexes ← loadMetadataIndex b nrBlocks
  let infos := (indexInfos indexes).mergeSort fun lhs rhs => lhs.loc ≤ rhs.loc
  infos.foldlM (markInfo entriesPerBitmap read unpackBitmap) ∅

theorem mem_indexInfos {indexes : MetadataIndex} {info : IndexInfo} :
    info ∈ indexInfos indexes ↔
      ∃ key e, indexes.indexes[key]? = some e ∧ info = ⟨UInt64.ofNat key, e.blocknr⟩ := by
  simp only [indexInfos, List.mem_map, List.mem_enum_iff_getElem?, Prod.exists]
  exact exists₂_congr fun _ _ => and_congr_right' eq_comm

/-- The block number `(key * ENTRIES_PER_BITMAP + i) as u32`, computed in `u64`. -/
theorem toNat_blockNumber (key i : Nat) :
    (UInt64.ofNat key * UInt64.ofNat entriesPerBitmap + UInt64.ofNat i).toUInt32.toNat =
      (key * entriesPerBitmap + i) % 2 ^ 32 := by
  rw [UInt64.toNat_toUInt32_eq, UInt64.toNat_add_eq, UInt64.toNat_mul_eq, UInt64.toNat_ofNat_eq,
    UInt64.toNat_ofNat_eq, UInt64.toNat_ofNat_eq, ← Nat.mul_mod]
  generalize key * entriesPerBitmap = m
  omega

variable (blockAt : UInt64 → D) (bitmapAt : UInt64 → Bitmap)

/-- When every bitmap read and decode succeeds, the loop over the infos marks each bitmap in
turn. -/
theorem foldlM_markInfo {infos : List IndexInfo}
    (hread : ∀ info ∈ infos, read info.loc = .ok (blockAt info.loc))
    (hunpack : ∀ info ∈ infos, unpackBitmap (blockAt info.loc) = .ok (bitmapAt info.loc))
    (bits : Finset UInt32) :
    infos.foldlM (markInfo entriesPerBitmap read unpackBitmap) bits = .ok (infos.foldl
      (fun bits info => markBitmap (info.key * UInt64.ofNat entriesPerBitmap)
        (bitmapAt info.loc) bits) bits) := by
  induction infos generalizing bits with
  | nil => rfl
  | cons info infos ih =>
    simp only [List.mem_cons, forall_eq_or_imp] at hread hunpack
    simp only [List.foldlM_cons, markInfo, hread.1, hunpack.1, Except.ok_bind, List.foldl_cons]
    exact ih hread.2 hunpack.2 _

theorem mem_foldl_markBitmap {infos : List IndexInfo} {bits : Finset UInt32} {x : UInt32} :
    x ∈ infos.foldl (fun bits info => markBitmap (info.key * UInt64.ofNat entriesPerBitmap)
        (bitmapAt info.loc) bits) bits ↔
      x ∈ bits ∨ ∃ info ∈ infos, ∃ i be, (bitmapAt info.loc).entries[i]? = some be ∧
        be ≠ .small 0 ∧ x = (info.key * UInt64.ofNat entriesPerBitmap + UInt64.ofNat i).toUInt32 := by
  induction infos generalizing bits with
  | nil => simp
  | cons info infos ih =>
    simp only [List.foldl_cons, ih, mem_markBitmap, List.mem_cons, exists_eq_or_imp, or_assoc]

/-! ### The blocks reported -/

variable {smRoot nrBlocks : UInt64} {root : D} {idx : MetadataIndex}

/-- When the index block and every bitmap block read and decode, `allocated_blocks` reports the
numbers `key * ENTRIES_PER_BITMAP + i` of the entries that are not `Small(0)`, each reduced
modulo `2 ^ 32` by the cast to `u32`, and nothing else. -/
theorem allocatedBlocks_spec (hroot : read smRoot = .ok root)
    (hidx : loadMetadataIndex root nrBlocks = .ok idx)
    (hread : ∀ e ∈ idx.indexes, read e.blocknr = .ok (blockAt e.blocknr))
    (hunpack : ∀ e ∈ idx.indexes, unpackBitmap (blockAt e.blocknr) = .ok (bitmapAt e.blocknr)) :
    ∃ bits, allocatedBlocks entriesPerBitmap read loadMetadataIndex unpackBitmap smRoot
        nrBlocks = .ok bits ∧
      ∀ x : UInt32, x ∈ bits ↔ ∃ key e i be, idx.indexes[key]? = some e ∧
        (bitmapAt e.blocknr).entries[i]? = some be ∧ be ≠ .small 0 ∧
        x.toNat = (key * entriesPerBitmap + i) % 2 ^ 32 := by
  set infos := (indexInfos idx).mergeSort fun lhs rhs => lhs.loc ≤ rhs.loc
  have hperm : infos.Perm (indexInfos idx) := List.mergeSort_perm _ _
  have hloc : ∀ info ∈ infos, ∃ e ∈ idx.indexes, info.loc = e.blocknr := fun info h => by
    obtain ⟨key, e, he, rfl⟩ := mem_indexInfos.1 (hperm.mem_iff.1 h)
    exact ⟨e, List.getElem?_mem he, rfl⟩
  refine ⟨infos.foldl (fun bits info => markBitmap (info.key * UInt64.ofNat entriesPerBitmap)
    (bitmapAt info.loc) bits) ∅, ?_, fun x => ?_⟩
  · simp only [allocatedBlocks, hroot, hidx, Except.ok_bind]
    refine foldlM_markInfo entriesPerBitmap read unpackBitmap blockAt bitmapAt (fun info h => ?_)
      (fun info h => ?_) ∅
    all_goals obtain ⟨e, he, hl⟩ := hloc info h; rw [hl]
    exacts [hread e he, hunpack e he]
  · simp only [mem_foldl_markBitmap, Finset.not_mem_empty, false_or, hperm.mem_iff,
      mem_indexInfos]
    constructor
    · rintro ⟨_, ⟨key, e, he, rfl⟩, i, be, hbe, hne, rfl⟩
      exact ⟨key, e, i, be, he, hbe, hne, toNat_blockNumber entriesPerBitmap key i⟩
    · rintro ⟨key, e, i, be, he, hbe, hne, hx⟩
      exact ⟨_, ⟨key, e, he, rfl⟩, i, be, hbe, hne,
        UInt32.eq_iff_toNat_eq.2 (hx.trans (toNat_blockNumber entriesPerBitmap key i).symm)⟩

/-- For an index that fits in one metadata block, a `u64` for each bitmap, and bitmaps of two
bits an entry, each in one block, every block number fits in 32 bits. -/
theorem blockNumber_lt (hE : (entriesPerBitmap : Nat) * 2 ≤ metadataBlockSize * 8)
    (hfits : idx.indexes.length * 8 ≤ metadataBlockSize)
    (hbitmap : ∀ e ∈ idx.indexes, (bitmapAt e.blocknr).entries.length * 2 ≤ metadataBlockSize * 8)
    {key i : Nat} {e : IndexEntry} {be : BitmapEntry} (he : idx.indexes[key]? = some e)
    (hbe : (bitmapAt e.blocknr).entries[i]? = some be) :
    key * entriesPerBitmap + i < 2 ^ 32 := by
  obtain ⟨hk, -⟩ := List.getElem?_eq_some_iff.1 he
  obtain ⟨hi, -⟩ := List.getElem?_eq_some_iff.1 hbe
  have hlen := hbitmap e (List.getElem?_mem he)
  unfold metadataBlockSize at hE hfits hlen
  have hkE : key * entriesPerBitmap ≤ 511 * 16384 := Nat.mul_le_mul (by omega) (by omega)
  omega

/-- `allocated_blocks` is exact. For the index decoded from the metadata block at `sm_root`,
which lists a `u64` location for each bitmap, and bitmaps of two bits an entry, each decoded from
one metadata block, when every read and every decode succeeds, `allocated_blocks` reports, for
each entry `i` that is not `Small(0)` of the bitmap of `indexes[key]`, the block
`key * ENTRIES_PER_BITMAP + i` itself, not reduced by the cast to `u32`, and nothing else. -/
theorem allocatedBlocks_exact (hE : (entriesPerBitmap : Nat) * 2 ≤ metadataBlockSize * 8)
    (hroot : read smRoot = .ok root) (hidx : loadMetadataIndex root nrBlocks = .ok idx)
    (hfits : idx.indexes.length * 8 ≤ metadataBlockSize)
    (hread : ∀ e ∈ idx.indexes, read e.blocknr = .ok (blockAt e.blocknr))
    (hunpack : ∀ e ∈ idx.indexes, unpackBitmap (blockAt e.blocknr) = .ok (bitmapAt e.blocknr))
    (hbitmap : ∀ e ∈ idx.indexes, (bitmapAt e.blocknr).entries.length * 2 ≤ metadataBlockSize * 8) :
    ∃ bits, allocatedBlocks entriesPerBitmap read loadMetadataIndex unpackBitmap smRoot
        nrBlocks = .ok bits ∧
      ∀ n : Nat, (∃ x ∈ bits, x.toNat = n) ↔ ∃ key e i be, idx.indexes[key]? = some e ∧
        (bitmapAt e.blocknr).entries[i]? = some be ∧ be ≠ .small 0 ∧
        n = key * entriesPerBitmap + i := by
  obtain ⟨bits, hres, hmem⟩ := allocatedBlocks_spec entriesPerBitmap read loadMetadataIndex
    unpackBitmap blockAt bitmapAt hroot hidx hread hunpack
  refine ⟨bits, hres, fun n => ⟨?_, ?_⟩⟩
  · rintro ⟨x, hx, rfl⟩
    obtain ⟨key, e, i, be, he, hbe, hne, hx⟩ := (hmem x).1 hx
    refine ⟨key, e, i, be, he, hbe, hne, ?_⟩
    rw [hx, Nat.mod_eq_of_lt (blockNumber_lt entriesPerBitmap bitmapAt hE hfits hbitmap he hbe)]
  · rintro ⟨key, e, i, be, he, hbe, hne, rfl⟩
    have hlt := blockNumber_lt entriesPerBitmap bitmapAt hE hfits hbitmap he hbe
    refine ⟨UInt32.ofNat (key * entriesPerBitmap + i), (hmem _).2 ⟨key, e, i, be, he, hbe, hne,
      UInt32.toNat_ofNat_eq _⟩, ?_⟩
    rw [UInt32.toNat_ofNat_eq, Nat.mod_eq_of_lt hlt]

end AllocatedBlocks

/-- Two bitmaps of four entries, at locations `7` and `3`, each entry `Small(0)` or not. -/
theorem allocatedBlocks_exact_two_bitmaps :
    let idx : MetadataIndex := ⟨[⟨7⟩, ⟨3⟩]⟩
    let bitmapAt : UInt64 → Bitmap := fun _ => ⟨[.small 0, .overflow, .small 2, .small 0]⟩
    ((4 : ℕ+) : Nat) * 2 ≤ metadataBlockSize * 8 ∧ idx.indexes.length * 8 ≤ metadataBlockSize ∧
      (∀ e ∈ idx.indexes, (bitmapAt e.blocknr).entries.length * 2 ≤ metadataBlockSize * 8) ∧
      ∃ bits, allocatedBlocks 4 (fun l => (.ok l : Except Unit UInt64)) (fun _ _ => .ok idx)
          (fun l => .ok (bitmapAt l)) 0 0 = .ok bits ∧
        ∀ n : Nat, (∃ x ∈ bits, x.toNat = n) ↔ ∃ key e i be, idx.indexes[key]? = some e ∧
          (bitmapAt e.blocknr).entries[i]? = some be ∧ be ≠ .small 0 ∧ n = key * 4 + i := by
  intro idx bitmapAt
  have hE : ((4 : ℕ+) : Nat) * 2 ≤ metadataBlockSize * 8 := by decide
  have hfits : idx.indexes.length * 8 ≤ metadataBlockSize := by decide
  have hbitmap : ∀ e ∈ idx.indexes, (bitmapAt e.blocknr).entries.length * 2 ≤
      metadataBlockSize * 8 := by decide
  exact ⟨hE, hfits, hbitmap, allocatedBlocks_exact 4 (fun l => .ok l) (fun _ _ => .ok idx)
    (fun l => .ok (bitmapAt l)) id bitmapAt hE rfl rfl hfits (fun _ _ => rfl) (fun _ _ => rfl)
    hbitmap⟩

end ThinProvisioning.PData
