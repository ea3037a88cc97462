import ThinProvisioning.Thin.Dump.Model
import ThinProvisioning.EState

/-!
# Reading a leaf group in batches

`read_for` reads the locations of a leaf group in chunks of the engine's batch size, one
`read_many` a chunk, and calls its closure on every block read. Flattened over the chunks it is
a single loop over the results of the reads that stops at the first failure
(`readFor_eq_foldResults`): the chunk boundaries are invisible to the closure. When `read_many`
answers each location with the block read there, in request order, and every batch read
succeeds, the loop goes through the blocks of the list, one each, in list order.

## Main definitions

* `chunkResults`, `readResults`: the results `read_for` goes through, one `read_many` at a time
  and over the whole list.
* `Engine.Aligned`: `read_many` answers every location with the result of reading it, in request
  order.

## Main results

* `readFor_eq_foldResults`: `read_for` is `foldResults` over `readResults`.
* `readFor_calls_in_order`: the closure is called once for each location, in order, across
  chunk boundaries; the loop succeeds exactly when every read and every call does, and stops at
  the first failure.

## References

* `src/src/thin/dump.rs`, lines 256–271.
-/

namespace ThinProvisioning.Thin

variable {D ε σ α : Type}

/-- The results of one `read_many` as `read_for` goes through them: the failure of the whole
call, or the result of each block, with the errors `read_for` gives them. -/
def chunkResults (engine : Engine D ε) (cs : List UInt64) : List (Except (DumpError ε) (Block D)) :=
  match engine.readMany cs with
  | .error _ => [.error .readManyFailed]
  | .ok rs => rs.map fun r => r.mapError fun _ => .readFailed

/-- The results `read_for` goes through, over all the chunks of `blocks`, in order. -/
def readResults (engine : Engine D ε) (blocks : List UInt64) :
    List (Except (DumpError ε) (Block D)) :=
  (chunks engine.batchSize engine.batchSize_pos blocks).flatMap (chunkResults engine)

/-- `read_many` gives one result per location asked for, in request order: the result of
reading that location. -/
def Engine.Aligned (engine : Engine D ε) (read : UInt64 → Except ε (Block D)) : Prop :=
  ∀ cs rs, engine.readMany cs = .ok rs → rs = cs.map read

theorem liftExcept_ok {ε' : Type} (f : ε' → DumpError ε) (a : α) :
    (liftExcept f (.ok a) : DumpM ε σ α) = pure a := rfl

theorem liftExcept_error {ε' : Type} (f : ε' → DumpError ε) (e : ε') :
    (liftExcept f (.error e) : DumpM ε σ α) = throw (f e) := rfl

theorem readBlocks_eq_foldResults (t : α → Block D → DumpM ε σ α) (a : α)
    (rs : List (Except ε (Block D))) :
    readBlocks t a rs = foldResults t a (rs.map fun r => r.mapError fun _ => .readFailed) := by
  induction rs generalizing a with
  | nil => rfl
  | cons r rs ih =>
    cases r with
    | error e => rfl
    | ok b =>
      simp only [readBlocks, List.foldlM_cons, liftExcept_ok, pure_bind] at ih ⊢
      simp only [List.map_cons, Except.mapError, foldResults_ok_cons, ih]

/-- `read_for` is one loop over the results of its reads, whatever the chunks. -/
theorem readFor_eq_foldResults (engine : Engine D ε) (blocks : List UInt64)
    (t : α → Block D → DumpM ε σ α) (a : α) :
    readFor engine blocks t a = foldResults t a (readResults engine blocks) := by
  rw [readFor, readResults]
  generalize chunks engine.batchSize engine.batchSize_pos blocks = css
  induction css generalizing a with
  | nil => rfl
  | cons cs css ih =>
    simp only [List.foldlM_cons, List.flatMap_cons, foldResults_append, ih]
    congr 1
    rw [chunkResults]
    cases engine.readMany cs with
    | error e => rfl
    | ok rs => simp only [liftExcept_ok, pure_bind, readBlocks_eq_foldResults]

theorem mem_of_mem_chunks {β : Type} {n : Nat} {hn : 0 < n} {xs cs : List β}
    (hcs : cs ∈ chunks n hn xs) {x : β} (hx : x ∈ cs) : x ∈ xs := by
  rw [← flatten_chunks n hn xs]
  exact List.mem_flatten.2 ⟨cs, hcs, hx⟩

/-- When each batch read succeeds and answers each location with `read` of it, the results are
those of the locations of the list, one each, in list order. -/
theorem readResults_of_chunks {engine : Engine D ε} {read : UInt64 → Except ε (Block D)}
    {blocks : List UInt64}
    (h : ∀ cs ∈ chunks engine.batchSize engine.batchSize_pos blocks,
      engine.readMany cs = .ok (cs.map read)) :
    readResults engine blocks = blocks.map fun l => (read l).mapError fun _ => .readFailed := by
  have hchunk : ∀ cs ∈ chunks engine.batchSize engine.batchSize_pos blocks,
      chunkResults engine cs = cs.map fun l => (read l).mapError fun _ => .readFailed := by
    intro cs hcs
    simp only [chunkResults, h cs hcs, List.map_map]
    rfl
  conv_rhs => rw [← flatten_chunks engine.batchSize engine.batchSize_pos blocks]
  rw [readResults, List.flatMap_congr hchunk, List.map_flatten, List.flatMap_def]

/-- With an aligned engine whose batch reads all succeed, the results are those of the
locations of the list, one each, in list order. -/
theorem readResults_of_aligned {engine : Engine D ε} {read : UInt64 → Except ε (Block D)}
    (hal : engine.Aligned read) {blocks : List UInt64}
    (hok : ∀ cs ∈ chunks engine.batchSize engine.batchSize_pos blocks,
      ∃ rs, engine.readMany cs = .ok rs) :
    readResults engine blocks = blocks.map fun l => (read l).mapError fun _ => .readFailed :=
  readResults_of_chunks fun cs hcs => by
    obtain ⟨rs, hrs⟩ := hok cs hcs
    rw [hrs, hal cs rs hrs]

/-- `read_for` calls its closure on the blocks of the list in order, one each, across all chunk
boundaries; it succeeds exactly when every `read_many`, every block result and every call of the
closure succeeds; and after the first failure it calls the closure on no further block. -/
theorem readFor_calls_in_order (engine : Engine D ε) (read : UInt64 → Except ε (Block D))
    (hal : engine.Aligned read) (blocks : List UInt64) (t : α → Block D → DumpM ε σ α) (a : α) :
    readFor engine blocks t a = foldResults t a (readResults engine blocks) ∧
    ((∀ cs ∈ chunks engine.batchSize engine.batchSize_pos blocks,
        ∃ rs, engine.readMany cs = .ok rs) →
      readResults engine blocks = blocks.map fun l => (read l).mapError fun _ => .readFailed) ∧
    (∀ s a' s', readFor engine blocks t a s = .ok a' s' ↔
      ∃ bs : List (Block D), readResults engine blocks = bs.map .ok ∧
        bs.foldlM t a s = .ok a' s') ∧
    (∀ s e s', readFor engine blocks t a s = .error e s' →
      ∃ (bs : List (Block D)) (r : Except (DumpError ε) (Block D)) (rest : List _) (a₁ : α)
        (s₁ : σ), readResults engine blocks = bs.map .ok ++ r :: rest ∧
        bs.foldlM t a s = .ok a₁ s₁ ∧
        ((r = .error e ∧ s' = s₁) ∨ ∃ b, r = .ok b ∧ t a₁ b s₁ = .error e s')) := by
  refine ⟨readFor_eq_foldResults engine blocks t a, readResults_of_aligned hal,
    fun s a' s' => ?_, fun s e s' h => ?_⟩
  · rw [readFor_eq_foldResults]
    exact foldResults_eq_ok_iff t a _ s s' a'
  · rw [readFor_eq_foldResults] at h
    exact foldResults_eq_error t a _ s s' e h

/-- An engine of batch size two that reads every location, and a closure that counts blocks. -/
theorem readFor_calls_in_order_three :
    let engine : Engine Unit Unit := ⟨2, by decide, fun cs => .ok (cs.map fun l => .ok ⟨l, ()⟩)⟩
    engine.Aligned (fun l => .ok ⟨l, ()⟩) ∧
      (readFor engine [1, 2, 3] (fun n _ => pure (n + 1)) 0 : DumpM Unit Unit Nat) =
        foldResults (fun n _ => pure (n + 1)) 0 (readResults engine [1, 2, 3]) := by
  intro engine
  have hal : engine.Aligned (fun l => .ok ⟨l, ()⟩) := fun _ _ h => (Except.ok.inj h).symm
  exact ⟨hal, (readFor_calls_in_order engine _ hal [1, 2, 3] (fun n _ => pure (n + 1)) 0).1⟩

end ThinProvisioning.Thin
