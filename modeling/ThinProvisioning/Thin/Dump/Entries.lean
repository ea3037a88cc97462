import ThinProvisioning.Thin.Dump.Model

/-!
# The leaf groups of a mapping

`emit_entries` walks the entries of a mapping with an accumulator of leaf locations: a leaf joins
the accumulator, a reference first passes the accumulated leaves, if any, to `emit_leaves` and
clears them, and the leaves left at the end are passed on too. This file states what that loop
computes. `segments` cuts a list of entries into its maximal groups of consecutive leaves and its
single references; `emit_entries` is `emit_leaves` on each group and `ref_shared` on each
reference, in the order of the entries (`emitEntries_eq_forM_segments`).

## Main definitions

* `Segment`, `segments`: the maximal groups of consecutive leaves, and the references.
* `emitSegment`: what `emit_entries` does for one segment.

## Main results

* `entries_segments`, `segments_ne_leaves_nil`, `segments_chain`: the segments give back the
  entries, no group is empty, and no two groups are adjacent.
* `emitEntries_eq_forM_segments`, `emitEntries_calls_segments`.

## References

* `src/src/thin/dump.rs`, lines 288–316.
-/

namespace ThinProvisioning.Thin

/-- A piece of the entries of a mapping: a group of consecutive leaves, or a reference. -/
inductive Segment
  | leaves (locs : List UInt64)
  | ref (id : UInt64)
deriving DecidableEq, Repr

namespace Segment

/-- The entries a segment stands for. -/
def entries : Segment → List Entry
  | .leaves locs => locs.map .leaf
  | .ref id => [.ref id]

/-- The segment is a group of leaves. -/
def IsLeaves : Segment → Prop
  | .leaves _ => True
  | .ref _ => False

end Segment

/-- The entries cut into their maximal groups of consecutive leaves and their references, in
order. -/
def segments : List Entry → List Segment
  | [] => []
  | .ref id :: es => .ref id :: segments es
  | .leaf l :: es =>
    match segments es with
    | .leaves ls :: segs => .leaves (l :: ls) :: segs
    | segs => .leaves [l] :: segs

@[simp] theorem segments_nil : segments [] = [] := rfl

@[simp] theorem segments_ref (id : UInt64) (es : List Entry) :
    segments (.ref id :: es) = .ref id :: segments es := rfl

theorem segments_leaf_of_leaves {l : UInt64} {es : List Entry} {ls : List UInt64}
    {segs : List Segment} (h : segments es = .leaves ls :: segs) :
    segments (.leaf l :: es) = .leaves (l :: ls) :: segs := by
  simp [segments, h]

theorem segments_leaf_of_not_leaves {l : UInt64} {es : List Entry}
    (h : ∀ ls segs, segments es ≠ .leaves ls :: segs) :
    segments (.leaf l :: es) = .leaves [l] :: segments es := by
  rw [segments]
  split
  · next ls segs heq => exact absurd heq (h ls segs)
  · rfl

/-- A leaf joins the group of leaves the segments of the rest start with, or starts a group of its
own. -/
theorem segments_leaf_cases (l : UInt64) (es : List Entry) :
    (∃ ls segs, segments es = .leaves ls :: segs ∧
      segments (.leaf l :: es) = .leaves (l :: ls) :: segs) ∨
    ((∀ ls segs, segments es ≠ .leaves ls :: segs) ∧
      segments (.leaf l :: es) = .leaves [l] :: segments es) := by
  by_cases h : ∃ ls segs, segments es = .leaves ls :: segs
  · obtain ⟨ls, segs, h⟩ := h
    exact .inl ⟨ls, segs, h, segments_leaf_of_leaves h⟩
  · push_neg at h
    exact .inr ⟨h, segments_leaf_of_not_leaves h⟩

/-- The segments start with a group of leaves only when the entries start with a leaf. -/
theorem segments_ne_leaves_cons {es : List Entry} (h : ∀ l rest, es ≠ .leaf l :: rest) :
    ∀ ls segs, segments es ≠ .leaves ls :: segs := by
  intro ls segs
  match es, h with
  | [], _ => simp
  | .ref id :: es, _ => simp
  | .leaf l :: es, h => exact absurd rfl (h l es)

/-- A non-empty run of leaves before entries that do not start with a leaf is one group. -/
theorem segments_map_leaf_append {ls : List UInt64} (hls : ls ≠ []) {tail : List Entry}
    (ht : ∀ l rest, tail ≠ .leaf l :: rest) :
    segments (ls.map .leaf ++ tail) = .leaves ls :: segments tail := by
  induction ls with
  | nil => exact absurd rfl hls
  | cons l ls ih =>
    rcases ls with _ | ⟨l', ls⟩
    · exact segments_leaf_of_not_leaves (segments_ne_leaves_cons ht)
    · exact segments_leaf_of_leaves (ih (List.cons_ne_nil _ _))

/-- The segments give back the entries, in order. -/
theorem entries_segments (es : List Entry) : (segments es).flatMap Segment.entries = es := by
  induction es with
  | nil => rfl
  | cons e es ih =>
    cases e with
    | ref id => simp [Segment.entries, ih]
    | leaf l =>
      rcases segments_leaf_cases l es with ⟨ls, segs, h, hl⟩ | ⟨-, hl⟩
      · rw [hl, ← ih, h]
        simp [Segment.entries]
      · simp [hl, Segment.entries, ih]

theorem mem_of_mem_segments {es : List Entry} {seg : Segment} (hseg : seg ∈ segments es)
    {e : Entry} (he : e ∈ seg.entries) : e ∈ es := by
  rw [← entries_segments es]
  exact List.mem_flatMap.2 ⟨seg, hseg, he⟩

/-- No group of leaves is empty. -/
theorem segments_ne_leaves_nil (es : List Entry) : ∀ seg ∈ segments es, seg ≠ .leaves [] := by
  induction es with
  | nil => simp
  | cons e es ih =>
    cases e with
    | ref id => simpa using ih
    | leaf l =>
      rcases segments_leaf_cases l es with ⟨ls, segs, h, hl⟩ | ⟨-, hl⟩
      · rw [h] at ih
        simpa [hl] using fun seg hs => ih seg (List.mem_cons_of_mem _ hs)
      · simpa [hl] using ih

/-- No two groups of leaves are adjacent: each group is maximal. -/
theorem segments_chain (es : List Entry) :
    (segments es).Chain' fun s s' => ¬ (s.IsLeaves ∧ s'.IsLeaves) := by
  induction es with
  | nil => simp
  | cons e es ih =>
    cases e with
    | ref id =>
      rw [segments_ref]
      exact List.Chain'.cons' ih (by simp [Segment.IsLeaves])
    | leaf l =>
      rcases segments_leaf_cases l es with ⟨ls, segs, h, hl⟩ | ⟨h, hl⟩
      · rw [h, List.chain'_cons'] at ih
        rw [hl, List.chain'_cons']
        exact ⟨fun y hy => by simpa [Segment.IsLeaves] using ih.1 y hy, ih.2⟩
      · rw [hl]
        refine List.Chain'.cons' ih fun s hs => ?_
        cases s with
        | leaves ls =>
          obtain ⟨segs, hsegs⟩ := List.head?_eq_some_iff.1 hs
          exact absurd hsegs (h ls segs)
        | ref id => simp [Segment.IsLeaves]

section Emit

variable {D ε σ : Type} (metadataBlockType : D → BT) (unpackNode : D → Except ε (Node BlockTime))
  (engine : Engine D ε) (out : Ir.Event → EStateM ε σ Ir.Visit)

/-- What `emit_entries` does for a segment: `emit_leaves` on a group, `ref_shared` with the
decimal id on a reference. -/
def emitSegment : Segment → DumpM ε σ Unit
  | .leaves ls => emitLeaves metadataBlockType unpackNode engine out ls
  | .ref id => callback out (.refShared (toString id))

private theorem emitEntries_loop (acc : List UInt64) (es : List Entry) :
    (es.foldlM (entriesStep metadataBlockType unpackNode engine out) acc >>= fun leaves =>
        if !leaves.isEmpty then emitLeaves metadataBlockType unpackNode engine out leaves
        else pure ()) =
      (segments (acc.map .leaf ++ es)).forM
        (emitSegment metadataBlockType unpackNode engine out) := by
  induction es generalizing acc with
  | nil =>
    rcases acc with _ | ⟨a, acc⟩
    · simp
    · have h := @segments_map_leaf_append (a :: acc) (List.cons_ne_nil a acc) [] (by simp)
      rw [List.append_nil] at h
      rw [List.append_nil, h]
      simp [emitSegment]
  | cons e es ih =>
    cases e with
    | leaf b =>
      simp only [List.foldlM_cons, entriesStep, pure_bind, ih, List.map_append, List.map_cons,
        List.map_nil, List.append_assoc, List.singleton_append]
    | ref id =>
      have hrest := ih []
      simp only [List.map_nil, List.nil_append] at hrest
      rcases acc with _ | ⟨a, acc⟩
      · simp only [List.foldlM_cons, entriesStep, List.isEmpty_nil, Bool.not_true,
          Bool.false_eq_true, if_false, bind_assoc, pure_bind, hrest, List.map_nil,
          List.nil_append, segments_ref, List.forM_cons', emitSegment]
      · rw [segments_map_leaf_append (List.cons_ne_nil a acc) (by simp)]
        simp only [List.foldlM_cons, entriesStep, List.isEmpty_cons, Bool.not_false, if_true,
          bind_assoc, pure_bind, hrest, segments_ref, List.forM_cons', emitSegment]

theorem emitEntries_eq_forM_segments (entries : List Entry) :
    emitEntries metadataBlockType unpackNode engine out entries =
      (segments entries).forM (emitSegment metadataBlockType unpackNode engine out) := by
  have h := emitEntries_loop metadataBlockType unpackNode engine out [] entries
  rwa [List.map_nil, List.nil_append] at h

/-- `emit_entries` calls `emit_leaves` once for each maximal group of consecutive leaves, on
exactly its locations, and `ref_shared` with the decimal id once for each reference, in the order
of the entries: the groups and references give back the entries, none is dropped, and no group is
empty. -/
theorem emitEntries_calls_segments (entries : List Entry) :
    emitEntries metadataBlockType unpackNode engine out entries =
      (segments entries).forM (emitSegment metadataBlockType unpackNode engine out) ∧
    (segments entries).flatMap Segment.entries = entries ∧
    (∀ seg ∈ segments entries, seg ≠ .leaves []) ∧
    (segments entries).Chain' fun s s' => ¬ (s.IsLeaves ∧ s'.IsLeaves) :=
  ⟨emitEntries_eq_forM_segments metadataBlockType unpackNode engine out entries,
    entries_segments entries, segments_ne_leaves_nil entries, segments_chain entries⟩

end Emit

end ThinProvisioning.Thin
