import ThinProvisioning.Tests.ThinXmlGenerator.Snapshot
import ThinProvisioning.Thin.Dump.Protocol

/-!
# The generators of test metadata

The tests write their metadata through generators that drive a `MetadataVisitor`, the writer of
the XML format (`tests/common/thin_xml_generator.rs`): `EmptyPoolS`, a pool with no device;
`SingleThinS`, one device mapped by one run; and `SnapS`, an origin and a chain of snapshots, each
drawn from the device before it. A generator's computation threads the visitor's state and the
random source's, and a callback's `Visit` is dropped by its `?`.

`ThinDev::emit` writes a device as its header, a `map` for each mapped run at the position the
runs before it reach, and its end; these `map`s stand for exactly the mapped positions of the
device (`mappings_eq_placed`). Over every random source, whenever `SnapS::generate_xml`
succeeds, the callbacks it has made are a whole run of the format's automaton up to
`superblock_e`, and the metadata they describe is well formed: no `map` is empty, the mappings of
a device are at increasing positions below its size, its header counts them, every data block
is in the pool, and a data block mapped twice, in one device or in two, is mapped at the same
position with the same time: snapshots share blocks only where they keep the device before them
(`SnapS.generateXml_valid`). The subtractions `nr_snaps - 1` and `100 - percent_change` panic on
overflow in the test build; here they are errors of the generator. With at least one device, a
change of at most 100 percent and room in the pool for `nr_snaps` devices, the generator fails
only by the visitor (`SnapS.generateXml_ne_gen`).

## Main definitions

* `XmlGenError`, `GenM`, `visit`: a generator's computation and its callbacks.
* `checkedSub`: a `u32` subtraction that fails on overflow.
* `runMaps`, `ThinDev.emit`, `ThinDev.events`, `ThinDev.mappings`: a device written out.
* `placed`: the mapped positions of a device, as mappings.
* `SharesInPlace`, `ChainInv`: how the devices of `SnapS` share data blocks.
* `EmptyPoolS`, `SingleThinS`, `SnapS` and their `generateXml`.

## Main results

* `mappings_eq_placed`: the `map`s of a device stand for its mapped positions.
* `ChainInv.origin`, `ChainInv.snapshot`: each device built keeps the invariant of the chain.
* `SnapS.generateXml_spec`, `SnapS.generateXml_valid`.
* `SnapS.generateXml_ne_gen`: with room in the pool, the generator fails only by the visitor.

## References

* `src/tests/common/thin_xml_generator.rs`, lines 10–106, 383–429 and 606–671.
-/

namespace ThinProvisioning.Tests

open Thin

/-! ### Driving the visitor -/

/-- The errors of a generator: those of the building of its devices, and those of the visitor,
passed on by `?`. -/
inductive XmlGenError (ε : Type)
  | gen (e : GenError)
  | visitor (e : ε)

/-- A computation of a generator: it drives a visitor of state `σ` and draws from the random
source of state `ρ`; it may fail, keeping the states reached. -/
abbrev GenM (ε σ ρ : Type) := EStateM (XmlGenError ε) (σ × ρ)

section Visitor

variable {ε σ ρ : Type} (out : Ir.Event → EStateM ε σ Ir.Visit)

/-- A callback `v.f(..)?`: an error of the visitor is passed on, and the `Visit` returned is
dropped. -/
def visit (e : Ir.Event) : GenM ε σ ρ Unit := fun s =>
  match out e s.1 with
  | .ok _ s₁ => .ok () (s₁, s.2)
  | .error err s₁ => .error (.visitor err) (s₁, s.2)

theorem visit_eq_ok_iff (e : Ir.Event) (s s' : σ) (g g' : ρ) :
    visit out e (s, g) = .ok () (s', g') ↔ (∃ v, out e s = .ok v s') ∧ g' = g := by
  unfold visit
  cases h : out e s <;> simp [eq_comm]

/-- Callbacks made by a generator are received by the visitor in turn, and draw nothing. -/
theorem forM_visit_eq_ok_iff (evs : List Ir.Event) (s s' : σ) (g g' : ρ) :
    evs.forM (visit out) (s, g) = .ok () (s', g') ↔ deliver out evs s = .ok () s' ∧ g' = g := by
  induction evs generalizing s with
  | nil =>
    simp only [List.forM_nil', deliver, EStateM.pure_apply, EStateM.Result.ok.injEq,
      Prod.mk.injEq, true_and]
    exact ⟨fun h => ⟨h.1, h.2.symm⟩, fun h => ⟨h.1, h.2.symm⟩⟩
  | cons e evs ih =>
    simp only [List.forM_cons', EStateM.bind_eq_ok_iff, deliver]
    constructor
    · rintro ⟨⟨⟩, ⟨s₁, g₁⟩, h₁, h₂⟩
      obtain ⟨⟨v, hv⟩, rfl⟩ := (visit_eq_ok_iff out e s s₁ g g₁).1 h₁
      obtain ⟨h, rfl⟩ := (ih s₁).1 h₂
      exact ⟨⟨v, s₁, hv, h⟩, rfl⟩
    · rintro ⟨⟨v, s₁, hv, h⟩, rfl⟩
      exact ⟨(), (s₁, _), (visit_eq_ok_iff out e s s₁ _ _).2 ⟨⟨v, hv⟩, rfl⟩, (ih s₁).2 ⟨h, rfl⟩⟩

/-- Callbacks made by a generator are the visitor receiving them in turn, its errors passed on;
they draw nothing. -/
theorem forM_visit_apply (evs : List Ir.Event) (s : σ) (g : ρ) :
    (evs.forM (visit out) : GenM ε σ ρ Unit) (s, g) =
      match deliver out evs s with
      | .ok _ s' => .ok () (s', g)
      | .error e s' => .error (.visitor e) (s', g) := by
  induction evs generalizing s with
  | nil => rfl
  | cons ev evs ih =>
    rw [List.forM_cons', EStateM.bind_apply]
    simp only [visit, deliver, EStateM.bind_apply]
    cases out ev s with
    | ok v s₁ => exact ih s₁
    | error e s₁ => rfl

/-- A draw from the random source. -/
def draw {α : Type} (f : ρ → α × ρ) : GenM ε σ ρ α := fun s => .ok (f s.2).1 (s.1, (f s.2).2)

theorem draw_bind {α β : Type} (f : ρ → α × ρ) (k : α → GenM ε σ ρ β) (s : σ) (g : ρ) :
    (draw f >>= k) (s, g) = k (f g).1 (s, (f g).2) := rfl

/-- `a - b` in the checked arithmetic of a test build: the difference, or a panic when it
overflows. -/
def checkedSub (a b : UInt32) : GenM ε σ ρ UInt32 :=
  if b ≤ a then pure (a - b) else throw (.gen .overflow)

theorem checkedSub_eq_ok {a b c : UInt32} {s s' : σ × ρ}
    (h : (checkedSub a b : GenM ε σ ρ UInt32) s = .ok c s') : b ≤ a ∧ c = a - b ∧ s' = s := by
  unfold checkedSub at h
  split_ifs at h with hle <;> cases h
  exact ⟨hle, rfl, rfl⟩

theorem checkedSub_bind {α : Type} {a b : UInt32} (hle : b ≤ a) (k : UInt32 → GenM ε σ ρ α) :
    (checkedSub a b >>= k) = k (a - b) := by
  rw [checkedSub, if_pos hle, pure_bind]

/-- A device built from the random source; an error is passed on by `?`. -/
def build {α : Type} (f : ρ → Except GenError α × ρ) : GenM ε σ ρ α := fun s =>
  match f s.2 with
  | (.ok a, g) => .ok a (s.1, g)
  | (.error e, g) => .error (.gen e) (s.1, g)

theorem build_eq_ok_iff {α : Type} (f : ρ → Except GenError α × ρ) (s s' : σ) (g g' : ρ)
    (a : α) : (build f : GenM ε σ ρ α) (s, g) = .ok a (s', g') ↔ f g = (.ok a, g') ∧ s' = s := by
  unfold build
  split
  · next a₁ g₁ hf =>
    rw [hf]
    simp only [EStateM.Result.ok.injEq, Prod.mk.injEq, Except.ok.injEq]
    exact ⟨fun ⟨h₁, h₂, h₃⟩ => ⟨⟨h₁, h₃⟩, h₂.symm⟩, fun ⟨⟨h₁, h₃⟩, h₂⟩ => ⟨h₁, h₂.symm, h₃⟩⟩
  · next e g₁ hf => simp [hf]

theorem build_bind_of_ok {α β : Type} {f : ρ → Except GenError α × ρ} {k : α → GenM ε σ ρ β}
    {s : σ} {g g' : ρ} {a : α} (h : f g = (.ok a, g')) : (build f >>= k) (s, g) = k a (s, g') := by
  simp only [EStateM.bind_apply, build, h]

/-! Failures of a generator that come from the building of its devices, and not from the
visitor. -/

/-- A bind fails by the building of a device only when one of its two steps does. -/
theorem bind_ne_gen {α β : Type} {x : GenM ε σ ρ α} {f : α → GenM ε σ ρ β} {s st : σ × ρ}
    {e : GenError} (hx : x s ≠ .error (.gen e) st)
    (hf : ∀ a s₁, x s = .ok a s₁ → f a s₁ ≠ .error (.gen e) st) :
    (x >>= f) s ≠ .error (.gen e) st := by
  rw [Ne, EStateM.bind_eq_error_iff]
  rintro (h | ⟨a, s₁, h₁, h₂⟩)
  · exact hx h
  · exact hf a s₁ h₁ h₂

/-- A callback fails only by the visitor. -/
theorem visit_ne_gen (ev : Ir.Event) (s st : σ × ρ) (e : GenError) :
    (visit out ev : GenM ε σ ρ Unit) s ≠ .error (.gen e) st := by
  unfold visit
  split <;> simp

theorem forM_visit_ne_gen (evs : List Ir.Event) (s st : σ × ρ) (e : GenError) :
    (evs.forM (visit out) : GenM ε σ ρ Unit) s ≠ .error (.gen e) st := by
  induction evs generalizing s with
  | nil => simp
  | cons ev evs ih =>
    rw [List.forM_cons']
    exact bind_ne_gen (visit_ne_gen out ev s st e) fun _ s₁ _ => ih s₁

end Visitor

/-! ### Writing a device -/

/-- The mapping runs `ThinDev::emit` writes for the runs from position `b`: one for each mapped
run, at the position the runs before it reach. -/
def runMaps : UInt64 → List Run → List Ir.Map
  | _, [] => []
  | b, .mapped dataBegin time len :: runs => ⟨b, dataBegin, time, len⟩ :: runMaps (b + len) runs
  | b, .unMapped len :: runs => runMaps (b + len) runs

/-- The header `ThinDev::emit` writes for a device. -/
def ThinDev.header (d : ThinDev) : Ir.Device :=
  ⟨d.thinId, d.mappedBlocks, 0, d.creationTime, d.snapTime⟩

/-- The callbacks of `ThinDev::emit`. -/
def ThinDev.events (d : ThinDev) : List Ir.Event :=
  .deviceB d.header :: (runMaps 0 d.runs).map .map ++ [.deviceE]

/-- The mappings the runs of a written device stand for. -/
def ThinDev.mappings (d : ThinDev) : List Triple := (runMaps 0 d.runs).flatMap Ir.Map.expand

section Emit

variable {ε σ ρ : Type} (out : Ir.Event → EStateM ε σ Ir.Visit)

/-- The loop of `ThinDev::emit` over the runs, from position `b`. -/
def emitRuns : UInt64 → List Run → GenM ε σ ρ Unit
  | _, [] => pure ()
  | b, .mapped dataBegin time len :: runs => do
    visit out (.map ⟨b, dataBegin, time, len⟩)
    emitRuns (b + len) runs
  | b, .unMapped len :: runs => emitRuns (b + len) runs

/-- `ThinDev::emit`. -/
def ThinDev.emit (self : ThinDev) : GenM ε σ ρ Unit := do
  visit out (.deviceB ⟨self.thinId, self.mappedBlocks, 0, self.creationTime, self.snapTime⟩)
  emitRuns out 0 self.runs
  visit out .deviceE

theorem emitRuns_eq (b : UInt64) (runs : List Run) :
    (emitRuns out b runs : GenM ε σ ρ Unit) = ((runMaps b runs).map .map).forM (visit out) := by
  induction runs generalizing b with
  | nil => rfl
  | cons r runs ih =>
    cases r with
    | mapped d t len => simp only [emitRuns, runMaps, List.map_cons, List.forM_cons', ih]
    | unMapped len => exact ih _

/-- `ThinDev::emit` makes the callbacks `ThinDev.events`. -/
theorem ThinDev.emit_eq (d : ThinDev) : (d.emit out : GenM ε σ ρ Unit) = d.events.forM (visit out) := by
  simp only [ThinDev.emit, emitRuns_eq, ThinDev.events, ThinDev.header, List.cons_append,
    List.forM_cons', List.forM_append, List.forM_nil', bind_pure_unit, bind_assoc]

end Emit

/-! ### The mapped positions of a device -/

/-- The mapped positions of a device from position `p` on, as mappings
`(thin block, data block, time)`. -/
def placed : Nat → List (Option (UInt64 × UInt32)) → List Triple
  | _, [] => []
  | p, none :: e => placed (p + 1) e
  | p, some x :: e => (UInt64.ofNat p, x.1, x.2) :: placed (p + 1) e

theorem placed_append (p : Nat) (e e' : List (Option (UInt64 × UInt32))) :
    placed p (e ++ e') = placed p e ++ placed (p + e.length) e' := by
  induction e generalizing p with
  | nil => rfl
  | cons o e ih =>
    rw [List.cons_append, List.length_cons, show p + (e.length + 1) = p + 1 + e.length by omega]
    cases o <;> simp only [placed, ih, List.cons_append]

theorem placed_mod (p : Nat) (e : List (Option (UInt64 × UInt32))) :
    placed (p % 2 ^ 64) e = placed p e := by
  induction e generalizing p with
  | nil => rfl
  | cons o e ih =>
    have hsucc : placed (p % 2 ^ 64 + 1) e = placed (p + 1) e := by
      rw [← ih, ← ih (p + 1), Nat.add_mod, Nat.mod_mod, ← Nat.add_mod]
    cases o with
    | none => exact hsucc
    | some x =>
      simp only [placed, hsucc, List.cons.injEq, Prod.mk.injEq, and_true]
      exact UInt64.eq_iff_toNat_eq.2 (by simp [UInt64.toNat_ofNat_eq])

@[simp] theorem placed_replicate_none (p n : Nat) : placed p (List.replicate n none) = [] := by
  induction n generalizing p with
  | zero => rfl
  | succ n ih => exact ih _

theorem mem_placed {p : Nat} {e : List (Option (UInt64 × UInt32))} {x : Triple} :
    x ∈ placed p e ↔ ∃ q, e[q]? = some (some (x.2.1, x.2.2)) ∧ x.1 = UInt64.ofNat (p + q) := by
  induction e generalizing p with
  | nil => simp [placed]
  | cons o e ih =>
    have hshift : (∃ q, e[q]? = some (some (x.2.1, x.2.2)) ∧ x.1 = UInt64.ofNat (p + 1 + q)) ↔
        ∃ q, (o :: e)[q + 1]? = some (some (x.2.1, x.2.2)) ∧ x.1 = UInt64.ofNat (p + (q + 1)) := by
      simp only [List.getElem?_cons_succ, Nat.add_assoc, Nat.add_comm 1]
    cases o with
    | none =>
      rw [placed, ih, hshift]
      constructor
      · rintro ⟨q, hq⟩; exact ⟨q + 1, hq⟩
      · rintro ⟨_ | q, hq, hx⟩
        · simp at hq
        · exact ⟨q, hq, hx⟩
    | some y =>
      rw [placed, List.mem_cons, ih, hshift]
      constructor
      · rintro (rfl | ⟨q, hq⟩)
        · exact ⟨0, by simp, by simp⟩
        · exact ⟨q + 1, hq⟩
      · rintro ⟨_ | q, hq, hx⟩
        · simp only [List.getElem?_cons_zero, Option.some.injEq] at hq
          exact .inl (Prod.ext hx (by rw [hq]))
        · exact .inr ⟨q, hq, hx⟩

theorem length_placed (p : Nat) (e : List (Option (UInt64 × UInt32))) :
    (placed p e).length = e.countP Option.isSome := by
  induction e generalizing p with
  | nil => rfl
  | cons o e ih => cases o <;> simp [placed, ih]

/-- Below `2 ^ 64`, the mapped positions come in increasing order, within the device. -/
theorem placed_sorted (p : Nat) (e : List (Option (UInt64 × UInt32)))
    (hp : p + e.length ≤ 2 ^ 64) :
    ((placed p e).map fun x => x.1.toNat).Sorted (· < ·) ∧
      ∀ x ∈ placed p e, p ≤ x.1.toNat ∧ x.1.toNat < p + e.length := by
  induction e generalizing p with
  | nil => simp [placed]
  | cons o e ih =>
    simp only [List.length_cons] at hp
    obtain ⟨hs, hb⟩ := ih (p + 1) (by omega)
    cases o with
    | none =>
      refine ⟨hs, fun x hx => ?_⟩
      have := hb x hx
      simp only [List.length_cons]
      omega
    | some y =>
      have hpt : (UInt64.ofNat p).toNat = p := by
        rw [UInt64.toNat_ofNat_eq]; exact Nat.mod_eq_of_lt (by omega)
      refine ⟨List.sorted_cons.2 ⟨fun t ht => ?_, hs⟩, fun x hx => ?_⟩
      · obtain ⟨x, hx, rfl⟩ := List.mem_map.1 ht
        show (UInt64.ofNat p).toNat < x.1.toNat
        rw [hpt]; exact (hb x hx).1
      · rcases List.mem_cons.1 hx with rfl | hx
        · simp only [hpt, List.length_cons]; omega
        · have := hb x hx
          simp only [List.length_cons]
          omega

/-- The positions of a mapped run from `p`, as mappings. -/
theorem placed_expand_mapped (p : Nat) (d : UInt64) (t : UInt32) (len : UInt64) :
    placed p (Run.mapped d t len).expand =
      (Ir.Map.mk (UInt64.ofNat p) d t len).expand := by
  simp only [Run.expand, Ir.Map.expand]
  induction len.toNat with
  | zero => rfl
  | succ n ih =>
    rw [List.range_succ, List.map_append, List.map_append, placed_append, ih]
    simp only [List.map_cons, List.map_nil, List.length_map, List.length_range, placed,
      List.append_cancel_left_eq, List.cons.injEq, Prod.mk.injEq, and_true]
    exact UInt64.ofNat_add p n

/-- The `map`s `ThinDev::emit` writes stand for the mapped positions of the runs. -/
theorem runMaps_expand (b : UInt64) (runs : List Run) :
    (runMaps b runs).flatMap Ir.Map.expand = placed b.toNat (runs.flatMap Run.expand) := by
  induction runs generalizing b with
  | nil => rfl
  | cons r runs ih =>
    have hnext : ∀ len : UInt64,
        placed (b.toNat + len.toNat) (runs.flatMap Run.expand) =
          (runMaps (b + len) runs).flatMap Ir.Map.expand := fun len => by
      rw [ih, UInt64.toNat_add_eq, placed_mod]
    cases r with
    | mapped d t len =>
      rw [runMaps, List.flatMap_cons, List.flatMap_cons, placed_append, placed_expand_mapped,
        UInt64.ofNat_toNat_eq, Run.length_expand, Run.len, hnext]
    | unMapped len =>
      rw [runMaps, List.flatMap_cons, placed_append, Run.length_expand, Run.len, hnext]
      simp [Run.expand]

/-- The mappings of a written device are its mapped positions. -/
theorem mappings_eq_placed (d : ThinDev) : d.mappings = placed 0 d.expand := by
  simpa using runMaps_expand 0 d.runs

/-- A device whose runs are not empty is written with no empty `map`. -/
theorem runMaps_pos (b : UInt64) {runs : List Run} (h : ∀ r ∈ runs, 0 < r.len.toNat) :
    ∀ m ∈ runMaps b runs, 0 < m.len.toNat := by
  induction runs generalizing b with
  | nil => simp [runMaps]
  | cons r runs ih =>
    simp only [List.mem_cons, forall_eq_or_imp] at h
    cases r with
    | mapped d t len =>
      simp only [runMaps, List.mem_cons, forall_eq_or_imp]
      exact ⟨h.1, ih _ h.2⟩
    | unMapped len => exact ih _ h.2

/-! ### How the devices of a chain of snapshots share data blocks -/

/-- Devices share data blocks only in place: a block mapped at two positions, of one device or
of two, is mapped at one position, with one time. -/
def SharesInPlace (devs : List (List (Option (UInt64 × UInt32)))) : Prop :=
  ∀ e ∈ devs, ∀ e' ∈ devs, ∀ (p q : Nat) (x y : UInt64 × UInt32), e[p]? = some (some x) →
    e'[q]? = some (some y) → x.1 = y.1 → p = q ∧ x = y

/-- A snapshot of a device `e` whose mapped positions are positions of the devices `devs`, by
fresh blocks never handed out before: the snapshot maps blocks handed out, each once, and
shares them with the devices before only in place. -/
theorem snapSpec_step (time : UInt32) (snap : List SnapRun)
    (devs : List (List (Option (UInt64 × UInt32)))) (e : List (Option (UInt64 × UInt32)))
    (handed : List Nat) {fresh : List Nat} (hin : SharesInPlace devs)
    (hhanded : ∀ e' ∈ devs, ∀ b ∈ dataBlocks e', b.toNat ∈ handed)
    (he₁ : ∀ b ∈ dataBlocks e, b.toNat ∈ handed) (he₂ : (dataBlocks e).Nodup)
    (he₃ : ∀ (p : Nat) (x : UInt64 × UInt32), e[p]? = some (some x) →
      ∃ e' ∈ devs, e'[p]? = some (some x))
    (hnd : (handed ++ fresh).Nodup) (hlt : ∀ b ∈ fresh, b < 2 ^ 64)
    (hlen : snapLen snap ≤ e.length) (hf : diffLen snap ≤ fresh.length) :
    (∀ b ∈ dataBlocks (snapSpec time snap e fresh), b.toNat ∈ handed ++ fresh) ∧
      (dataBlocks (snapSpec time snap e fresh)).Nodup ∧
      SharesInPlace (devs ++ [snapSpec time snap e fresh]) := by
  obtain ⟨l₁, l₂, h₁, h₂, hperm⟩ := dataBlocks_snapSpec time snap e fresh
  have htoNat : ∀ c ∈ fresh, (UInt64.ofNat c).toNat = c := fun c hc => by
    rw [UInt64.toNat_ofNat_eq, Nat.mod_eq_of_lt (hlt c hc)]
  have hfresh : ∀ b ∈ l₂, b.toNat ∈ fresh := fun b hb => by
    obtain ⟨c, hc, rfl⟩ := List.mem_map.1 (h₂.subset hb)
    rwa [htoNat c hc]
  have hold : ∀ b ∈ l₁, b.toNat ∈ handed := fun b hb => he₁ b (h₁.subset hb)
  have hdisj : ∀ {c}, c ∈ handed → c ∉ fresh := fun hc hc' =>
    List.disjoint_of_nodup_append hnd hc hc'
  have hnodup : (dataBlocks (snapSpec time snap e fresh)).Nodup := by
    refine hperm.nodup_iff.2 (List.nodup_append.2 ⟨h₁.nodup he₂, h₂.nodup ?_,
      fun b hb hb' => hdisj (hold b hb) (hfresh b hb')⟩)
    refine hnd.of_append_right.map_on fun c hc c' hc' h => ?_
    rw [← htoNat c hc, ← htoNat c' hc', h]
  -- each mapped position of the snapshot is a position of a device before, or a fresh block
  have hnew : ∀ (p : Nat) (x : UInt64 × UInt32), (snapSpec time snap e fresh)[p]? = some (some x) →
      (∃ e' ∈ devs, e'[p]? = some (some x)) ∨ x.1.toNat ∈ fresh := fun p x h =>
    (getElem?_snapSpec time snap hlen hf h).imp (he₃ p x) fun ⟨_, b, hb, hx⟩ => by
      rw [hx, htoNat b hb]; exact hb
  have hno : ∀ e' ∈ devs, ∀ (p q : Nat) (x y : UInt64 × UInt32),
      (snapSpec time snap e fresh)[p]? = some (some x) →
      e'[q]? = some (some y) → x.1 = y.1 → p = q ∧ x = y := by
    intro e' he' p q x y hp hq hxy
    rcases hnew p x hp with ⟨e'', he'', hp'⟩ | hx
    · exact hin e'' he'' e' he' p q x y hp' hq hxy
    · refine absurd hx (hdisj ?_)
      rw [hxy]; exact hhanded e' he' _ (mem_dataBlocks hq)
  refine ⟨fun b hb => ?_, hnodup, ?_⟩
  · rcases List.mem_append.1 (hperm.subset hb) with hb | hb
    · exact List.mem_append_left _ (hold b hb)
    · exact List.mem_append_right _ (hfresh b hb)
  · intro E hE E' hE' p q x y hp hq hxy
    rcases List.mem_append.1 hE with hE | hE <;> rcases List.mem_append.1 hE' with hE' | hE'
    · exact hin E hE E' hE' p q x y hp hq hxy
    · rw [List.mem_singleton.1 hE'] at hq
      obtain ⟨h₁, h₂⟩ := hno E hE q p y x hq hp hxy.symm
      exact ⟨h₁.symm, h₂.symm⟩
    · rw [List.mem_singleton.1 hE] at hp
      exact hno E' hE' p q x y hp hq hxy
    · rw [List.mem_singleton.1 hE] at hp
      rw [List.mem_singleton.1 hE'] at hq
      obtain rfl := eq_of_dataBlocks_nodup hnodup hp hq hxy
      exact ⟨rfl, Option.some.inj (Option.some.inj (hp.symm.trans hq))⟩

/-- The invariant of the chain of devices of `SnapS`, from the pool `a₀` to the allocator `a`:
the blocks `handed` out so far, and devices of `len` blocks that map only those blocks, each
once, and share them only in place. -/
structure ChainInv (a₀ : Allocator) (len : UInt64) (handed : List Nat) (devs : List ThinDev)
    (a : Allocator) : Prop where
  reach : Allocator.Reach a₀ handed a
  consistent : ∀ d ∈ devs, d.Consistent ∧ d.devSize = len
  handed_blocks : ∀ d ∈ devs, ∀ b ∈ dataBlocks d.expand, b.toNat ∈ handed
  nodup : ∀ d ∈ devs, (dataBlocks d.expand).Nodup
  inPlace : SharesInPlace (devs.map ThinDev.expand)

section Chain

variable {ρ : Type} (rng : Rng ρ) {a₀ : Allocator} {T : UInt64}

/-- The origin starts the chain. -/
theorem ChainInv.origin (hwf₀ : a₀.WF)
    (hpool : ∀ handed a, Allocator.Reach a₀ handed a → handed.Nodup ∧ ∀ b ∈ handed, b < T.toNat)
    (thinId : UInt32) (len percentMapped : UInt64) (creationTime snapTime : UInt32) (g : ρ)
    {dev : ThinDev} {a' : Allocator} {g' : ρ}
    (h : mkOrigin rng thinId len percentMapped a₀ creationTime snapTime g = (.ok (dev, a'), g')) :
    ∃ handed, ChainInv a₀ len handed [dev] a' := by
  obtain ⟨hcons, hsize, snap, fresh, hreach, -, hsl, hfl, hexp⟩ :=
    mkOrigin_spec rng thinId len percentMapped a₀ creationTime snapTime g hwf₀ h
  have hr : Allocator.Reach a₀ fresh a' := by simpa using hreach a₀ [] .refl
  obtain ⟨hnd, hlt⟩ := hpool _ _ hr
  obtain ⟨hblocks, hnodup, hin⟩ := snapSpec_step creationTime snap []
    (List.replicate len.toNat none) [] (fun _ h => by cases h) (fun _ h => by cases h) (by simp)
    (by simp) (fun p x h => by rw [List.getElem?_replicate] at h; split at h <;> cases h) hnd
    (fun b hb => (hlt b hb).trans T.toNat_lt_two_pow) (by simp [hsl]) hfl.ge
  refine ⟨fresh, hr, by simpa using ⟨hcons, hsize⟩, ?_, ?_, ?_⟩ <;> simp only [List.mem_singleton,
    forall_eq, List.map_cons, List.map_nil, hexp]
  · simpa using hblocks
  · exact hnodup
  · simpa using hin

/-- Each snapshot of a device of the chain keeps the invariant, with the blocks it takes. -/
theorem ChainInv.snapshot (hwf₀ : a₀.WF)
    (hpool : ∀ handed a, Allocator.Reach a₀ handed a → handed.Nodup ∧ ∀ b ∈ handed, b < T.toNat)
    {len : UInt64} {handed : List Nat} {devs : List ThinDev} {a : Allocator}
    (hinv : ChainInv a₀ len handed devs a) {origin : ThinDev} (horigin : origin ∈ devs)
    (thinId : UInt32) (percentChange : UInt64) (creationTime snapTime : UInt32) (g : ρ)
    {dev : ThinDev} {a' : Allocator} {g' : ρ}
    (h : mkSnapshot rng thinId origin percentChange a creationTime snapTime g =
      (.ok (dev, a'), g')) :
    ∃ fresh, ChainInv a₀ len (handed ++ fresh) (devs ++ [dev]) a' := by
  have horig := hinv.consistent origin horigin
  obtain ⟨hcons, hsize, snap, fresh, hreach, -, hsl, hfl, hexp⟩ :=
    mkSnapshot_spec rng thinId origin percentChange a creationTime snapTime g
      (Allocator.Reach.sublist hwf₀ hinv.reach).2 horig.1 h
  have hr := hreach a₀ handed hinv.reach
  obtain ⟨hnd, hlt⟩ := hpool _ _ hr
  obtain ⟨hblocks, hnodup, hin⟩ := snapSpec_step creationTime snap (devs.map ThinDev.expand)
    origin.expand handed hinv.inPlace
    (fun e he b hb => by
      obtain ⟨d, hd, rfl⟩ := List.mem_map.1 he
      exact hinv.handed_blocks d hd b hb)
    (hinv.handed_blocks origin horigin) (hinv.nodup origin horigin)
    (fun p x hp => ⟨origin.expand, List.mem_map_of_mem _ horigin, hp⟩) hnd
    (fun b hb => (hlt b (List.mem_append_right _ hb)).trans T.toNat_lt_two_pow)
    (by rw [hsl, horig.1.length_expand]) hfl.ge
  refine ⟨fresh, hr,
    List.forall_mem_append.2 ⟨hinv.consistent,
      List.forall_mem_singleton.2 ⟨hcons, hsize.trans horig.2⟩⟩,
    List.forall_mem_append.2 ⟨fun d hd b hb =>
      List.mem_append_left _ (hinv.handed_blocks d hd b hb),
      List.forall_mem_singleton.2 (hexp ▸ hblocks)⟩,
    List.forall_mem_append.2 ⟨hinv.nodup, List.forall_mem_singleton.2 (hexp ▸ hnodup)⟩, ?_⟩
  rwa [List.map_append, List.map_singleton, hexp]

end Chain

/-! ### What a device written out says -/

/-- A consistent device is written with no empty `map`, its mappings at increasing positions
below its size, and a header that counts them. -/
theorem ThinDev.Consistent.mappings {d : ThinDev} (hd : d.Consistent) :
    (∀ m ∈ runMaps 0 d.runs, 0 < m.len.toNat) ∧
      d.mappedBlocks = UInt64.ofNat d.mappings.length ∧
      (d.mappings.map fun x => x.1.toNat).Sorted (· < ·) ∧
      ∀ x ∈ d.mappings, x.1.toNat < d.devSize.toNat := by
  have hlen : 0 + d.expand.length ≤ 2 ^ 64 := by
    rw [hd.length_expand]; exact Nat.le_of_lt (by simpa using d.devSize.toNat_lt_two_pow)
  obtain ⟨hs, hb⟩ := placed_sorted 0 d.expand hlen
  refine ⟨runMaps_pos 0 hd.len_pos, ?_, ?_, fun x hx => ?_⟩ <;> rw [mappings_eq_placed] at *
  · rw [length_placed, hd.mappedBlocks_eq]
  · exact hs
  · have := (hb x hx).2
    rwa [Nat.zero_add, hd.length_expand] at this

/-- Devices that share blocks only in place are written with mappings that agree on every data
block they share. -/
theorem mappings_eq_of_inPlace {devs : List ThinDev} (hin : SharesInPlace (devs.map ThinDev.expand))
    {d d' : ThinDev} (hd : d ∈ devs) (hd' : d' ∈ devs) {x y : Triple} (hx : x ∈ d.mappings)
    (hy : y ∈ d'.mappings) (hxy : x.2.1 = y.2.1) : x = y := by
  rw [mappings_eq_placed, mem_placed] at hx hy
  obtain ⟨q, hq, hxq⟩ := hx
  obtain ⟨q', hq', hyq⟩ := hy
  obtain ⟨rfl, hxy'⟩ := hin _ (List.mem_map_of_mem _ hd) _ (List.mem_map_of_mem _ hd') q q' _ _
    hq hq' hxy
  exact Prod.ext (hxq.trans hyq.symm) hxy'

/-- The mappings of a device map only blocks it maps. -/
theorem mem_dataBlocks_of_mappings {d : ThinDev} {x : Triple} (hx : x ∈ d.mappings) :
    x.2.1 ∈ dataBlocks d.expand := by
  rw [mappings_eq_placed, mem_placed] at hx
  obtain ⟨q, hq, -⟩ := hx
  exact mem_dataBlocks hq

/-! ### The generators -/

/-- `common_sb`: the superblock every generator writes. -/
def commonSb (nrBlocks : UInt64) (time : UInt32) : Ir.Superblock :=
  ⟨"", time, 1, none, none, 128, nrBlocks, none⟩

/-- The callbacks of a generator that writes the devices `devs` under the superblock `sb`. -/
def poolEvents (sb : Ir.Superblock) (devs : List ThinDev) : List Ir.Event :=
  .superblockB sb :: devs.flatMap ThinDev.events ++ [.superblockE]

/-- A device written as its header, callbacks of its body, and its end comes back to the
superblock. -/
theorem Phase.run_device (d : Ir.Device) {body : List Ir.Event} (h : ∀ ev ∈ body, ev.IsBody) :
    Phase.superblock.run (.deviceB d :: body ++ [.deviceE]) = some .superblock := by
  rw [List.cons_append, Phase.run_cons]
  show (Phase.device.run _) = _
  rw [Phase.run_append, Phase.run_body (.inr rfl) h]
  rfl

/-- A pool written as its superblock, callbacks that come back to it, and its end is a whole run
of the automaton of the format. -/
theorem Phase.run_pool (sb : Ir.Superblock) {body : List Ir.Event}
    (h : Phase.superblock.run body = some .superblock) :
    Phase.start.run (.superblockB sb :: body ++ [.superblockE]) = some .closed := by
  rw [List.cons_append, Phase.run_cons]
  show (Phase.superblock.run _) = _
  rw [Phase.run_append, h]
  rfl

/-- `map` callbacks are callbacks of a body. -/
theorem isBody_of_mem_map {α : Type} {f : α → Ir.Map} {l : List α} {ev : Ir.Event}
    (h : ev ∈ l.map fun a => .map (f a)) : ev.IsBody := by
  obtain ⟨a, -, rfl⟩ := List.mem_map.1 h
  trivial

/-- The callbacks that write a pool of devices are a whole run of the automaton of the format,
up to `superblock_e`. -/
theorem run_poolEvents (sb : Ir.Superblock) (devs : List ThinDev) :
    Phase.start.run (poolEvents sb devs) = some .closed :=
  Phase.run_pool sb (Phase.run_flatMap fun _ _ => Phase.run_device _ fun _ => isBody_of_mem_map)

/-- `EmptyPoolS`: a pool of `old_nr_data_blocks` blocks with no device. -/
structure EmptyPoolS where
  oldNrDataBlocks : UInt64
  newNrDataBlocks : UInt64

/-- `SingleThinS`: one device of `len` blocks mapped to the data blocks from `offset`. -/
structure SingleThinS where
  offset : UInt64
  len : UInt64
  oldNrDataBlocks : UInt64
  newNrDataBlocks : UInt64

/-- `SnapS`: an origin of `len` blocks and a chain of snapshots, `nr_snaps` devices in all, each
`percent_change` percent different from the one before. -/
structure SnapS where
  len : UInt64
  nrSnaps : UInt32
  percentChange : UInt64
  oldNrDataBlocks : UInt64
  newNrDataBlocks : UInt64

/-- `SnapS::new`: a pool of the origin's size and three times the expected change. -/
def SnapS.new (len : UInt64) (nrSnaps : UInt32) (percentChange : UInt64) : SnapS :=
  let delta := len * nrSnaps.toUInt64 * percentChange / 100
  ⟨len, nrSnaps, percentChange, len + 3 * delta, len + 2 * delta⟩

section Generate

variable {ε σ ρ : Type} (rng : Rng ρ) (out : Ir.Event → EStateM ε σ Ir.Visit)

/-- `EmptyPoolS::generate_xml`. -/
def EmptyPoolS.generateXml (self : EmptyPoolS) : GenM ε σ ρ Unit := do
  visit out (.superblockB (commonSb self.oldNrDataBlocks 0))
  visit out .superblockE

/-- `SingleThinS::generate_xml`. -/
def SingleThinS.generateXml (self : SingleThinS) : GenM ε σ ρ Unit := do
  visit out (.superblockB (commonSb self.oldNrDataBlocks 0))
  visit out (.deviceB ⟨0, self.len, 0, 0, 0⟩)
  visit out (.map ⟨0, self.offset, 0, self.len⟩)
  visit out .deviceE
  visit out .superblockE

/-- The loop of `SnapS::generate_xml` over `thin` in `1..nr_snaps`: each snapshot is made from
the device before it, then written. The test `thin != nr_snaps - 1` overflows for `nr_snaps = 0`,
which the range rules out. -/
def snapLoop (nrSnaps : UInt32) (percentChange : UInt64) :
    List UInt32 → ThinDev → Allocator → UInt32 → UInt32 → GenM ε σ ρ Unit
  | [], _, _, _, _ => pure ()
  | thin :: thins, origin, allocator, creationTime, snapTime => do
    let creationTime := creationTime + 1
    let last ← checkedSub nrSnaps 1
    let snapTime := if thin ≠ last then snapTime + 1 else snapTime
    let (snap, allocator) ←
      build (mkSnapshot rng thin origin percentChange allocator creationTime snapTime)
    snap.emit out
    snapLoop nrSnaps percentChange thins snap allocator creationTime snapTime

/-- `SnapS::generate_xml`. The timestamp `nr_snaps - 1` overflows for `nr_snaps = 0`. -/
def SnapS.generateXml (self : SnapS) : GenM ε σ ρ Unit := do
  let allocator ← draw (Allocator.newShuffled rng self.oldNrDataBlocks ⟨64, 512⟩ (by decide))
  let creationTime : UInt32 := 0
  let snapTime : UInt32 := if self.nrSnaps > 1 then 1 else 0
  let (origin, allocator) ← build (mkOrigin rng 0 self.len 50 allocator creationTime snapTime)
  let time ← checkedSub self.nrSnaps 1
  visit out (.superblockB (commonSb self.oldNrDataBlocks time))
  origin.emit out
  snapLoop rng out self.nrSnaps self.percentChange
    ((List.range' 1 (self.nrSnaps.toNat - 1)).map UInt32.ofNat) origin allocator creationTime
    snapTime
  visit out .superblockE

/-- Every run of the loop of `SnapS::generate_xml` that succeeds extends the chain, and has
written the snapshots it made. -/
theorem snapLoop_spec {a₀ : Allocator} {T : UInt64} (hwf₀ : a₀.WF)
    (hpool : ∀ handed a, Allocator.Reach a₀ handed a → handed.Nodup ∧ ∀ b ∈ handed, b < T.toNat)
    (nrSnaps : UInt32) (percentChange len : UInt64) (thins : List UInt32) :
    ∀ {handed : List Nat} {devs : List ThinDev} {origin : ThinDev} {a : Allocator}
      {creationTime snapTime : UInt32} {s s' : σ} {g g' : ρ},
      ChainInv a₀ len handed devs a → origin ∈ devs →
      snapLoop rng out nrSnaps percentChange thins origin a creationTime snapTime (s, g) =
        .ok () (s', g') →
      ∃ handed' newDevs a', ChainInv a₀ len handed' (devs ++ newDevs) a' ∧
        deliver out (newDevs.flatMap ThinDev.events) s = .ok () s' := by
  induction thins with
  | nil =>
    intro handed devs origin a _ _ s s' g g' hinv _ h
    cases h
    exact ⟨handed, [], a, by simpa using hinv, rfl⟩
  | cons thin thins ih =>
    intro handed devs origin a _ _ s s' g g' hinv horigin h
    rw [snapLoop] at h
    obtain ⟨last, st₀, hsub, h⟩ := EStateM.bind_eq_ok_iff.1 h
    obtain ⟨-, rfl, rfl⟩ := checkedSub_eq_ok hsub
    obtain ⟨⟨dev, a₁⟩, ⟨s₁, g₁⟩, hb, hrest⟩ := EStateM.bind_eq_ok_iff.1 h
    obtain ⟨hsnap, rfl⟩ := (build_eq_ok_iff _ _ _ _ _ _).1 hb
    obtain ⟨_, ⟨s₂, g₂⟩, he, hloop⟩ := EStateM.bind_eq_ok_iff.1 hrest
    rw [ThinDev.emit_eq, forM_visit_eq_ok_iff] at he
    obtain ⟨hdel, rfl⟩ := he
    obtain ⟨fresh, hinv'⟩ := ChainInv.snapshot rng hwf₀ hpool hinv horigin _ _ _ _ _ hsnap
    obtain ⟨handed', newDevs, a', hinv'', hdel'⟩ :=
      ih hinv' (List.mem_append_right _ (List.mem_singleton_self _)) hloop
    refine ⟨handed', dev :: newDevs, a', by simpa using hinv'', ?_⟩
    rw [List.flatMap_cons, deliver_append]
    exact ⟨s₂, hdel, hdel'⟩

/-- Whenever `SnapS::generate_xml` succeeds, the visitor has received a pool of devices, which
form a chain from the pool the generator drew. -/
theorem SnapS.generateXml_spec (self : SnapS) (s s' : σ) (g g' : ρ)
    (h : self.generateXml rng out (s, g) = .ok () (s', g')) :
    ∃ (devs : List ThinDev) (handed : List Nat) (a : Allocator),
      deliver out (poolEvents (commonSb self.oldNrDataBlocks (self.nrSnaps - 1)) devs) s =
        .ok () s' ∧
      ChainInv (Allocator.newShuffled rng self.oldNrDataBlocks ⟨64, 512⟩ (by decide) g).1 self.len
        handed devs a := by
  obtain ⟨hperm, hwf₀⟩ :=
    Allocator.blocks_newShuffled rng self.oldNrDataBlocks ⟨64, 512⟩ (by decide) g
  have hpool : ∀ handed a, Allocator.Reach _ handed a →
      handed.Nodup ∧ ∀ b ∈ handed, b < self.oldNrDataBlocks.toNat := fun handed a hr =>
    have h := Allocator.Reach.nodup_of_perm hwf₀ hperm hr
    ⟨h.1.of_append_left, h.2⟩
  rw [SnapS.generateXml, draw_bind] at h
  obtain ⟨⟨origin, a₁⟩, ⟨s₂, g₂⟩, hb, h₂⟩ := EStateM.bind_eq_ok_iff.1 h
  obtain ⟨horig, rfl⟩ := (build_eq_ok_iff _ _ _ _ _ _).1 hb
  obtain ⟨time, st₀, hsub, h₂⟩ := EStateM.bind_eq_ok_iff.1 h₂
  obtain ⟨-, rfl, rfl⟩ := checkedSub_eq_ok hsub
  obtain ⟨_, ⟨s₃, g₃⟩, hsb, h₃⟩ := EStateM.bind_eq_ok_iff.1 h₂
  obtain ⟨⟨v, hv⟩, rfl⟩ := (visit_eq_ok_iff _ _ _ _ _ _).1 hsb
  obtain ⟨_, ⟨s₄, g₄⟩, hemit, h₄⟩ := EStateM.bind_eq_ok_iff.1 h₃
  rw [ThinDev.emit_eq, forM_visit_eq_ok_iff] at hemit
  obtain ⟨hdel₁, rfl⟩ := hemit
  obtain ⟨_, ⟨s₅, g₅⟩, hloop, hse⟩ := EStateM.bind_eq_ok_iff.1 h₄
  obtain ⟨handed, hinv⟩ := ChainInv.origin rng hwf₀ hpool _ _ _ _ _ _ horig
  obtain ⟨handed', newDevs, a', hinv', hdel₂⟩ :=
    snapLoop_spec rng out hwf₀ hpool _ _ _ _ hinv (List.mem_singleton_self _) hloop
  obtain ⟨⟨v', hv'⟩, -⟩ := (visit_eq_ok_iff _ _ _ _ _ _).1 hse
  refine ⟨origin :: newDevs, handed', a', ?_, by simpa using hinv'⟩
  rw [poolEvents, List.cons_append, deliver, EStateM.bind_eq_ok_iff]
  refine ⟨v, s₃, hv, ?_⟩
  rw [List.flatMap_cons, List.append_assoc, deliver_append]
  refine ⟨s₄, hdel₁, (deliver_append _ _ _ _ _).2 ⟨s₅, hdel₂, ?_⟩⟩
  exact EStateM.bind_eq_ok_iff.2 ⟨v', s', hv', rfl⟩

/-- Whatever the random source, whenever `SnapS::generate_xml` succeeds, its callbacks are a
whole run of the format up to `superblock_e`, and the metadata they describe is well formed: no
`map` is empty; the mappings of each device are at increasing positions below its size, map
blocks of the pool, and are counted by its header; and a data block mapped twice, in one
device or in two, is mapped at the same position with the same time. -/
theorem SnapS.generateXml_valid (self : SnapS) (s s' : σ) (g g' : ρ)
    (h : self.generateXml rng out (s, g) = .ok () (s', g')) :
    ∃ devs : List ThinDev,
      deliver out (poolEvents (commonSb self.oldNrDataBlocks (self.nrSnaps - 1)) devs) s =
        .ok () s' ∧
      Phase.start.run (poolEvents (commonSb self.oldNrDataBlocks (self.nrSnaps - 1)) devs) =
        some .closed ∧
      (∀ d ∈ devs, (∀ m ∈ runMaps 0 d.runs, 0 < m.len.toNat) ∧
        d.mappedBlocks = UInt64.ofNat d.mappings.length ∧
        (d.mappings.map fun x => x.1.toNat).Sorted (· < ·) ∧
        ∀ x ∈ d.mappings, x.1.toNat < self.len.toNat ∧
          x.2.1.toNat < self.oldNrDataBlocks.toNat) ∧
      ∀ d ∈ devs, ∀ d' ∈ devs, ∀ x ∈ d.mappings, ∀ y ∈ d'.mappings, x.2.1 = y.2.1 → x = y := by
  obtain ⟨devs, handed, a, hdel, hinv⟩ := SnapS.generateXml_spec rng out self s s' g g' h
  obtain ⟨hperm, hwf₀⟩ :=
    Allocator.blocks_newShuffled rng self.oldNrDataBlocks ⟨64, 512⟩ (by decide) g
  have hlt := (Allocator.Reach.nodup_of_perm hwf₀ hperm hinv.reach).2
  refine ⟨devs, hdel, run_poolEvents _ _, fun d hd => ?_,
    fun d hd d' hd' x hx y hy hxy => mappings_eq_of_inPlace hinv.inPlace hd hd' hx hy hxy⟩
  obtain ⟨hcons, hsize⟩ := hinv.consistent d hd
  obtain ⟨hpos, hmb, hsorted, hbound⟩ := hcons.mappings
  exact ⟨hpos, hmb, hsorted, fun x hx => ⟨hsize ▸ hbound x hx,
    hlt _ (hinv.handed_blocks d hd _ (mem_dataBlocks_of_mappings hx))⟩⟩

/-- The loop of `SnapS::generate_xml`, with one device at least and a change of at most 100
percent, fails only by the visitor while the allocator has a free block for each position of
each snapshot still to make. -/
theorem snapLoop_ne_gen (nrSnaps : UInt32) (percentChange : UInt64) (thins : List UInt32)
    (hsnaps : 1 ≤ nrSnaps) (hchange : percentChange ≤ 100) :
    ∀ {origin : ThinDev} {a : Allocator} {creationTime snapTime : UInt32} (s st : σ × ρ)
      (e : GenError), a.WF → origin.Consistent →
      thins.length * origin.devSize.toNat ≤ a.blocks.length →
      snapLoop rng out nrSnaps percentChange thins origin a creationTime snapTime s ≠
        .error (.gen e) st := by
  induction thins with
  | nil => intros; simp [snapLoop]
  | cons thin thins ih =>
    intro origin a _ _ ⟨s, g⟩ st e hwf hcons hroom
    rw [List.length_cons, Nat.succ_mul] at hroom
    obtain ⟨dev, a₁, g₁, hsnap, hcons₁, hsize, hwf₁, hroom₁⟩ :=
      mkSnapshot_ok rng thin origin percentChange a _ _ g hwf hcons hchange (by omega)
    rw [snapLoop, checkedSub_bind hsnaps]
    dsimp only
    rw [build_bind_of_ok hsnap]
    refine bind_ne_gen (by rw [ThinDev.emit_eq]; exact forM_visit_ne_gen out _ _ _ _)
      fun _ s₁ _ => ih s₁ st e hwf₁ hcons₁ (by simp only [hsize]; omega)

/-- Whatever the random source, `SnapS::generate_xml` fails only by the visitor when there is one
device at least, the change is a percentage and the pool has room for `nr_snaps` devices of
`len` blocks: no allocation runs out of space, no `assert!` fires, and neither `nr_snaps - 1`
nor `100 - percent_change` overflows. -/
theorem SnapS.generateXml_ne_gen (self : SnapS) (s : σ) (g : ρ) (hsnaps : 0 < self.nrSnaps.toNat)
    (hchange : self.percentChange ≤ 100)
    (hroom : self.nrSnaps.toNat * self.len.toNat ≤ self.oldNrDataBlocks.toNat) (e : GenError)
    (st : σ × ρ) : self.generateXml rng out (s, g) ≠ .error (.gen e) st := by
  obtain ⟨hperm, hwf₀⟩ :=
    Allocator.blocks_newShuffled rng self.oldNrDataBlocks ⟨64, 512⟩ (by decide) g
  have hlen₀ := hperm.length_eq
  rw [List.length_range] at hlen₀
  have horigin : self.len.toNat ≤ self.nrSnaps.toNat * self.len.toNat :=
    Nat.le_mul_of_pos_left _ hsnaps
  obtain ⟨origin, a₁, g₁, horig, hcons, hsize, hwf₁, hroom₁⟩ :=
    mkOrigin_ok rng 0 self.len 50 _ 0 (if self.nrSnaps > 1 then 1 else 0) _ hwf₀ (by omega)
  have h1 : (1 : UInt32) ≤ self.nrSnaps := UInt32.le_iff_toNat_le.2 hsnaps
  rw [SnapS.generateXml, draw_bind, build_bind_of_ok horig]
  dsimp only
  rw [checkedSub_bind h1]
  refine bind_ne_gen (visit_ne_gen out _ _ _ _) fun _ s₁ _ => bind_ne_gen
    (by rw [ThinDev.emit_eq]; exact forM_visit_ne_gen out _ _ _ _) fun _ s₂ _ =>
    bind_ne_gen (snapLoop_ne_gen rng out _ _ _ h1 hchange s₂ st e hwf₁ hcons ?_) fun _ s₃ _ =>
    visit_ne_gen out _ _ _ _
  rw [List.length_map, List.length_range', hsize, Nat.sub_one_mul]
  omega

end Generate

/-- An origin of 16 blocks and one snapshot, from a pool of 64, each draw the lowest: the
snapshot keeps every mapping of the origin, and the two share their blocks in place. -/
theorem snapS_generateXml_valid_two :
    let out : Ir.Event → EStateM Unit (List Ir.Event) Ir.Visit := fun e s => .ok .continue (s ++ [e])
    let self := SnapS.new 16 2 50
    let evs : List Ir.Event := [.superblockB (commonSb 64 1), .deviceB ⟨0, 16, 0, 0, 1⟩,
      .map ⟨0, 0, 0, 16⟩, .deviceE, .deviceB ⟨1, 16, 0, 1, 1⟩, .map ⟨0, 0, 0, 16⟩, .deviceE,
      .superblockE]
    self.generateXml Rng.lowest out ([], ()) = .ok () (evs, ()) ∧
    ∃ devs : List ThinDev,
      deliver out (poolEvents (commonSb self.oldNrDataBlocks (self.nrSnaps - 1)) devs) [] =
        .ok () evs ∧
      Phase.start.run (poolEvents (commonSb self.oldNrDataBlocks (self.nrSnaps - 1)) devs) =
        some .closed ∧
      (∀ d ∈ devs, (∀ m ∈ runMaps 0 d.runs, 0 < m.len.toNat) ∧
        d.mappedBlocks = UInt64.ofNat d.mappings.length ∧
        (d.mappings.map fun x => x.1.toNat).Sorted (· < ·) ∧
        ∀ x ∈ d.mappings, x.1.toNat < self.len.toNat ∧
          x.2.1.toNat < self.oldNrDataBlocks.toNat) ∧
      ∀ d ∈ devs, ∀ d' ∈ devs, ∀ x ∈ d.mappings, ∀ y ∈ d'.mappings, x.2.1 = y.2.1 → x = y := by
  intro out self evs
  have h : (SnapS.new 16 2 50).generateXml Rng.lowest out ([], ()) = .ok () (evs, ()) := by rfl
  exact ⟨h, SnapS.generateXml_valid Rng.lowest out (SnapS.new 16 2 50) [] evs () () h⟩

/-- `SnapS::new(16, 2, 50)` draws a pool of 64 blocks, room for the origin and its snapshot. -/
theorem snapS_new_generateXml_ne_gen :
    0 < (SnapS.new 16 2 50).nrSnaps.toNat ∧ (SnapS.new 16 2 50).percentChange ≤ 100 ∧
      (SnapS.new 16 2 50).nrSnaps.toNat * (SnapS.new 16 2 50).len.toNat ≤
        (SnapS.new 16 2 50).oldNrDataBlocks.toNat ∧
      ∀ (e : GenError) (st : List Ir.Event × Unit),
        (SnapS.new 16 2 50).generateXml Rng.lowest
          (fun e s => .ok .continue (s ++ [e]) : Ir.Event → EStateM Unit (List Ir.Event) Ir.Visit)
          ([], ()) ≠ .error (.gen e) st :=
  ⟨by decide, by decide, by decide,
    SnapS.generateXml_ne_gen Rng.lowest _ (SnapS.new 16 2 50) [] () (by decide) (by decide)
      (by decide)⟩

end ThinProvisioning.Tests
