import Mathlib.Control.Basic

/-!
# Computations that stop at the first failure

The dump runs in `EStateM`: a state that every step may change, and errors that end the run and
keep the state reached. This file states how a bind ends, and introduces `foldResults`, the
loop that every part of the dump reduces to: a list of results, each a value or an error, with a
call on each value, stopping at the first error or at the first call that fails. Its two
characterisations, `foldResults_eq_ok_iff` and `foldResults_eq_error`, say when such a loop
succeeds and where it stops when it does not.
-/

namespace ThinProvisioning

namespace EStateM

variable {ε σ α β : Type}

theorem bind_apply (x : EStateM ε σ α) (f : α → EStateM ε σ β) (s : σ) :
    (x >>= f) s = match x s with
      | .ok a s' => f a s'
      | .error e s' => .error e s' := rfl

@[simp] theorem pure_apply (a : α) (s : σ) : (pure a : EStateM ε σ α) s = .ok a s := rfl

@[simp] theorem throw_apply (e : ε) (s : σ) : (throw e : EStateM ε σ α) s = .error e s := rfl

theorem throw_bind (e : ε) (f : α → EStateM ε σ β) : (throw e >>= f) = throw e := rfl

theorem bind_eq_ok_iff {x : EStateM ε σ α} {f : α → EStateM ε σ β} {s s' : σ} {b : β} :
    (x >>= f) s = .ok b s' ↔ ∃ a s₁, x s = .ok a s₁ ∧ f a s₁ = .ok b s' := by
  rw [bind_apply]
  cases x s with
  | ok a s₁ => exact ⟨fun h => ⟨a, s₁, rfl, h⟩, fun ⟨_, _, h₁, h₂⟩ => by cases h₁; exact h₂⟩
  | error e s₁ => simp

theorem bind_eq_error_iff {x : EStateM ε σ α} {f : α → EStateM ε σ β} {s s' : σ} {e : ε} :
    (x >>= f) s = .error e s' ↔
      x s = .error e s' ∨ ∃ a s₁, x s = .ok a s₁ ∧ f a s₁ = .error e s' := by
  rw [bind_apply]
  cases x s with
  | ok a s₁ =>
    refine ⟨fun h => .inr ⟨a, s₁, rfl, h⟩, ?_⟩
    rintro (h | ⟨_, _, h₁, h₂⟩)
    · cases h
    · cases h₁; exact h₂
  | error e₁ s₁ => simp

end EStateM

namespace Except

variable {ε α β : Type}

@[simp] theorem ok_bind (a : α) (f : α → Except ε β) : (Except.ok a >>= f) = f a := rfl

@[simp] theorem error_bind (e : ε) (f : α → Except ε β) :
    (Except.error e >>= f) = Except.error e := rfl

theorem map_eq_ok_iff {f : α → β} {x : Except ε α} {b : β} :
    f <$> x = .ok b ↔ ∃ a, x = .ok a ∧ f a = b := by
  cases x <;> simp [Functor.map, Except.map]

end Except

/-! ### Loops over results -/

section FoldResults

variable {ε σ α β : Type} (t : α → β → EStateM ε σ α)

/-- `t` on the value of each result in turn, threading `a`; the first error ends the loop, and
so does the first call of `t` that fails. -/
def foldResults : α → List (Except ε β) → EStateM ε σ α
  | a, [] => pure a
  | a, .ok b :: rs => t a b >>= fun a' => foldResults a' rs
  | _, .error e :: _ => throw e

@[simp] theorem foldResults_nil (a : α) : foldResults t a [] = pure a := rfl

theorem foldResults_ok_cons (a : α) (b : β) (rs : List (Except ε β)) :
    foldResults t a (.ok b :: rs) = t a b >>= fun a' => foldResults t a' rs := rfl

theorem foldResults_error_cons (a : α) (e : ε) (rs : List (Except ε β)) :
    foldResults t a (.error e :: rs) = throw e := rfl

theorem foldResults_append (a : α) (p q : List (Except ε β)) :
    foldResults t a (p ++ q) = foldResults t a p >>= fun a' => foldResults t a' q := by
  induction p generalizing a with
  | nil => simp
  | cons r p ih =>
    cases r with
    | error e => rfl
    | ok b => simp only [List.cons_append, foldResults_ok_cons, ih, bind_assoc]

/-- On results that are all values, the loop is the fold of `t`. -/
theorem foldResults_map_ok (a : α) (bs : List β) :
    foldResults t a (bs.map .ok) = bs.foldlM t a := by
  induction bs generalizing a with
  | nil => rfl
  | cons b bs ih => simp only [List.map_cons, foldResults_ok_cons, ih, List.foldlM_cons]

/-- The loop succeeds exactly when every result is a value and every call of `t` succeeds. -/
theorem foldResults_eq_ok_iff (a : α) (rs : List (Except ε β)) (s s' : σ) (a' : α) :
    foldResults t a rs s = .ok a' s' ↔
      ∃ bs : List β, rs = bs.map .ok ∧ bs.foldlM t a s = .ok a' s' := by
  induction rs generalizing a s with
  | nil => simp [and_comm, eq_comm]
  | cons r rs ih =>
    cases r with
    | error e =>
      refine ⟨fun h => by simp [foldResults_error_cons] at h, ?_⟩
      rintro ⟨_ | ⟨b, bs⟩, h, -⟩ <;> simp at h
    | ok b =>
      simp only [foldResults_ok_cons, EStateM.bind_eq_ok_iff, ih]
      constructor
      · rintro ⟨a₁, s₁, h₁, bs, rfl, h₂⟩
        exact ⟨b :: bs, rfl, EStateM.bind_eq_ok_iff.2 ⟨a₁, s₁, h₁, h₂⟩⟩
      · rintro ⟨_ | ⟨b', bs⟩, h, hfold⟩
        · cases h
        · simp only [List.map_cons, List.cons.injEq, Except.ok.injEq] at h
          obtain ⟨rfl, rfl⟩ := h
          obtain ⟨a₁, s₁, h₁, h₂⟩ := EStateM.bind_eq_ok_iff.1 hfold
          exact ⟨a₁, s₁, h₁, bs, rfl, h₂⟩

/-- When the loop fails, it has gone through a prefix of values with every call succeeding, and
stopped at the next result: an error, which it returns, or a value on which `t` failed. Nothing
after that result is called. -/
theorem foldResults_eq_error (a : α) (rs : List (Except ε β)) (s s' : σ) (e : ε)
    (h : foldResults t a rs s = .error e s') :
    ∃ (bs : List β) (r : Except ε β) (rest : List (Except ε β)) (a₁ : α) (s₁ : σ),
      rs = bs.map .ok ++ r :: rest ∧ bs.foldlM t a s = .ok a₁ s₁ ∧
      ((r = .error e ∧ s' = s₁) ∨ ∃ b, r = .ok b ∧ t a₁ b s₁ = .error e s') := by
  induction rs generalizing a s with
  | nil => cases h
  | cons r rs ih =>
    cases r with
    | error e₁ =>
      simp only [foldResults_error_cons, EStateM.throw_apply, EStateM.Result.error.injEq] at h
      exact ⟨[], .error e₁, rs, a, s, rfl, rfl, .inl ⟨by rw [h.1], h.2.symm⟩⟩
    | ok b =>
      rw [foldResults_ok_cons, EStateM.bind_eq_error_iff] at h
      rcases h with h | ⟨a₁, s₁, h₁, h₂⟩
      · exact ⟨[], .ok b, rs, a, s, rfl, rfl, .inr ⟨b, rfl, h⟩⟩
      · obtain ⟨bs, r, rest, a₂, s₂, hrs, hfold, hend⟩ := ih a₁ s₁ h₂
        refine ⟨b :: bs, r, rest, a₂, s₂, by simp [hrs], ?_, hend⟩
        exact EStateM.bind_eq_ok_iff.2 ⟨a₁, s₁, h₁, hfold⟩

end FoldResults

end ThinProvisioning
