import Mathlib.Data.Nat.Digits
import ThinProvisioning.Word
import ThinProvisioning.EState

/-!
# Parsing a range of blocks

`RangeU64::from_str` reads a range `start..end` of blocks from the command line: it splits the
string at `".."`, parses the first two pieces with `u64::from_str`, rejects a third piece, and
rejects a range that is empty. The string is accepted exactly when it is a literal of `u64`, then
`".."`, then a literal of `u64` greater than the first (`fromStr_spec`); a literal holds no dot,
so the split finds the separator where it is written. In particular the range that
`format!("{start}..{end}")` prints is read back.

`u64::from_str` is the standard library's `from_str_radix(s, 10)`, embedded as `parseU64`: an
optional sign `+`, then decimal digits, with the errors `Empty`, `InvalidDigit` and
`PosOverflow`. `s.split("..")` is `splitDotDot`: the pieces between the occurrences of `".."`,
found from the left without overlapping.

## Main definitions

* `splitDotDot`, `digitStep`, `parseU64`: the standard library functions `from_str` calls.
* `RangeU64`, `RangeError`, `fromStr`.

## Main results

* `parseU64_eq_ok_iff`: the literals `u64::from_str` accepts.
* `parseU64_toDigits`: `u64::from_str` reads back the decimal digits of a `u64`.
* `fromStr_spec`.

## References

* `src/src/commands/utils.rs`, lines 18–45.
-/

namespace ThinProvisioning.Commands

/-! ### Splitting at `".."` -/

/-- Put `c` in front of the first piece. -/
def consFirst (c : Char) : List (List Char) → List (List Char)
  | p :: ps => (c :: p) :: ps
  | [] => [[c]]

/-- `s.split("..")`: the pieces of `s` between the occurrences of `".."`, found from the left
without overlapping. -/
def splitDotDot : List Char → List (List Char)
  | '.' :: '.' :: cs => [] :: splitDotDot cs
  | c :: cs => consFirst c (splitDotDot cs)
  | [] => [[]]

theorem splitDotDot_cons_of_ne {c : Char} (hc : c ≠ '.') (cs : List Char) :
    splitDotDot (c :: cs) = consFirst c (splitDotDot cs) :=
  splitDotDot.eq_2 c cs fun _ h => absurd h hc

theorem splitDotDot_ne_nil (l : List Char) : splitDotDot l ≠ [] := by
  induction l using splitDotDot.induct with
  | case1 cs _ => simp [splitDotDot]
  | case2 c cs hne _ =>
    rw [splitDotDot.eq_2 c cs hne]
    cases splitDotDot cs <;> simp [consFirst]
  | case3 => simp [splitDotDot]

/-- A piece with no dot is not cut. -/
theorem splitDotDot_of_not_mem {l : List Char} (hl : '.' ∉ l) : splitDotDot l = [l] := by
  induction l with
  | nil => rfl
  | cons c l ih =>
    simp only [List.mem_cons, not_or] at hl
    rw [splitDotDot_cons_of_ne (Ne.symm hl.1), ih hl.2, consFirst]

/-- A first piece with no dot is cut at the `".."` after it. -/
theorem splitDotDot_append {a : List Char} (ha : '.' ∉ a) (b : List Char) :
    splitDotDot (a ++ '.' :: '.' :: b) = a :: splitDotDot b := by
  induction a with
  | nil => rfl
  | cons c a ih =>
    simp only [List.mem_cons, not_or] at ha
    rw [List.cons_append, splitDotDot_cons_of_ne (Ne.symm ha.1), ih ha.2, consFirst]

/-- The first piece is the whole string, or the part before the first `".."`. -/
theorem eq_of_splitDotDot {l a : List Char} {rest : List (List Char)}
    (h : splitDotDot l = a :: rest) :
    rest = [] ∧ l = a ∨ ∃ l', l = a ++ '.' :: '.' :: l' ∧ splitDotDot l' = rest := by
  induction l using splitDotDot.induct generalizing a rest with
  | case1 cs _ =>
    rw [splitDotDot.eq_1, List.cons.injEq] at h
    exact .inr ⟨cs, by rw [← h.1]; rfl, h.2⟩
  | case2 c cs hne ih =>
    rw [splitDotDot.eq_2 c cs hne] at h
    obtain ⟨p, ps, hps⟩ := List.exists_cons_of_ne_nil (splitDotDot_ne_nil cs)
    rw [hps, consFirst, List.cons.injEq] at h
    obtain ⟨rfl, rfl⟩ := h
    rcases ih hps with ⟨rfl, rfl⟩ | ⟨l', rfl, hl'⟩
    · exact .inl ⟨rfl, rfl⟩
    · exact .inr ⟨l', rfl, hl'⟩
  | case3 =>
    rw [splitDotDot.eq_3, List.cons.injEq] at h
    exact .inl ⟨h.2.symm, h.1⟩

/-! ### `u64::from_str` -/

/-- `IntErrorKind`: why `from_str_radix` failed. -/
inductive IntErrorKind
  | empty
  | invalidDigit
  | posOverflow
deriving DecidableEq, Repr

/-- One character of `from_str_radix` in base ten: `acc * 10 + digit`, failing on a character
that is not a decimal digit, and then on a result past `u64::MAX`. -/
def digitStep (acc : Nat) (c : Char) : Except IntErrorKind Nat :=
  if c.isDigit then
    if acc * 10 + (c.toNat - '0'.toNat) < 2 ^ 64 then .ok (acc * 10 + (c.toNat - '0'.toNat))
    else .error .posOverflow
  else .error .invalidDigit

/-- `u64::from_str`: `from_str_radix(src, 10)`. A sign alone is an invalid digit; a leading `+`
is dropped, and a leading `-` is a digit like any other, so it is invalid. -/
def parseU64 : List Char → Except IntErrorKind UInt64
  | [] => .error .empty
  | c :: rest =>
    if (c = '+' ∨ c = '-') ∧ rest = [] then .error .invalidDigit
    else UInt64.ofNat <$> (if c = '+' then rest else c :: rest).foldlM digitStep 0

theorem le_foldl_digit (ds : List Char) (acc : Nat) :
    acc ≤ ds.foldl (fun n c => n * 10 + (c.toNat - '0'.toNat)) acc := by
  induction ds generalizing acc with
  | nil => exact le_rfl
  | cons d ds ih => exact (by omega : acc ≤ acc * 10 + _).trans (ih _)

/-- The digit loop succeeds exactly on decimal digits whose value stays within `u64`. -/
theorem foldlM_digitStep_eq_ok_iff {ds : List Char} {acc n : Nat} (hacc : acc < 2 ^ 64) :
    ds.foldlM digitStep acc = .ok n ↔ (∀ c ∈ ds, c.isDigit) ∧
      ds.foldl (fun n c => n * 10 + (c.toNat - '0'.toNat)) acc = n ∧ n < 2 ^ 64 := by
  induction ds generalizing acc with
  | nil =>
    simp only [List.foldlM_nil, List.foldl_nil]
    constructor
    · intro h
      cases h
      exact ⟨List.forall_mem_nil _, rfl, hacc⟩
    · rintro ⟨-, rfl, -⟩
      rfl
  | cons d ds ih =>
    rw [List.foldlM_cons, List.forall_mem_cons, List.foldl_cons, digitStep]
    by_cases hd : d.isDigit
    · by_cases hlt : acc * 10 + (d.toNat - '0'.toNat) < 2 ^ 64
      · rw [if_pos hd, if_pos hlt, Except.ok_bind, ih hlt]
        simp [hd]
      · rw [if_pos hd, if_neg hlt, Except.error_bind]
        refine ⟨(fun h => by cases h), fun ⟨_, hfold, hn⟩ => absurd ?_ hlt⟩
        exact (le_foldl_digit ds _).trans_lt (hfold ▸ hn)
    · rw [if_neg hd, Except.error_bind]
      simp [hd]

/-- The loop of `from_str_radix` gives `v` exactly on the decimal digits of `v`. -/
theorem ofNat_foldlM_digitStep_eq_ok_iff {ds : List Char} {v : UInt64} :
    UInt64.ofNat <$> ds.foldlM digitStep 0 = .ok v ↔
      (∀ c ∈ ds, c.isDigit) ∧ ds.foldl (fun n c => n * 10 + (c.toNat - '0'.toNat)) 0 = v.toNat := by
  rw [Except.map_eq_ok_iff]
  constructor
  · rintro ⟨n, hn, rfl⟩
    obtain ⟨hdig, hfold, hlt⟩ := (foldlM_digitStep_eq_ok_iff (by decide)).1 hn
    exact ⟨hdig, by rw [hfold, UInt64.toNat_ofNat_eq, Nat.mod_eq_of_lt hlt]⟩
  · rintro ⟨hdig, hfold⟩
    exact ⟨v.toNat, (foldlM_digitStep_eq_ok_iff (by decide)).2
      ⟨hdig, hfold, v.toNat_lt_two_pow⟩, UInt64.ofNat_toNat_eq v⟩

/-- `u64::from_str` accepts an optional `+` followed by one or more decimal digits, of a value
at most `u64::MAX`. -/
theorem parseU64_eq_ok_iff {l : List Char} {v : UInt64} :
    parseU64 l = .ok v ↔ ∃ ds, (l = ds ∨ l = '+' :: ds) ∧ ds ≠ [] ∧ (∀ c ∈ ds, c.isDigit) ∧
      ds.foldl (fun n c => n * 10 + (c.toNat - '0'.toNat)) 0 = v.toNat := by
  cases l with
  | nil => simp [parseU64]
  | cons c rest =>
    rw [parseU64]
    by_cases hsign : (c = '+' ∨ c = '-') ∧ rest = []
    · obtain ⟨hc, rfl⟩ := hsign
      rw [if_pos ⟨hc, rfl⟩]
      refine ⟨(fun h => by cases h), ?_⟩
      rintro ⟨ds, rfl | h, hne, hdig, -⟩
      · have := hdig c (List.mem_singleton_self c)
        rcases hc with rfl | rfl <;> exact absurd this (by decide)
      · exact absurd (List.cons.inj h).2.symm hne
    · rw [if_neg hsign]
      by_cases hplus : c = '+'
      · subst hplus
        rw [if_pos rfl, ofNat_foldlM_digitStep_eq_ok_iff]
        constructor
        · rintro ⟨hdig, hfold⟩
          exact ⟨rest, .inr rfl, fun h => hsign ⟨.inl rfl, h⟩, hdig, hfold⟩
        · rintro ⟨ds, h | h, -, hdig, hfold⟩
          · exact absurd (hdig '+' (h ▸ List.mem_cons_self _ _)) (by decide)
          · rw [(List.cons.inj h).2]
            exact ⟨hdig, hfold⟩
      · rw [if_neg hplus, ofNat_foldlM_digitStep_eq_ok_iff]
        constructor
        · rintro ⟨hdig, hfold⟩
          exact ⟨c :: rest, .inl rfl, List.cons_ne_nil _ _, hdig, hfold⟩
        · rintro ⟨ds, h | h, -, hdig, hfold⟩
          · subst h
            exact ⟨hdig, hfold⟩
          · exact absurd (List.cons.inj h).1 hplus

/-- A literal that `u64::from_str` accepts holds no dot. -/
theorem not_mem_of_parseU64 {l : List Char} {v : UInt64} (h : parseU64 l = .ok v) : '.' ∉ l := by
  obtain ⟨ds, rfl | rfl, -, hdig, -⟩ := parseU64_eq_ok_iff.1 h <;> intro hdot
  · exact absurd (hdig _ hdot) (by decide)
  · rcases List.mem_cons.1 hdot with h | h
    · cases h
    · exact absurd (hdig _ h) (by decide)

/-! ### Reading back the decimal digits of a `u64` -/

theorem digitChar_spec : ∀ k < 10,
    (Nat.digitChar k).isDigit ∧ (Nat.digitChar k).toNat - '0'.toNat = k := by
  decide

theorem isDigit_toDigitsCore (fuel n : Nat) {ds : List Char} (hds : ∀ c ∈ ds, c.isDigit) :
    ∀ c ∈ Nat.toDigitsCore 10 fuel n ds, c.isDigit := by
  induction fuel generalizing n ds with
  | zero => exact hds
  | succ fuel ih =>
    have hd := (digitChar_spec (n % 10) (Nat.mod_lt _ (by decide))).1
    simp only [Nat.toDigitsCore]
    split
    · exact List.forall_mem_cons.2 ⟨hd, hds⟩
    · exact ih _ (List.forall_mem_cons.2 ⟨hd, hds⟩)

theorem toDigitsCore_ne_nil (fuel n : Nat) {ds : List Char} (hds : ds ≠ []) :
    Nat.toDigitsCore 10 fuel n ds ≠ [] := by
  induction fuel generalizing n ds with
  | zero => exact hds
  | succ fuel ih =>
    simp only [Nat.toDigitsCore]
    split
    · exact List.cons_ne_nil _ _
    · exact ih _ (List.cons_ne_nil _ _)

/-- Reading the digits of `n` from the left gives back `n`. -/
theorem foldl_toDigitsCore {fuel n : Nat} (hfuel : n < fuel) (ds : List Char) :
    (Nat.toDigitsCore 10 fuel n ds).foldl (fun n c => n * 10 + (c.toNat - '0'.toNat)) 0 =
      ds.foldl (fun n c => n * 10 + (c.toNat - '0'.toNat)) n := by
  induction fuel generalizing n ds with
  | zero => omega
  | succ fuel ih =>
    have hval := (digitChar_spec (n % 10) (Nat.mod_lt _ (by decide))).2
    simp only [Nat.toDigitsCore]
    split
    · next h => rw [List.foldl_cons, hval]; congr 1; omega
    · next h => rw [ih (by omega), List.foldl_cons, hval]; congr 1; omega

/-- `u64::from_str` reads back the decimal digits of every `u64`. -/
theorem parseU64_toDigits (v : UInt64) : parseU64 (Nat.toDigits 10 v.toNat) = .ok v := by
  refine parseU64_eq_ok_iff.2 ⟨_, .inl rfl, ?_, isDigit_toDigitsCore (v.toNat + 1) v.toNat
    (List.forall_mem_nil _), foldl_toDigitsCore (Nat.lt_succ_self v.toNat) []⟩
  simp only [Nat.toDigits, Nat.toDigitsCore]
  split
  · exact List.cons_ne_nil _ _
  · exact toDigitsCore_ne_nil _ _ (List.cons_ne_nil _ _)

/-! ### `RangeU64::from_str` -/

/-- `RangeU64`: the blocks from `start` up to `end`, `end` excluded. -/
structure RangeU64 where
  start : UInt64
  «end» : UInt64
deriving DecidableEq, Repr

/-- The errors of `RangeU64::from_str`, with the texts of its `anyhow!` messages. -/
inductive RangeError
  /-- `"badly formed region"` -/
  | badlyFormedRegion
  /-- `"end <= begin"` -/
  | endLeBegin
  /-- a `ParseIntError` of `parse::<u64>` -/
  | parseInt (kind : IntErrorKind)
deriving DecidableEq, Repr

/-- `RangeU64::from_str`: the first two pieces of `s.split("..")` as `u64`, with no third piece,
and the second greater than the first. -/
def fromStr (s : String) : Except RangeError RangeU64 :=
  match splitDotDot s.data with
  | [] => .error .badlyFormedRegion
  | a :: rest => do
    let start ← (parseU64 a).mapError .parseInt
    match rest with
    | [] => .error .badlyFormedRegion
    | b :: rest => do
      let «end» ← (parseU64 b).mapError .parseInt
      if !rest.isEmpty then .error .badlyFormedRegion
      else if «end» ≤ start then .error .endLeBegin
      else pure ⟨start, «end»⟩

/-- `from_str` accepts exactly two pieces that parse, in increasing order. -/
theorem fromStr_eq_ok_iff_pieces {s : String} {r : RangeU64} :
    fromStr s = .ok r ↔ ∃ a b, splitDotDot s.data = [a, b] ∧ parseU64 a = .ok r.start ∧
      parseU64 b = .ok r.«end» ∧ r.start < r.«end» := by
  unfold fromStr
  rcases splitDotDot s.data with _ | ⟨a, _ | ⟨b, rest⟩⟩
  · simp
  · cases ha : parseU64 a <;> simp [Except.mapError, ha]
  · cases ha : parseU64 a with
    | error e => simp [Except.mapError, ha]
    | ok v =>
      cases hb : parseU64 b with
      | error e => simp [Except.mapError, ha, hb]
      | ok w =>
        rcases rest with _ | ⟨c, rest⟩
        · by_cases hle : w ≤ v
          · simp [Except.mapError, ha, hb, hle]
            rintro rfl rfl
            exact hle
          · simp [Except.mapError, ha, hb, hle, pure, Except.pure]
            constructor
            · rintro rfl
              exact ⟨a, b, ⟨rfl, rfl⟩, ha, hb, show v < w from UInt64.lt_iff_toNat_lt.2
                (by have := mt UInt64.le_iff_toNat_le.2 hle; omega)⟩
            · rintro ⟨_, _, ⟨rfl, rfl⟩, h1, h2, -⟩
              rw [ha, Except.ok.injEq] at h1
              rw [hb, Except.ok.injEq] at h2
              rw [h1, h2]
        · simp [Except.mapError, ha, hb]

/-- `RangeU64::from_str` accepts `s` exactly when `s` is a literal that `u64::from_str` accepts,
then `".."`, then another such literal of a greater value, and it then reads the two values; such
a literal is an optional `+` and one or more decimal digits, of a value at most `u64::MAX`. In
particular `from_str` reads back the range that `format!("{start}..{end}")` prints, and every
range it accepts is nonempty. -/
theorem fromStr_spec :
    (∀ (s : String) (r : RangeU64), fromStr s = .ok r ↔ ∃ a b, s.data = a ++ '.' :: '.' :: b ∧
      parseU64 a = .ok r.start ∧ parseU64 b = .ok r.«end» ∧ r.start < r.«end») ∧
    (∀ (l : List Char) (v : UInt64), parseU64 l = .ok v ↔ ∃ ds, (l = ds ∨ l = '+' :: ds) ∧
      ds ≠ [] ∧ (∀ c ∈ ds, c.isDigit) ∧
      ds.foldl (fun n c => n * 10 + (c.toNat - '0'.toNat)) 0 = v.toNat) ∧
    (∀ a b : UInt64, a < b → fromStr (toString a ++ ".." ++ toString b) = .ok ⟨a, b⟩) ∧
    (∀ (s : String) (r : RangeU64), fromStr s = .ok r → r.start < r.«end») := by
  have hiff : ∀ (s : String) (r : RangeU64), fromStr s = .ok r ↔ ∃ a b,
      s.data = a ++ '.' :: '.' :: b ∧ parseU64 a = .ok r.start ∧ parseU64 b = .ok r.«end» ∧
      r.start < r.«end» := fun s r => by
    rw [fromStr_eq_ok_iff_pieces]
    constructor
    · rintro ⟨a, b, hs, ha, hb, hlt⟩
      rcases eq_of_splitDotDot hs with ⟨h, -⟩ | ⟨l, hl, hsplit⟩
      · exact absurd h (List.cons_ne_nil _ _)
      · rcases eq_of_splitDotDot hsplit with ⟨-, rfl⟩ | ⟨l', -, h⟩
        · exact ⟨a, l, hl, ha, hb, hlt⟩
        · exact absurd h (splitDotDot_ne_nil l')
    · rintro ⟨a, b, hs, ha, hb, hlt⟩
      refine ⟨a, b, ?_, ha, hb, hlt⟩
      rw [hs, splitDotDot_append (not_mem_of_parseU64 ha),
        splitDotDot_of_not_mem (not_mem_of_parseU64 hb)]
  refine ⟨hiff, fun _ _ => parseU64_eq_ok_iff, fun a b hab => (hiff _ _).2 ⟨_, _, ?_, parseU64_toDigits a,
    parseU64_toDigits b, hab⟩, fun s r h => ?_⟩
  · simp only [String.data_append, List.append_assoc]
    rfl
  · obtain ⟨-, -, -, -, -, hlt⟩ := (hiff s r).1 h
    exact hlt

end ThinProvisioning.Commands
