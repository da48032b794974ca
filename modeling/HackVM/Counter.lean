/-!
# Bounded Counters

Counters that refuse to pass a limit.

Labels, diagnostics, code addresses and variables are all numbered, and every
one of these numbers has to fit a fixed width: a label number 32 bits, a count
of diagnostics 64, an address 16. A counter therefore carries its limit in its
type and the proof that it keeps to it, and counting on is the one operation
that can fail. Failing is better than starting again at zero, because a number
issued twice would give two labels the same name.

## Main definitions

* `Overflow`: The cause of a failed addition.
* `Counter`: A number that is at most the limit.
* `Counter.next`: The counter one further on, unless it stands at the limit.

## Theorems

* `Counter.next_eq_ok`: Below the limit a counter counts on by one.
* `Counter.next_eq_error`: At the limit it overflows.
* `Counter.next_eq_ok_iff`: A counter counts on to nothing else.
* `bind_eq_ok_iff`, `map_eq_ok_iff`, `foldlM_cons_eq_ok_iff`: What it takes for
  computations that may fail to succeed one after the other.
-/

namespace HackVM

/-- A sum does not fit the width it is kept in. -/
structure Overflow where
  deriving DecidableEq, Repr

/-- The wording of an overflow. -/
def Overflow.message (_ : Overflow) : String :=
  "attempt to add with overflow"

/-- A number that never passes `limit`. -/
structure Counter (limit : Nat) where
  value : Nat
  value_le : value ≤ limit
  deriving DecidableEq, Repr

namespace Counter

variable {limit : Nat}

/-- The counter before anything is counted. -/
def zero : Counter limit :=
  ⟨0, Nat.zero_le limit⟩

/-- The counter with the given value, if that keeps to the limit. -/
def ofNat? (n : Nat) : Option (Counter limit) :=
  if h : n ≤ limit then some ⟨n, h⟩ else none

/-- The counter one further on. -/
def next (c : Counter limit) : Except Overflow (Counter limit) :=
  if h : c.value < limit then .ok ⟨c.value + 1, h⟩ else .error {}

theorem next_eq_ok (c : Counter limit) (h : c.value < limit) :
    c.next = .ok ⟨c.value + 1, h⟩ := by
  simp only [next, h, dif_pos]

theorem next_eq_error (c : Counter limit) (h : c.value = limit) : c.next = .error {} := by
  simp only [next, h, Nat.lt_irrefl, dif_neg, not_false_eq_true]

theorem next_eq_ok_iff {c c' : Counter limit} : c.next = .ok c' ↔ c'.value = c.value + 1 := by
  by_cases h : c.value < limit
  · rw [next_eq_ok c h]
    constructor
    · intro heq
      cases heq
      rfl
    · intro hvalue
      cases c'
      cases hvalue
      rfl
  · rw [next_eq_error c (Nat.le_antisymm c.value_le (Nat.le_of_not_lt h))]
    constructor
    · intro heq
      cases heq
    · intro hvalue
      have hle := c'.value_le
      omega

end Counter

section Success

variable {ε α β : Type}

theorem bind_eq_ok_iff {x : Except ε α} {f : α → Except ε β} {b : β} :
    (x >>= f) = .ok b ↔ ∃ a, x = .ok a ∧ f a = .ok b := by
  cases x with
  | error e =>
      constructor
      · intro h
        cases h
      · rintro ⟨_, h, _⟩
        cases h
  | ok a =>
      constructor
      · intro h
        exact ⟨a, rfl, h⟩
      · rintro ⟨_, h, hf⟩
        cases h
        exact hf

theorem map_eq_ok_iff {x : Except ε α} {f : α → β} {b : β} :
    x.map f = .ok b ↔ ∃ a, x = .ok a ∧ f a = b := by
  cases x with
  | error e =>
      constructor
      · intro h
        cases h
      · rintro ⟨_, h, _⟩
        cases h
  | ok a =>
      constructor
      · intro h
        cases h
        exact ⟨a, rfl, rfl⟩
      · rintro ⟨_, h, rfl⟩
        cases h
        rfl

theorem map_eq_error_iff {x : Except ε α} {f : α → β} {e : ε} :
    x.map f = .error e ↔ x = .error e := by
  cases x with
  | error e => simp [Except.map]
  | ok a => simp [Except.map]

/-- A run over a list succeeds when its first step does and the rest goes on
    from there. -/
theorem foldlM_cons_eq_ok_iff {f : β → α → Except ε β} {s t : β} {x : α} {xs : List α} :
    (x :: xs).foldlM f s = .ok t ↔ ∃ u, f s x = .ok u ∧ xs.foldlM f u = .ok t := by
  rw [List.foldlM_cons]
  exact bind_eq_ok_iff

/-- There is a result if one was tested and passed. -/
theorem exists_ok_of_any {x : Except ε α} {p : α → Bool} (h : x.toOption.any p = true) :
    ∃ a, x = .ok a ∧ p a = true := by
  cases x with
  | error e => cases h
  | ok a => exact ⟨a, rfl, h⟩

end Success

end HackVM
