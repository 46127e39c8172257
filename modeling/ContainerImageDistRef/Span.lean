import ContainerImageDistRef.Library.ByteString

/-!
# Lengths of string slices

A span stores only the length of what was parsed, as a nonzero u8 or u16. The
bounds are fields, so a length that the source could not represent cannot be
built. The checked and saturating additions are the source's own.
-/

namespace ContainerImageDistRef

open ByteString

universe u

/-- u8::MAX -/
def maxU8 : Nat := 255

/-- u16::MAX -/
def maxU16 : Nat := 65535

def checkedAddU8 (a b : Nat) : Option Nat := if a + b ≤ maxU8 then some (a + b) else none

def saturatingAddU8 (a b : Nat) : Nat := min (a + b) maxU8

def saturatingAddU16 (a b : Nat) : Nat := min (a + b) maxU16

/-- `n as u16` -/
def asU16 (n : Nat) : Nat := n % (maxU16 + 1)

theorem checkedAddU8_eq_some {a b c : Nat} :
    checkedAddU8 a b = some c ↔ a + b ≤ maxU8 ∧ a + b = c := by
  by_cases h : a + b ≤ maxU8 <;> simp [checkedAddU8, h]

theorem checkedAddU8_eq_none {a b : Nat} : checkedAddU8 a b = none ↔ maxU8 < a + b := by
  by_cases h : a + b ≤ maxU8
  · simp [checkedAddU8, h]
  · simp [checkedAddU8, h]
    omega

theorem saturatingAddU8_of_le {a b : Nat} (h : a + b ≤ maxU8) : saturatingAddU8 a b = a + b :=
  Nat.min_eq_left h

theorem saturatingAddU16_of_le {a b : Nat} (h : a + b ≤ maxU16) :
    saturatingAddU16 a b = a + b :=
  Nat.min_eq_left h

theorem saturatingAddU16_le (a b : Nat) : saturatingAddU16 a b ≤ a + b := Nat.min_le_left _ _

/-- A nonzero length that is not above the largest number of its type. -/
structure Length (bound : Nat) where
  val : Nat
  pos : 0 < val
  le : val ≤ bound
  deriving DecidableEq, Repr

namespace Length

variable {bound : Nat}

theorem ext {a b : Length bound} (h : a.val = b.val) : a = b := by
  cases a
  cases b
  cases h
  rfl

/-- None iff the length is zero: the source's argument is a number of the type. -/
def new (n : Nat) : Option (Length bound) :=
  if h : 0 < n ∧ n ≤ bound then some ⟨n, h.1, h.2⟩ else none

theorem new_eq_some {n : Nat} {a : Length bound} : new n = some a ↔ n = a.val := by
  rw [new]
  constructor
  · intro h
    split at h
    · cases h
      rfl
    · cases h
  · rintro rfl
    rw [dif_pos ⟨a.pos, a.le⟩]

def checkedAdd (a : Length bound) (b : Nat) : Option (Length bound) :=
  if h : a.val + b ≤ bound then some ⟨a.val + b, by have := a.pos; omega, h⟩ else none

theorem checkedAdd_eq_some {a c : Length bound} {b : Nat} :
    a.checkedAdd b = some c ↔ a.val + b = c.val := by
  rw [checkedAdd]
  constructor
  · intro h
    split at h
    · cases h
      rfl
    · cases h
  · intro h
    rw [dif_pos (by have := c.le; omega)]
    exact congrArg some (ext h)

theorem checkedAdd_eq_none {a : Length bound} {b : Nat} :
    a.checkedAdd b = none ↔ bound < a.val + b := by
  rw [checkedAdd]
  split
  · simp; omega
  · simp; omega

end Length

/-- A nonzero u8 length. -/
abbrev ShortLength := Length maxU8

/-- A nonzero u16 length. -/
abbrev LongLength := Length maxU16

namespace ShortLength

abbrev new (n : Nat) : Option ShortLength := Length.new n

def one : ShortLength := ⟨1, by decide, by decide⟩

/-- The same length as a u16. -/
def widen (a : ShortLength) : LongLength :=
  ⟨a.val, a.pos, Nat.le_trans a.le (by decide)⟩

@[simp] theorem widen_val (a : ShortLength) : a.widen.val = a.val := rfl

end ShortLength

namespace LongLength

abbrev new (n : Nat) : Option LongLength := Length.new n

def saturatingAdd (a : LongLength) (b : Nat) : LongLength :=
  ⟨saturatingAddU16 a.val b,
    by have := a.pos; simp only [saturatingAddU16, maxU16]; omega,
    Nat.min_le_right _ _⟩

@[simp] theorem saturatingAdd_val (a : LongLength) (b : Nat) :
    (a.saturatingAdd b).val = saturatingAddU16 a.val b := rfl

/-- `nonzero!(u16, n)`, which asserts in debug builds. -/
def nonzero {ε : Type u} (n : Nat) : Outcome ε LongLength :=
  match new n with
  | some a => .ok a
  | none => .panic .assertion

end LongLength

end ContainerImageDistRef
