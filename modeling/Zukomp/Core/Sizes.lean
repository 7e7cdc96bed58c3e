import Zukomp.Core.Types

/-! # Checked size arithmetic, zu_buf.c

A size that a `size_t` cannot hold is a memory error, never a wrapped size.
-/

namespace Zukomp

def minBuffer : ℕ := 4096

/-- `zu_int_add`, `zu_int_mul` -/
def sizeAdd (a b : ℕ) : Except Status ℕ :=
  if wordSize - 1 - a < b then .error .errMemory else .ok (a + b)

def sizeMul (a b : ℕ) : Except Status ℕ :=
  if a ≠ 0 ∧ (wordSize - 1) / a < b then .error .errMemory else .ok (a * b)

/-- `zu_int_grow`: double, but never below what is needed. -/
def grow (current needed : ℕ) : Except Status ℕ :=
  match sizeAdd current needed with
  | .error st => .error st
  | .ok required =>
    let doubled := match sizeMul current 2 with
      | .ok n => n
      | .error _ => required
    .ok (max (max doubled required) minBuffer)

theorem sizeAdd_ok {a b : ℕ} (h : a + b < wordSize) : sizeAdd a b = .ok (a + b) := by
  unfold sizeAdd
  rw [if_neg (by omega)]

theorem grow_ok {current needed : ℕ} (h : current + needed < wordSize) :
    ∃ next, grow current needed = .ok next ∧ current + needed ≤ next := by
  unfold grow
  rw [sizeAdd_ok h]
  exact ⟨_, rfl, (Nat.le_max_right _ _).trans (Nat.le_max_left _ _)⟩

end Zukomp
