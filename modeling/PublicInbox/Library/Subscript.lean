import Mathlib.Data.List.Basic

/-! Subscripts that are integers of 64 bits: a negative one counts from the end of the array. -/
namespace Subscript
variable {α : Type}

def word (n : Int) : Int :=
  if n.toNat < 0x8000000000000000 then n
  else if n.toNat < 0x10000000000000000 then n - 0x10000000000000000
  else -1

def index (length : Nat) (i : Int) : Option Nat :=
  if 0 ≤ i then some i.toNat else if 0 ≤ length + i then some (length + i).toNat else none

def item (xs : List α) (i : Int) : Option α := (index xs.length i).bind (xs[·]?)

theorem wordSmall {n : Int} (small : n < 0x8000000000000000) : word n = n := if_pos (by omega)

theorem indexNat (length n : Nat) : index length n = some n := by
  rw [index,if_pos (Int.natCast_nonneg n),Int.toNat_natCast]

theorem indexEnd {length k : Nat} (some : 0 < k) (inside : k ≤ length) : index length (-k) = .some (length - k) := by
  have back : ¬ (0 : Int) ≤ -k := by omega
  have there : (0 : Int) ≤ length + -k := by omega
  have place : ((length : Int) + -k).toNat = length - k := by omega
  rw [index,if_neg back,if_pos there,place]

theorem indexOut {length k : Nat} (beyond : length < k) : index length (-k) = none := by
  have back : ¬ (0 : Int) ≤ -k := by omega
  have out : ¬ (0 : Int) ≤ length + -k := by omega
  rw [index,if_neg back,if_neg out]

end Subscript
