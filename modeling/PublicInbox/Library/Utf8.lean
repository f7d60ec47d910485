import Mathlib.Algebra.Group.Nat.Defs
import Mathlib.Data.List.Basic

/-! UTF-8 without an upper limit of Unicode: up to thirteen octets for a number below 64^12. -/
namespace Utf8

abbrev Octets := List UInt8

def continued : Nat → Nat → Octets
  | 0,_ => []
  | k + 1,n => UInt8.ofNat (0x80 + n / 64 ^ k % 64) :: continued k n

def form (n : Nat) : Nat × Nat :=
  if n < 0x80 then (0,0)
  else if n < 0x800 then (0xC0,1)
  else if n < 0x10000 then (0xE0,2)
  else if n < 0x200000 then (0xF0,3)
  else if n < 0x4000000 then (0xF8,4)
  else if n < 0x80000000 then (0xFC,5)
  else if n < 0x1000000000 then (0xFE,6)
  else (0xFF,12)

def lead (n : Nat) : Nat := (form n).1 + n / 64 ^ (form n).2

def encodeOne (n : Nat) : Octets := UInt8.ofNat (lead n) :: continued (form n).2 n

def encode (s : List Nat) : Octets := s.flatMap encodeOne

/-! No two texts are encoded the same. -/

theorem octetInj {a b : Nat} (smallA : a < 256) (smallB : b < 256) (same : UInt8.ofNat a = UInt8.ofNat b) : a = b := by
  have values := congrArg UInt8.toNat same
  rwa [UInt8.toNat_ofNat',UInt8.toNat_ofNat',Nat.mod_eq_of_lt smallA,Nat.mod_eq_of_lt smallB] at values

theorem continuedInj {k n m : Nat} {r r' : Octets} (same : continued k n ++ r = continued k m ++ r') :
    n % 64 ^ k = m % 64 ^ k ∧ r = r' := by
  induction k with
  | zero => exact ⟨by simp [Nat.mod_one],same⟩
  | succ k ih =>
    obtain ⟨first,rest⟩ := List.cons.inj same
    obtain ⟨low,rest⟩ := ih rest
    have digit (x : Nat) : 0x80 + x / 64 ^ k % 64 < 256 := by omega
    have high : n / 64 ^ k % 64 = m / 64 ^ k % 64 := by
      have values := octetInj (digit n) (digit m) first
      omega
    refine ⟨?_,rest⟩
    rw [Nat.pow_succ,Nat.mod_mul,Nat.mod_mul,low,high]

def formOf (b : Nat) : Nat × Nat :=
  if b < 0x80 then (0,0)
  else if b < 0xE0 then (0xC0,1)
  else if b < 0xF0 then (0xE0,2)
  else if b < 0xF8 then (0xF0,3)
  else if b < 0xFC then (0xF8,4)
  else if b < 0xFE then (0xFC,5)
  else if b < 0xFF then (0xFE,6)
  else (0xFF,12)

theorem leadForm {n : Nat} (small : n < 64 ^ 12) : formOf (lead n) = form n ∧ lead n < 256 := by
  have limit : n < 0x1000000000000000000 := small
  unfold lead form
  split_ifs with one two three four five six seven
  · show formOf (0 + n / 64 ^ 0) = (0,0) ∧ 0 + n / 64 ^ 0 < 256
    refine ⟨?_,by omega⟩
    unfold formOf
    rw [if_pos (by omega)]
  · show formOf (0xC0 + n / 64 ^ 1) = (0xC0,1) ∧ 0xC0 + n / 64 ^ 1 < 256
    refine ⟨?_,by omega⟩
    unfold formOf
    rw [if_neg (by omega),if_pos (by omega)]
  · show formOf (0xE0 + n / 64 ^ 2) = (0xE0,2) ∧ 0xE0 + n / 64 ^ 2 < 256
    refine ⟨?_,by omega⟩
    unfold formOf
    rw [if_neg (by omega),if_neg (by omega),if_pos (by omega)]
  · show formOf (0xF0 + n / 64 ^ 3) = (0xF0,3) ∧ 0xF0 + n / 64 ^ 3 < 256
    refine ⟨?_,by omega⟩
    unfold formOf
    rw [if_neg (by omega),if_neg (by omega),if_neg (by omega),if_pos (by omega)]
  · show formOf (0xF8 + n / 64 ^ 4) = (0xF8,4) ∧ 0xF8 + n / 64 ^ 4 < 256
    refine ⟨?_,by omega⟩
    unfold formOf
    rw [if_neg (by omega),if_neg (by omega),if_neg (by omega),if_neg (by omega),if_pos (by omega)]
  · show formOf (0xFC + n / 64 ^ 5) = (0xFC,5) ∧ 0xFC + n / 64 ^ 5 < 256
    refine ⟨?_,by omega⟩
    unfold formOf
    rw [if_neg (by omega),if_neg (by omega),if_neg (by omega),if_neg (by omega),if_neg (by omega),if_pos (by omega)]
  · show formOf (0xFE + n / 64 ^ 6) = (0xFE,6) ∧ 0xFE + n / 64 ^ 6 < 256
    refine ⟨?_,by omega⟩
    unfold formOf
    rw [if_neg (by omega),if_neg (by omega),if_neg (by omega),if_neg (by omega),if_neg (by omega),
      if_neg (by omega),if_pos (by omega)]
  · show formOf (0xFF + n / 64 ^ 12) = (0xFF,12) ∧ 0xFF + n / 64 ^ 12 < 256
    refine ⟨?_,by omega⟩
    unfold formOf
    rw [if_neg (by omega),if_neg (by omega),if_neg (by omega),if_neg (by omega),if_neg (by omega),
      if_neg (by omega),if_neg (by omega)]

theorem encodeOneInj {n m : Nat} (smallN : n < 64 ^ 12) (smallM : m < 64 ^ 12) {r r' : Octets}
    (same : encodeOne n ++ r = encodeOne m ++ r') : n = m ∧ r = r' := by
  obtain ⟨first,rest⟩ := List.cons.inj same
  obtain ⟨formN,octetN⟩ := leadForm smallN
  obtain ⟨formM,octetM⟩ := leadForm smallM
  have leads : lead n = lead m := octetInj octetN octetM first
  have forms : form n = form m := by rw [← formN,← formM,leads]
  rw [forms] at rest
  obtain ⟨low,rest⟩ := continuedInj rest
  have high : n / 64 ^ (form m).2 = m / 64 ^ (form m).2 := by
    unfold lead at leads
    rw [forms] at leads
    exact Nat.add_left_cancel leads
  refine ⟨?_,rest⟩
  rw [← Nat.div_add_mod n (64 ^ (form m).2),high,low,Nat.div_add_mod]

theorem encodeInj {s t : List Nat} (smallS : ∀ n ∈ s,n < 64 ^ 12) (smallT : ∀ n ∈ t,n < 64 ^ 12) (same : encode s = encode t) :
    s = t := by
  induction s generalizing t with
  | nil =>
    cases t with
    | nil => rfl
    | cons m t => cases same
  | cons n s ih =>
    cases t with
    | nil => cases same
    | cons m t =>
      obtain ⟨headS,tailS⟩ := List.forall_mem_cons.mp smallS
      obtain ⟨headT,tailT⟩ := List.forall_mem_cons.mp smallT
      obtain ⟨rfl,rest⟩ := encodeOneInj headS headT same
      rw [ih tailS tailT rest]

/-! ASCII -/

theorem encodeAscii {n : Nat} (ascii : n < 0x80) : encodeOne n = [UInt8.ofNat n] := by
  unfold encodeOne lead form
  rw [if_pos ascii]
  simp [continued]

theorem continuedHigh {k n : Nat} : ∀ b ∈ continued k n,0x80 ≤ b.toNat := by
  induction k with
  | zero => nofun
  | succ k ih =>
    refine List.forall_mem_cons.mpr ⟨?_,ih⟩
    rw [UInt8.toNat_ofNat']
    omega

theorem encodeHigh {n : Nat} (small : n < 64 ^ 12) (other : 0x80 ≤ n) : ∀ b ∈ encodeOne n,0x80 ≤ b.toNat := by
  refine List.forall_mem_cons.mpr ⟨?_,continuedHigh⟩
  have octet := (leadForm small).2
  rw [UInt8.toNat_ofNat',Nat.mod_eq_of_lt octet]
  have bits : 0x80 ≤ (form n).1 := by
    unfold form
    rw [if_neg (Nat.not_lt.mpr other)]
    split_ifs <;> decide
  exact Nat.le_trans bits (Nat.le_add_right _ _)

end Utf8
