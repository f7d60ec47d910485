import Mathlib.Algebra.BigOperators.Group.List.Basic
import Mathlib.Algebra.Ring.Int.Defs

/-! Sequences of brackets of several kinds. -/
namespace Brackets
variable {κ : Type} [DecidableEq κ]

inductive Mark (κ : Type) where
  | opens (k : κ)
  | closes (k : κ)
  deriving DecidableEq

open Mark

def after : List κ → List (Mark κ) → Option (List κ)
  | inner,[] => some inner
  | inner,opens k :: bs => after (k :: inner) bs
  | [],closes _ :: _ => none
  | k' :: inner,closes k :: bs => if k' = k then after inner bs else none

def Matched (bs : List (Mark κ)) : Prop := after [] bs = some []

instance (bs : List (Mark κ)) : Decidable (Matched bs) := inferInstanceAs (Decidable (_ = _))

def worth (k : κ) : Mark κ → Int
  | opens k' => if k' = k then 1 else 0
  | closes k' => if k' = k then -1 else 0

def depth (k : κ) (bs : List (Mark κ)) : Int := (bs.map (worth k)).sum

@[simp] theorem depthCons (k : κ) (b : Mark κ) (bs : List (Mark κ)) : depth k (b :: bs) = worth k b + depth k bs := by
  simp [depth]

theorem afterAppend (inner : List κ) (bs cs : List (Mark κ)) :
    after inner (bs ++ cs) = (after inner bs).bind fun inner => after inner cs := by
  induction bs generalizing inner with
  | nil => rfl
  | cons b bs ih =>
    rcases b with k | k
    · exact ih _
    · rcases inner with _ | ⟨k',inner⟩
      · rfl
      · show (if k' = k then after inner (bs ++ cs) else none) = (if k' = k then after inner bs else none).bind _
        split
        · exact ih _
        · rfl

theorem afterDepth {inner outer : List κ} {bs : List (Mark κ)} (whole : after inner bs = some outer) (k : κ) :
    (outer.count k : Int) = inner.count k + depth k bs := by
  induction bs generalizing inner with
  | nil =>
    cases whole
    simp [depth]
  | cons b bs ih =>
    rcases b with k' | k'
    · have rest := ih whole
      rw [rest,List.count_cons,depthCons,worth]
      by_cases same : k' = k
      · simp only [same,beq_self_eq_true,if_true]
        omega
      · simp [same]
    · rcases inner with _ | ⟨top,inner⟩
      · cases whole
      · unfold after at whole
        split at whole
        · rename_i same
          have rest := ih whole
          rw [rest,same,List.count_cons,depthCons,worth]
          by_cases same : k' = k <;> simp [same]
        · cases whole

theorem matchedDepth {bs : List (Mark κ)} (matched : Matched bs) (k : κ) : depth k bs = 0 := by
  have whole := afterDepth matched k
  simpa using whole.symm

end Brackets
