import PublicInbox.V2Writable.Eml
import PublicInbox.ExtSearchIdx

/-! What each write does to the rows of xref3, and what a walk by Message-ID returns. -/
namespace PublicInbox.ExtSearchIdx
open Keyed Ei
variable {B M H : Type} [LinearOrder B] {s : Ei B M}

namespace Ei
theorem memGetXref3 {docid : Nat} {r : Xref3 B} : r ∈ s.getXref3 docid ↔ s.xref3.Has r ∧ r.docid = docid := by
  unfold getXref3
  rw [Rel.hasSelect,decide_eq_true_iff]

theorem mergeHas {keep drop : Nat} (apart : keep ≠ drop) {oid : B} {r : Xref3 B} :
    (s.mergeXref3 keep drop oid).xref3.Has r ↔
      (s.xref3.Has r ∧ ¬ (r.docid = drop ∧ r.oidbin = oid)) ∨
        (r.docid = keep ∧ r.oidbin = oid ∧ s.xref3.Has { r with docid := drop }) := by
  unfold mergeXref3
  rw [Rel.moveHas (fun k _ => by simp [apart])]
  simp only [decide_eq_false_iff_not,decide_eq_true_eq]
  refine or_congr_right ⟨?_,?_⟩
  · rintro ⟨k,has,⟨rfl,rfl⟩,rfl⟩
    exact ⟨rfl,rfl,has⟩
  · rintro ⟨rfl,rfl,has⟩
    exact ⟨_,has,⟨rfl,rfl⟩,rfl⟩

theorem unrefHas {oid : B} {ibx : Option (Ibx B)} {xnum : Option Nat} {r : Xref3 B} :
    (s.unref oid ibx xnum).xref3.Has r ↔ s.xref3.Has r ∧ unrefs oid ibx xnum r = false := Rel.hasDelete

theorem unrefRestRows (docid : Nat) (smsg : Option B) (oid : B) :
    (s.unrefRest docid smsg oid).1.xref3 = s.xref3 := by
  unfold unrefRest
  split
  · rfl
  · dsimp only
    split <;> rfl

theorem blobMissingHas {x : Nat × B} {r : Xref3 B} :
    (s.blobMissing x).xref3.Has r ↔ s.xref3.Has r ∧ r.oidbin ≠ x.2 := by
  have valid : stillValid x.2 (none : Option (Ibx B)) none = false := rfl
  unfold blobMissing unrefDoc
  simp only [valid,Bool.false_eq_true,if_false,unrefRestRows,unrefHas,unrefs]
  simp
end Ei

def mailsOf {E R : Type} (texts : V2Writable.Texts E M H R) (text : B → E) : Mails B M H where
  mids := fun b => texts.mids (text b)
  midsForIndex := fun b => texts.midsForIndex (text b)
  contentHash := fun b => texts.contentHash (text b)
  midsIndexed := fun b m mem => texts.midsIndexed (text b) m mem

def shelf : Nat → Eml
  | 0 => V2Writable.letter ["<a>"] "one"
  | 1 => V2Writable.letter ["<a>","<b>"] "one"
  | 2 => V2Writable.letter ["<b>"] "one"
  | _ => V2Writable.letter ["<a>"] "other"

def shelved : Mails Nat Mid String := mailsOf V2Writable.letters shelf

end PublicInbox.ExtSearchIdx
