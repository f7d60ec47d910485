import PublicInbox.Eml.Descend
import PublicInbox.Library.Preorder

/-! Eml.pm: each_part, a walk over the parts of a message. -/
namespace PublicInbox.Mime.Part
open Eml (Text)
open Preorder

def mimeNestingLimit : Nat := 20

structure Call where
  part : Part
  depth : Nat
  idx : List Nat

section
variable (ct : Text → ContentType) (partsLimit : Nat)

def loop (all : Bool) : Nat → Level Part → List (Level Part) → List Call
  | 0,_,_ => []
  | left + 1,p,s =>
    match next p s with
    | none => []
    | some (sub,p,s) =>
      let idx := p.path ++ [p.idx]
      let depth := idx.length
      match if depth < mimeNestingLimit then mpDescend ct partsLimit (partsLimit - left) sub else (sub,none) with
      | (sub,some nxt) => (if all || sub.callCb then [⟨sub,depth,idx⟩] else []) ++ loop all left ⟨nxt,idx,0⟩ (push p s)
      | (sub,none) => ⟨sub,depth,idx⟩ :: loop all left p s

def eachPart (once all : Bool) (self : Part) : List Call :=
  match mpDescend ct partsLimit once.toNat self with
  | (self,none) => [⟨self,0,[1]⟩]
  | (self,some parts) => (if all || self.callCb then [⟨self,0,[0]⟩] else []) ++ loop ct partsLimit all partsLimit ⟨parts,[],0⟩ []

def document (self : Part) : List (Visit Part) := preorder (whole ct) (mimeNestingLimit - 1) [] 1 ((whole ct self).2.getD [])

def RoomyAll (once : Bool) (self : Part) : Prop :=
  Roomy ct (partsLimit + 3 - once.toNat) partsLimit self ∧
    ∀ i v,(document ct self)[i]? = some v → i < partsLimit → v.idx.length < mimeNestingLimit →
      Roomy ct (partsLimit + 2 - i) (partsLimit - (i + 1)) v.found

end

/- A multipart is not delivered itself, but for $all and as the top of an embedded message. -/
def delivered (all : Bool) (v : Visit Part) : Bool := all || !v.inner || v.node.callCb

def call (v : Visit Part) : Call := ⟨v.node,v.idx.length,v.idx⟩

section
variable {ct : Text → ContentType} {partsLimit : Nat}

theorem loopVisits (all : Bool) (left : Nat) (p : Level Part) (s : List (Level Part)) :
    loop ct partsLimit all left p s = ((visits (mpDescend ct partsLimit) partsLimit mimeNestingLimit left p s).filter (delivered all)).map call := by
  induction left generalizing p s with
  | zero => rfl
  | succ left ih =>
    rw [loop,visits]
    cases next p s with
    | none => rfl
    | some found =>
      obtain ⟨sub,p',s'⟩ := found
      dsimp only
      generalize (if (p'.path ++ [p'.idx]).length < mimeNestingLimit then mpDescend ct partsLimit (partsLimit - left) sub else (sub,none)) = opened
      obtain ⟨node,_ | kids⟩ := opened
      · have shown : delivered all ⟨sub,node,p'.path ++ [p'.idx],false⟩ = true := by simp [delivered]
        dsimp only
        rw [List.filter_cons_of_pos shown,ih]
        rfl
      · have shown : delivered all ⟨sub,node,p'.path ++ [p'.idx],true⟩ = (all || node.callCb) := by simp [delivered]
        dsimp only
        rw [List.filter_cons,ih,shown]
        split <;> rfl

theorem descendAgrees {nr left : Nat} {self : Part} (first : 0 < nr) (few : nr ≤ partsLimit + 1) (roomy : Roomy ct (partsLimit + 3 - nr) left self) :
    Agrees (mpDescend ct partsLimit) (whole ct) nr left self := by
  have once : (nr != 0) = true := bne_iff_ne.mpr (Nat.ne_of_gt first)
  unfold Agrees mpDescend
  rw [once]
  exact descendRoomy (by omega) roomy

/- What each_part visits, and which of it it delivers -/
theorem eachPartVisits (ct : Text → ContentType) (partsLimit : Nat) (once all : Bool) (self : Part) :
    match mpDescend ct partsLimit once.toNat self with
    | (self',none) => eachPart ct partsLimit once all self = [⟨self',0,[1]⟩]
    | (self',some _) => ∃ vs : List (Visit Part),
      eachPart ct partsLimit once all self = (if all || self'.callCb then [⟨self',0,[0]⟩] else []) ++ (vs.filter (delivered all)).map call ∧
      vs.length ≤ partsLimit ∧
      (∀ v ∈ vs,1 ≤ v.idx.length ∧ v.idx.length ≤ mimeNestingLimit) ∧
      (vs.map Visit.idx).Pairwise (· < ·) ∧
      (∀ path j,path ++ [j] ∈ vs.map Visit.idx → 1 ≤ j ∧ ∀ i,1 ≤ i → i < j → path ++ [i] ∈ vs.map Visit.idx) ∧
      (RoomyAll ct partsLimit once self → vs = (document ct self).take partsLimit) := by
  split
  · rename_i self' none
    rw [eachPart,none]
  · rename_i self' parts entered
    refine ⟨visits (mpDescend ct partsLimit) partsLimit mimeNestingLimit partsLimit ⟨parts,[],0⟩ [],?_,visitsLength _ _ _ _ _ _,?_,?_,?_,?_⟩
    · rw [eachPart,entered]
      dsimp only
      rw [loopVisits]
    · exact visitsDepth (List.forall_mem_singleton.mpr (Nat.succ_pos _))
    · exact visitsOrdered (List.pairwise_singleton _ _)
    · intro path j mem
      obtain ⟨v,own,same⟩ := List.mem_map.mp mem
      have number : 1 ≤ j := visitsPositive (List.forall_mem_singleton.mpr fun _ none => absurd none List.not_mem_nil) v own j
        (same ▸ List.mem_append_right _ List.mem_cons_self)
      refine ⟨number,fun i first before => ?_⟩
      rcases visitsNumbered mem first before with inside | ⟨q,level,_,le⟩
      · exact inside
      · rw [List.mem_singleton.mp level] at le
        have none : i ≤ 0 := le
        omega
    · intro roomy
      obtain ⟨top,inner⟩ := roomy
      have limit : 2 ≤ partsLimit + 3 - once.toNat := by
        cases once <;> simp only [Bool.toNat_true,Bool.toNat_false] <;> omega
      -- the parts of the message itself
      have kids : some (parts.take partsLimit) = (whole ct self).2.map (·.take partsLimit) := by
        rw [← (descendRoomy limit top).2]
        have here : (mpDescend ct partsLimit once.toNat self).2 = some parts := by rw [entered]
        unfold mpDescend at here
        cases once with
        | false =>
          rw [← descendOnce]
          exact (congrArg (Option.map (·.take partsLimit)) here).symm
        | true => exact (congrArg (Option.map (·.take partsLimit)) here).symm
      obtain ⟨all,is,same⟩ := Option.map_eq_some_iff.mp kids.symm
      have tree (kids : List Part) : pending (whole ct) mimeNestingLimit ⟨kids,[],0⟩ ++ [].flatMap (pending (whole ct) mimeNestingLimit) =
          preorder (whole ct) (mimeNestingLimit - 1) [] 1 kids ++ [] := rfl
      have doc : document ct self = preorder (whole ct) (mimeNestingLimit - 1) [] 1 all := by rw [document,is,Option.getD_some]
      have fair : Fair (mpDescend ct partsLimit) (whole ct) partsLimit mimeNestingLimit partsLimit (document ct self) := by
        intro i v here before depth
        have nr : partsLimit - (partsLimit - (i + 1)) = i + 1 := by omega
        have room : partsLimit + 3 - (i + 1) = partsLimit + 2 - i := by omega
        rw [nr]
        exact descendAgrees (Nat.succ_pos _) (by omega) (room ▸ inner i v here before depth)
      have cut : (document ct self).take partsLimit = (preorder (whole ct) (mimeNestingLimit - 1) [] 1 parts).take partsLimit := by
        have both := @preorderPrefix Part (whole ct) (mimeNestingLimit - 1) 1 partsLimit [] all parts same []
        rwa [List.append_nil,List.append_nil,← doc] at both
      have visited := @visitsPreorder Part (mpDescend ct partsLimit) (whole ct) partsLimit mimeNestingLimit partsLimit ⟨parts,[],0⟩ []
        (fun _ mem => absurd mem List.not_mem_nil)
      rw [tree,List.append_nil] at visited
      rw [visited (fairTake cut fair),cut]

theorem oneIndex : ∃ c ∈ eachPart (fun _ => ⟨"text".toList,"plain".toList,none⟩) 1000 false false ⟨Eml.new "a\n".toList,false,false⟩,
    c.idx.length ≠ c.depth := ⟨_,List.mem_cons_self,by decide⟩

end

end PublicInbox.Mime.Part
