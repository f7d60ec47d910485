import PublicInbox.ViewDiff

/-! When the ids of a page are distinct. -/
namespace PublicInbox.ViewDiff
open Hval (CodePoint toAttr attr escapes encode letter hex Name Single)
open Utf8 (Octets)

def hexOctets (b : UInt8) : Octets := (hex b).map Char.toUInt8

def headed : Octets → Octets
  | [] => []
  | b :: str => if letter b then b :: str else 'Z'.toUInt8 :: (hexOctets b ++ str)

def Mimics (s t : List CodePoint) : Prop := encode t = 'i'.toUInt8 :: headed (encode s)

theorem hexOctetsPlain (b : UInt8) : escapes (hexOctets b) = hex b ∧ Hval.slash ∉ hexOctets b := by
  revert b
  exact Git.everyByte (by decide +kernel)

theorem attrHeaded (str : Octets) : attr str = escapes (headed str) := by
  cases str with
  | nil => rfl
  | cons b str =>
    cases is : letter b with
    | true => rw [attr,headed,if_pos is,if_pos is]
    | false =>
      have spelled : headed (b :: str) = 'Z'.toUInt8 :: (hexOctets b ++ str) := by rw [headed,is]; rfl
      have hexes : escapes (hexOctets b ++ str) = hex b ++ escapes str := by
        rw [← (hexOctetsPlain b).1]
        exact List.flatMap_append
      rw [Hval.attrOther is,spelled,Hval.escapesCons,hexes]
      rfl

theorem frontSingle {b : UInt8} {str : Octets} (other : b ≠ Hval.slash) (single : Single str) : Single (b :: str) := by
  cases str with
  | nil => exact List.isChain_singleton b
  | cons c str => exact List.isChain_cons_cons.mpr ⟨fun both => other both.1,single⟩

theorem headedSingle {str : Octets} (single : Single str) : Single ('i'.toUInt8 :: headed str) := by
  apply frontSingle (by decide)
  cases str with
  | nil => exact single
  | cons b str =>
    rw [headed]
    split
    · exact single
    · obtain ⟨_,none⟩ := hexOctetsPlain b
      have two : hexOctets b = [(Hval.hexDigit (b.toNat / 16)).toUInt8,(Hval.hexDigit (b.toNat % 16)).toUInt8] := rfl
      rw [two] at none ⊢
      obtain ⟨first,rest⟩ := List.ne_and_not_mem_of_not_mem_cons none
      obtain ⟨second,_⟩ := List.ne_and_not_mem_of_not_mem_cons rest
      exact frontSingle (by decide) (frontSingle first.symm (frontSingle second.symm single.tail))

theorem mimics {s t : List CodePoint} {x y : Text} (isS : toAttr s = some x) (isT : toAttr t = some y) :
    y = 'i' :: x ↔ Mimics s t := by
  obtain ⟨noneS,rfl⟩ := Hval.toAttrSome isS
  obtain ⟨noneT,rfl⟩ := Hval.toAttrSome isT
  have front : 'i' :: attr (encode s) = escapes ('i'.toUInt8 :: headed (encode s)) := by
    rw [attrHeaded]
    rfl
  rw [front]
  constructor
  · intro same
    have started : attr (encode t) = escapes (encode t) := by
      cases octets : encode t with
      | nil => rfl
      | cons b str =>
        rw [octets] at same
        cases is : letter b with
        | true =>
          rw [attr,if_pos is]
        | false =>
          rw [Hval.attrOther is] at same
          exact absurd (List.cons.inj same).1 (by decide)
    exact Hval.escapesInj (Hval.encodeSingle noneT) (headedSingle (Hval.encodeSingle noneS)) (started.symm.trans same)
  · intro is
    rw [is]
    rw [attr,if_pos (by decide)]

/-! The page -/

def Made (a : Anchor) : Prop :=
  ∃ x,toAttr (points (a.apfx ++ a.path)) = some x ∧ a.id = if a.header then x else 'i' :: x

section
variable {unquote : Text → Text}

theorem foundMade {p : Page} {fn x : Text} (is : toAttr (points (p.ctx.apfx ++ fn)) = some x) (made : ∀ a ∈ p.anchors,Made a) :
    ∀ a ∈ (p.found fn x).anchors,Made a := List.forall_mem_cons.mpr ⟨⟨x,is,rfl⟩,made⟩

theorem anchor0Made {p : Page} (orig : Text) (made : ∀ a ∈ p.anchors,Made a) : ∀ a ∈ (anchor0 unquote orig p).anchors,Made a := by
  unfold anchor0
  obtain ⟨fn,longPath⟩ := cutLong (statName unquote orig) p.ctx.longPath
  dsimp only
  split
  · exact made
  · exact List.forall_mem_cons.mpr ⟨⟨_,‹_›,rfl⟩,made⟩

theorem anchor1Made {p : Page} (pb : Text) (made : ∀ a ∈ p.anchors,Made a) : ∀ a ∈ (anchor1 pb p).anchors,Made a := by
  unfold anchor1
  split
  · exact made
  · rename_i x is
    split
    · exact foundMade is made
    · split
      · exact made
      · rename_i fn longPath _
        simp only []
        split
        · split
          · exact made
          · rename_i x' is'
            split
            · exact foundMade (p := { p with ctx := { p.ctx with longPath := longPath } }) is' made
            · exact made
        · exact made

theorem callMade {p : Page} (c : Call) (made : ∀ a ∈ p.anchors,Made a) : ∀ a ∈ (call unquote p c).anchors,Made a := by
  cases c with
  | part upfx idx git => exact made
  | stat orig => exact anchor0Made orig made
  | head pb => exact anchor1Made _ made

theorem foldMade {p : Page} (calls : List Call) (made : ∀ a ∈ p.anchors,Made a) :
    ∀ a ∈ (calls.foldl (call unquote) p).anchors,Made a := by
  induction calls generalizing p with
  | nil => exact made
  | cons c calls ih => exact ih (callMade c made)

theorem pageMade (calls : List Call) : ∀ a ∈ (page unquote calls).anchors,Made a := foldMade calls nofun

end

/-! Ids that are the same -/

def Separate (a b : Anchor) : Prop :=
  (a.header = b.header → a.apfx ++ a.path ≠ b.apfx ++ b.path) ∧
    (a.header = false → b.header = true → ¬Mimics (points (a.apfx ++ a.path)) (points (b.apfx ++ b.path)))

theorem pointsInj {s t : Text} (same : points s = points t) : s = t := by
  refine List.map_injective_iff.mpr (fun c d equal => ?_) same
  exact Char.toNat_inj.mp (Fin.mk.inj_iff.mp equal)

theorem sameString {s t x y : Text} (isS : toAttr (points s) = some x) (isT : toAttr (points t) = some y) : x = y ↔ s = t := by
  constructor
  · rintro rfl
    exact pointsInj (Hval.toAttrInj isS isT)
  · rintro rfl
    exact Option.some.inj (isS.symm.trans isT)

theorem idsApart {a b : Anchor} (madeA : Made a) (madeB : Made b) : a.id ≠ b.id ↔ Separate a b ∧ Separate b a := by
  obtain ⟨x,isA,idA⟩ := madeA
  obtain ⟨y,isB,idB⟩ := madeB
  have strings := sameString isA isB
  unfold Separate
  rw [idA,idB]
  cases headA : a.header with
  | false =>
    cases headB : b.header with
    | false =>
      simp only [Bool.false_eq_true,if_false,ne_eq,List.cons.injEq,true_and,strings,forall_const,IsEmpty.forall_iff,
        and_true,eq_comm (a := b.apfx ++ b.path),and_self]
    | true =>
      have crossed := mimics isA isB
      simp only [Bool.false_eq_true,if_false,if_true,ne_eq,eq_comm (b := y),crossed,reduceCtorEq,IsEmpty.forall_iff,
        forall_const,true_and,and_true]
  | true =>
    cases headB : b.header with
    | false =>
      have crossed := mimics isB isA
      simp only [Bool.false_eq_true,if_false,if_true,ne_eq,crossed,reduceCtorEq,IsEmpty.forall_iff,
        forall_const,true_and,and_true]
    | true =>
      simp only [if_true,ne_eq,strings,forall_const,reduceCtorEq,IsEmpty.forall_iff,
        and_true,eq_comm (a := b.apfx ++ b.path),and_self]

theorem idName {a : Anchor} (made : Made a) : Name a.id := by
  obtain ⟨x,is,id⟩ := made
  obtain ⟨⟨chars,first⟩,_⟩ := Hval.toAttrName is
  rw [id]
  split
  · exact ⟨chars,first⟩
  · refine ⟨by rw [List.all_cons,chars]; decide,?_⟩
    rintro c ⟨⟩
    decide

theorem onePart {a b : Anchor} {c : Char} {rest : Text} (ascii : c.toNat < 0x80) (start : c ≠ 'i') (partA : a.apfx = c :: rest)
    (partB : b.apfx = c :: rest) (other : a.path ≠ b.path) : Separate a b := by
  refine ⟨fun _ same => other ?_,fun _ _ mimic => start ?_⟩
  · rw [partA,partB] at same
    exact List.append_cancel_left same
  · rw [partB] at mimic
    have first : encode (points (c :: rest ++ b.path)) = UInt8.ofNat c.toNat :: encode (points (rest ++ b.path)) := by
      show Utf8.encodeOne c.toNat ++ _ = _
      rw [Utf8.encodeAscii ascii]
      rfl
    have octets : UInt8.ofNat c.toNat = UInt8.ofNat 'i'.toNat := (List.cons.inj (first.symm.trans mimic)).1
    exact Char.toNat_inj.mp (Utf8.octetInj (by omega) (by decide) octets)

theorem attrsApart (unquote : Text → Text) :
    (∀ s t : List CodePoint,s ≠ t → ¬[47,47] <:+: s → ¬[47,47] <:+: t →
      ∃ x y,toAttr s = some x ∧ toAttr t = some y ∧ x ≠ y) ∧
    (∀ s x,toAttr s = some x → Name x ∧ (s ≠ [] → x ≠ [])) ∧
    ∀ calls,(∀ a ∈ (page unquote calls).anchors,Name a.id) ∧
      ((∀ a ∈ (page unquote calls).anchors,∀ b ∈ (page unquote calls).anchors,a.path ≠ b.path → a.id ≠ b.id) ↔
        ∀ a ∈ (page unquote calls).anchors,∀ b ∈ (page unquote calls).anchors,a.path ≠ b.path → Separate a b) := by
  refine ⟨fun s t other noneS noneT => ?_,fun s x => Hval.toAttrName,fun calls => ⟨?_,?_⟩⟩
  · refine ⟨_,_,if_neg noneS,if_neg noneT,fun same => other ?_⟩
    have isT : toAttr t = some (attr (encode s)) := by
      rw [same]
      exact if_neg noneT
    exact Hval.toAttrInj (if_neg noneS) isT
  · exact fun a mem => idName (pageMade calls a mem)
  · have made := @pageMade unquote calls
    constructor
    · intro distinct a memA b memB other
      exact ((idsApart (made a memA) (made b memB)).mp (distinct a memA b memB other)).1
    · intro separate a memA b memB other
      exact (idsApart (made a memA) (made b memB)).mpr ⟨separate a memA b memB other,separate b memB a memA other.symm⟩

/- 1.c of the first part of a message, and .c of the eleventh -/
theorem idsTwice : ((page id [.part [] ['1'] true,.stat "1.c".toList,.part [] ['1','1'] true,.stat ".c".toList]).anchors.map
    fun a => (a.path,a.id)) = [(".c".toList,"iZ311.c".toList),("1.c".toList,"iZ311.c".toList)] := by
  decide

end PublicInbox.ViewDiff
