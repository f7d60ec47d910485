import PublicInbox.Git
import PublicInbox.Library.Utf8
import Mathlib.Data.List.Chain
import Mathlib.Data.List.Infix

/-! to_attr of Hval.pm: a filename, or any string, as an HTML attribute. -/
namespace PublicInbox.Hval
open Utf8 (Octets)

abbrev Text := List Char

abbrev CodePoint := Fin 0x8000000000000000

def encode (str : List CodePoint) : Octets := Utf8.encode (str.map Fin.val)

def chr (b : UInt8) : Char := Char.ofNat b.toNat

def hexDigit (n : Nat) : Char := Char.ofNat (if n < 10 then 0x30 + n else 0x57 + n)

def hex (b : UInt8) : Text := [hexDigit (b.toNat / 16),hexDigit (b.toNat % 16)]

def inRange (x y : Char) (b : UInt8) : Bool := x.toUInt8 ≤ b && b ≤ y.toUInt8

def letter (b : UInt8) : Bool := inRange 'A' 'Y' b || inRange 'a' 'z' b

def kept (b : UInt8) : Bool :=
  inRange 'A' 'Z' b || inRange 'a' 'z' b || inRange '0' '9' b || ['_'.toUInt8,'.'.toUInt8,'-'.toUInt8].contains b

def slash : UInt8 := '/'.toUInt8

def escape (b : UInt8) : Text := if kept b then [chr b] else if b = slash then [':'] else ':' :: ':' :: hex b

def escapes (str : Octets) : Text := str.flatMap escape

def attr : Octets → Text
  | [] => []
  | b :: str => if letter b then escapes (b :: str) else 'Z' :: (hex b ++ escapes str)

def toAttr (str : List CodePoint) : Option Text := if [47,47] <:+: str then none else some (attr (encode str))

/-! Octets -/

def unhexDigit (c : Char) : Nat := if c.isDigit then c.toNat - 0x30 else c.toNat - 0x57

def unhex : Text → UInt8
  | [x,y] => UInt8.ofNat (unhexDigit x * 16 + unhexDigit y)
  | _ => 0

def nameChar (c : Char) : Bool := c.isAlphanum || ['_','.','-',':'].contains c

theorem byteFacts (b : UInt8) : unhex (hex b) = b ∧ (hex b).all (fun c => nameChar c && c != ':') = true ∧
    (kept b = true → nameChar (chr b) = true ∧ chr b ≠ ':') ∧
    (letter b = true → kept b = true ∧ (chr b).isAlpha = true ∧ chr b ≠ 'Z') ∧ (chr b).toNat = b.toNat := by
  revert b
  exact Git.everyByte (by decide +kernel)

theorem unhexHex (b : UInt8) : unhex (hex b) = b := (byteFacts b).1

theorem hexInj {a b : UInt8} (same : hex a = hex b) : a = b := by
  rw [← unhexHex a,same,unhexHex]

theorem hexChars (b : UInt8) : (hex b).all (fun c => nameChar c && c != ':') = true := (byteFacts b).2.1

theorem keptChar (b : UInt8) : kept b = true → nameChar (chr b) = true ∧ chr b ≠ ':' := (byteFacts b).2.2.1

theorem letterKept (b : UInt8) : letter b = true → kept b = true ∧ (chr b).isAlpha = true ∧ chr b ≠ 'Z' := (byteFacts b).2.2.2.1

/-! No two strings have the same attribute. -/

def Single (str : Octets) : Prop := str.IsChain fun a b => ¬(a = slash ∧ b = slash)

inductive Escaped (b : UInt8) : Text → Prop
  | plain : chr b ≠ ':' → Escaped b [chr b]
  | slash : b = slash → Escaped b [':']
  | octet (x y : Char) : hex b = [x,y] → x ≠ ':' → Escaped b [':',':',x,y]

theorem escaped (b : UInt8) : Escaped b (escape b) := by
  unfold escape
  split
  · exact .plain (keptChar b ‹_›).2
  split
  · exact .slash ‹_›
  · refine .octet _ _ rfl ?_
    have chars := hexChars b
    simp only [hex,List.all_cons,Bool.and_eq_true,bne_iff_ne] at chars
    exact chars.1.2

theorem escapesCons (b : UInt8) (str : Octets) : escapes (b :: str) = escape b ++ escapes str := List.flatMap_cons

theorem escapeSome (b : UInt8) : escape b ≠ [] := by
  have kind := escaped b
  intro none
  rw [none] at kind
  cases kind

theorem chrInj {a b : UInt8} (same : chr a = chr b) : a = b := by
  have values := congrArg Char.toNat same
  rw [(byteFacts a).2.2.2.2,(byteFacts b).2.2.2.2] at values
  exact UInt8.toNat_inj.mp values

theorem noColon {b : UInt8} {str : Octets} {x : Char} {r : Text} (other : b ≠ slash) (sign : x ≠ ':') :
    escapes (b :: str) ≠ ':' :: x :: r := by
  rw [escapesCons]
  have kind := escaped b
  generalize escape b = e at kind
  cases kind with
  | plain colon => exact fun same => colon (List.cons.inj same).1
  | slash is => exact absurd is other
  | octet x' y' _ _ => exact fun same => sign (List.cons.inj (List.cons.inj same).2).1.symm

theorem slashNotOctet {str : Octets} {x y : Char} {r : Text} (single : Single (slash :: str)) (sign : x ≠ ':') :
    escapes str ≠ ':' :: x :: y :: r := by
  cases str with
  | nil => nofun
  | cons b str =>
    have other : b ≠ slash := fun same => (List.isChain_cons_cons.mp single).1 ⟨rfl,same⟩
    exact noColon other sign

theorem escapesInj {s t : Octets} (singleS : Single s) (singleT : Single t) (same : escapes s = escapes t) : s = t := by
  induction s generalizing t with
  | nil =>
    cases t with
    | nil => rfl
    | cons b t =>
      rw [escapesCons] at same
      exact absurd (List.append_eq_nil_iff.mp same.symm).1 (escapeSome b)
  | cons a s ih =>
    cases t with
    | nil =>
      rw [escapesCons] at same
      exact absurd (List.append_eq_nil_iff.mp same).1 (escapeSome a)
    | cons b t =>
      have rest (same : escapes s = escapes t) : s = t := ih singleS.tail singleT.tail same
      rw [escapesCons,escapesCons] at same
      have kindA := escaped a
      have kindB := escaped b
      generalize escape a = e at kindA same
      generalize escape b = e' at kindB same
      cases kindA with
      | plain colon =>
        cases kindB with
        | plain _ =>
          obtain ⟨first,more⟩ := List.cons.inj same
          rw [chrInj first,rest more]
        | slash _ => exact absurd (List.cons.inj same).1 colon
        | octet _ _ _ _ => exact absurd (List.cons.inj same).1 colon
      | slash isA =>
        subst isA
        cases kindB with
        | plain colon => exact absurd (List.cons.inj same).1.symm colon
        | slash isB => rw [isB,rest (List.cons.inj same).2]
        | octet x y _ sign => exact absurd (List.cons.inj same).2 (slashNotOctet singleS sign)
      | octet x y hexA sign =>
        cases kindB with
        | plain colon => exact absurd (List.cons.inj same).1.symm colon
        | slash isB =>
          subst isB
          exact absurd (List.cons.inj same).2.symm (slashNotOctet singleT sign)
        | octet x' y' hexB _ =>
          simp only [List.cons_append,List.nil_append,List.cons.injEq,true_and] at same
          obtain ⟨rfl,rfl,more⟩ := same
          rw [hexInj (hexA.trans hexB.symm),rest more]

theorem escapesLetter {b : UInt8} (is : letter b = true) (str : Octets) : escapes (b :: str) = chr b :: escapes str := by
  rw [escapesCons,escape,if_pos (letterKept b is).1]
  rfl

theorem attrLetter {b : UInt8} (is : letter b = true) (str : Octets) : attr (b :: str) = chr b :: escapes str := by
  rw [attr,if_pos is,escapesLetter is]

theorem attrOther {b : UInt8} (other : letter b = false) (str : Octets) : attr (b :: str) = 'Z' :: (hex b ++ escapes str) := by
  rw [attr,other]
  rfl

theorem attrSome (b : UInt8) (str : Octets) : attr (b :: str) ≠ [] := by
  cases is : letter b with
  | true =>
    rw [attrLetter is]
    nofun
  | false =>
    rw [attrOther is]
    nofun

theorem attrInj {s t : Octets} (singleS : Single s) (singleT : Single t) (same : attr s = attr t) : s = t := by
  cases s with
  | nil =>
    cases t with
    | nil => rfl
    | cons b t => exact absurd same.symm (attrSome b t)
  | cons a s =>
    cases t with
    | nil => exact absurd same (attrSome a s)
    | cons b t =>
      cases isA : letter a with
      | true =>
        cases isB : letter b with
        | true =>
          rw [attr,if_pos isA,attr,if_pos isB] at same
          exact escapesInj singleS singleT same
        | false =>
          rw [attrLetter isA,attrOther isB] at same
          exact absurd (List.cons.inj same).1 (letterKept a isA).2.2
      | false =>
        cases isB : letter b with
        | true =>
          rw [attrOther isA,attrLetter isB] at same
          exact absurd (List.cons.inj same).1.symm (letterKept b isB).2.2
        | false =>
          rw [attrOther isA,attrOther isB] at same
          obtain ⟨first,rest⟩ := List.append_inj (List.cons.inj same).2 rfl
          have tails : s = t := escapesInj singleS.tail singleT.tail rest
          rw [hexInj first,tails]

theorem escapesChars (str : Octets) : (escapes str).all nameChar = true := by
  induction str with
  | nil => rfl
  | cons b str ih =>
    rw [escapesCons,List.all_append,ih,Bool.and_true]
    unfold escape
    split
    · rw [List.all_cons,(keptChar b ‹_›).1]
      rfl
    split
    · decide
    · have chars := hexChars b
      simp only [List.all_eq_true,Bool.and_eq_true] at chars ⊢
      refine List.forall_mem_cons.mpr ⟨by decide,List.forall_mem_cons.mpr ⟨by decide,fun c mem => (chars c mem).1⟩⟩

def Name (t : Text) : Prop := t.all nameChar = true ∧ ∀ c ∈ t.head?,c.isAlpha = true

theorem attrName (str : Octets) : Name (attr str) := by
  cases str with
  | nil => exact ⟨rfl,nofun⟩
  | cons b str =>
    cases is : letter b with
    | true =>
      have chars := escapesChars (b :: str)
      rw [escapesLetter is] at chars
      rw [attrLetter is]
      refine ⟨chars,?_⟩
      rintro c ⟨⟩
      exact (letterKept b is).2.1
    | false =>
      rw [attrOther is]
      have chars := hexChars b
      refine ⟨?_,?_⟩
      · rw [List.all_cons,List.all_append,escapesChars]
        simp only [List.all_eq_true,Bool.and_eq_true] at chars ⊢
        exact ⟨by decide,fun c mem => (chars c mem).1,trivial⟩
      · rintro c ⟨⟩
        decide

/-! Strings -/

def noSlashes (str : List CodePoint) : Prop := str.IsChain fun a b => ¬(a = 47 ∧ b = 47)

theorem notDoubled {str : List CodePoint} (none : ¬[47,47] <:+: str) : noSlashes str := by
  induction str with
  | nil => exact List.isChain_nil
  | cons a str ih =>
    have rest := ih fun ⟨x,y,same⟩ => none ⟨a :: x,y,by rw [← same]; rfl⟩
    cases str with
    | nil => exact List.isChain_singleton a
    | cons b str =>
      refine List.isChain_cons_cons.mpr ⟨?_,rest⟩
      rintro ⟨rfl,rfl⟩
      exact none ⟨[],str,rfl⟩

theorem pointSmall (c : CodePoint) : c.val < 64 ^ 12 := Nat.lt_of_lt_of_le c.isLt (by decide)

theorem slashOnly (c : CodePoint) : ∀ b ∈ Utf8.encodeOne c.val,b = slash → c = 47 := by
  intro b mem is
  by_cases ascii : c.val < 0x80
  · rw [Utf8.encodeAscii ascii] at mem
    have value := List.mem_singleton.mp mem
    rw [is] at value
    have same : (47 : Nat) = c.val := Utf8.octetInj (by decide) (by omega) value
    exact Fin.ext same.symm
  · have high := Utf8.encodeHigh (pointSmall c) (Nat.le_of_not_lt ascii) b mem
    rw [is] at high
    exact absurd high (by decide)

theorem otherSingle {str : Octets} (none : ∀ b ∈ str,b ≠ slash) : Single str := by
  induction str with
  | nil => exact List.isChain_nil
  | cons a str ih =>
    obtain ⟨first,rest⟩ := List.forall_mem_cons.mp none
    cases str with
    | nil => exact List.isChain_singleton a
    | cons b str => exact List.isChain_cons_cons.mpr ⟨fun both => first both.1,ih rest⟩

theorem oneSingle (c : CodePoint) : Single (Utf8.encodeOne c.val) := by
  by_cases ascii : c.val < 0x80
  · rw [Utf8.encodeAscii ascii]
    exact List.isChain_singleton _
  · refine otherSingle fun b mem is => ?_
    have high := Utf8.encodeHigh (pointSmall c) (Nat.le_of_not_lt ascii) b mem
    rw [is] at high
    exact absurd high (by decide)

theorem encodeSingle {str : List CodePoint} (none : noSlashes str) : Single (encode str) := by
  induction str with
  | nil => exact List.isChain_nil
  | cons c str ih =>
    refine List.isChain_append.mpr ⟨oneSingle c,ih none.tail,?_⟩
    intro x last y head both
    have isC := slashOnly c x (List.mem_of_mem_getLast? last) both.1
    cases str with
    | nil => cases head
    | cons d str =>
      have isD : d = 47 := slashOnly d y (Option.some.inj head ▸ List.mem_cons_self) both.2
      exact (List.isChain_cons_cons.mp none).1 ⟨isC,isD⟩

theorem encodeInj {s t : List CodePoint} (same : encode s = encode t) : s = t := by
  have small (u : List CodePoint) : ∀ n ∈ u.map Fin.val,n < 64 ^ 12 := by
    intro n mem
    obtain ⟨c,_,rfl⟩ := List.mem_map.mp mem
    exact pointSmall c
  exact List.map_injective_iff.mpr (fun _ _ => Fin.ext) (Utf8.encodeInj (small s) (small t) same)

theorem toAttrSome {str : List CodePoint} {x : Text} (is : toAttr str = some x) : noSlashes str ∧ attr (encode str) = x := by
  unfold toAttr at is
  split at is
  · cases is
  · exact ⟨notDoubled ‹_›,Option.some.inj is⟩

theorem toAttrInj {s t : List CodePoint} {x : Text} (isS : toAttr s = some x) (isT : toAttr t = some x) : s = t := by
  obtain ⟨noneS,attrS⟩ := toAttrSome isS
  obtain ⟨noneT,attrT⟩ := toAttrSome isT
  exact encodeInj (attrInj (encodeSingle noneS) (encodeSingle noneT) (attrS.trans attrT.symm))

theorem toAttrName {s : List CodePoint} {x : Text} (is : toAttr s = some x) : Name x ∧ (s ≠ [] → x ≠ []) := by
  obtain ⟨_,rfl⟩ := toAttrSome is
  refine ⟨attrName _,fun some => ?_⟩
  obtain ⟨c,s,rfl⟩ := List.exists_cons_of_ne_nil some
  exact attrSome _ _

end PublicInbox.Hval
