import PublicInbox.IMAP.Fetch

/-! Every literal of a response is announced with its own length, but for a partial fetch whose
octets are fewer than those asked for. -/
namespace PublicInbox.IMAP
open ContentHash (Bytes encode)

def Tok.Framed : Tok → Prop
  | text _ => True
  | literal size data => size.map Decimal.value = some data.length

instance (t : Tok) : Decidable t.Framed :=
  match t with
  | .text _ => isTrue trivial
  | .literal size data => inferInstanceAs (Decidable (size.map Decimal.value = some data.length))

def Framed (b : Buf) : Prop := ∀ t ∈ b,t.Framed

instance (b : Buf) : Decidable (Framed b) := List.decidableBAll _ _

@[simp] theorem framedNil : Framed [] := List.forall_mem_nil _

@[simp] theorem framedAppend {a b : Buf} : Framed (a ++ b) ↔ Framed a ∧ Framed b := List.forall_mem_append

@[simp] theorem framedPlain (s : String) : Framed (plain s) := by simp [Framed,plain,Tok.Framed]

@[simp] theorem framedSized (data : Bytes) : Framed [.sized data] := by simp [Framed,Tok.sized,Tok.Framed]

theorem framedFlatten {bs : List Buf} (each : ∀ b ∈ bs,Framed b) : Framed bs.flatten := by
  intro t mem
  obtain ⟨b,inside,own⟩ := List.mem_flatten.mp mem
  exact each b inside t own

@[simp] theorem framedEsc (v : Option String) : Framed (esc v) := by
  cases v with
  | none => exact framedPlain _
  | some v =>
    simp only [esc]
    split
    · exact framedSized _
    · exact framedPlain _

theorem framedSpaced {bs : List Buf} (each : ∀ b ∈ bs,Framed b) : Framed (spaced bs) := by
  induction bs with
  | nil => exact framedNil
  | cons b bs ih =>
    obtain ⟨first,rest⟩ := List.forall_mem_cons.mp each
    cases bs with
    | nil => exact first
    | cons c cs =>
      simp only [spaced,framedAppend]
      exact ⟨⟨first,framedPlain _⟩,ih rest⟩

variable {E : Type} {r : Reads E} {smsg : Smsg}

@[simp] theorem framedAddr (e : E) (x : String) (y : Option String) : Framed (addrEnvelope r e x y) := by
  unfold addrEnvelope
  split
  · exact framedPlain _
  · split
    · exact framedPlain _
    · simp only [framedAppend,framedPlain,true_and,and_true]
      intro t mem
      obtain ⟨a,-,own⟩ := List.mem_flatMap.mp mem
      have one : Framed (plain "(" ++ spaced [esc a.name,plain "NIL",esc a.user,esc a.host] ++ plain ")") := by
        simp only [framedAppend,framedPlain,true_and,and_true]
        exact framedSpaced (by simp)
      exact one t own

@[simp] theorem framedEnvelope (e : E) : Framed (emlEnvelope r e) := by
  unfold emlEnvelope
  simp only [framedAppend,framedPlain,true_and,and_true]
  exact framedSpaced (by simp)

@[simp] theorem framedHash (hash : List (String × String)) : Framed (escHash hash) := by
  unfold escHash
  split
  · exact framedPlain _
  · simp only [framedAppend,framedPlain,true_and,and_true]
    refine framedSpaced fun b mem => ?_
    obtain ⟨x,-,own⟩ := List.mem_flatMap.mp mem
    simp only [List.mem_cons,List.not_mem_nil,or_false] at own
    rcases own with rfl | rfl
    · exact framedEsc _
    · exact framedEsc _

@[simp] theorem framedDisposition (e : E) : Framed (bodyDisposition r e) := by
  unfold bodyDisposition
  split
  · exact framedPlain _
  · split <;> simp

theorem framedHeld {hold : List Buf} (each : ∀ b ∈ hold,Framed b) : Framed (held hold) := by
  unfold held
  split
  · exact framedPlain _
  · exact framedFlatten each

@[simp] theorem framedOpen (e : E) : Framed (bodyOpen r e) := by
  unfold bodyOpen
  simp only [framedAppend,framedPlain,framedEsc,framedHash,and_true]
  constructor
  · split <;> simp
  · split <;> simp

@[simp] theorem framedClose (structure_ : Bool) (e : E) : Framed (bodyClose r structure_ e) := by
  unfold bodyClose
  split <;> simp

theorem framedLeaf (structure_ : Bool) (e : E) {hold : Option (List Buf)} (each : ∀ h ∈ hold,∀ b ∈ h,Framed b) :
    Framed (bodyLeaf r structure_ e hold) := by
  unfold bodyLeaf
  simp only [framedAppend,framedOpen,framedClose,true_and,and_true]
  cases hold with
  | none => exact framedNil
  | some h => exact framedAppend.mpr ⟨framedPlain _,framedHeld (each h rfl)⟩

theorem framedParent (structure_ : Bool) (e : E) {hold : List Buf} (each : ∀ b ∈ hold,Framed b) :
    Framed (bodyParent r structure_ e hold) := by
  unfold bodyParent multipartClose
  split
  · simp only [framedAppend,framedPlain,framedEsc,true_and,and_true]
    refine ⟨framedHeld each,?_⟩
    split <;> simp
  · exact framedLeaf structure_ e fun h mem => Option.some.inj mem ▸ each

theorem framedFold (structure_ : Bool) (vs : List (Visit E)) {s : Nat × List Buf} (each : ∀ b ∈ s.2,Framed b) :
    ∀ b ∈ (vs.foldl (fold r structure_) s).2,Framed b := by
  induction vs generalizing s with
  | nil => exact each
  | cons v vs ih =>
    refine ih ?_
    unfold fold
    split
    · exact List.forall_mem_singleton.mpr (framedParent structure_ v.eml each)
    · exact List.forall_mem_cons.mpr ⟨framedLeaf structure_ v.eml (fun h mem => by cases mem),each⟩

theorem framedBody (structure_ : Bool) (m : Mime E) : Framed (fetchBody r structure_ m) :=
  framedFlatten (framedFold structure_ _ (List.forall_mem_nil _))

theorem framedItem {d : Doc E} {att : Att} {out : Buf} (emitted : emitItem r smsg d att = some out) : Framed out := by
  cases att with
  | bodyFull | rfc822 | bodyText | rfc822Text | rfc822Size | internaldate | flags =>
    cases emitted
    simp
  | bodyHeader | rfc822Header | envelope =>
    obtain ⟨e,-,rfl⟩ := Option.map_eq_some_iff.mp emitted
    simp
  | bodystructure | body =>
    obtain ⟨e,-,rfl⟩ := Option.map_eq_some_iff.mp emitted
    exact framedAppend.mpr ⟨framedPlain _,framedBody _ _⟩

theorem framedOp {d : Doc E} {op : Op} {x : Doc E × Buf} (done : op.run r smsg d = some x) : Framed x.2 := by
  cases op with
  | emit att =>
    obtain ⟨out,emitted,rfl⟩ := Option.map_eq_some_iff.mp done
    exact framedItem emitted
  | emlNew | crlfBref =>
    cases done
    exact framedNil
  | crlfHdr =>
    obtain ⟨e,-,rfl⟩ := Option.map_eq_some_iff.mp done
    exact framedNil
  | crlfBdy =>
    obtain ⟨e,-,rfl⟩ := Option.map_eq_some_iff.mp done
    split <;> exact framedNil

theorem framedOps {ops : List Op} {d : Doc E} {x : Doc E × Buf} (done : runOps r smsg d ops = some x) : Framed x.2 := by
  induction ops generalizing d x with
  | nil =>
    cases done
    exact framedNil
  | cons op ops ih =>
    obtain ⟨y,first,rest⟩ := Option.bind_eq_some_iff.mp done
    obtain ⟨z,later,rfl⟩ := Option.map_eq_some_iff.mp rest
    exact framedAppend.mpr ⟨framedOp first,ih later⟩

/- The octets a partial fetch asks for are there, or it asks for none; with an offset alone, the
offset is not beyond the end. An offset from 2^64 on is that of the last octet, and a length from there on reaches
to the last octet but one. -/
def Partial.Fits (p : Partial) (str : Bytes) : Prop :=
  match p.offset,p.len with
  | none,_ => True
  | some o,none => Decimal.value o ≤ str.length ∨ 2 ^ 64 ≤ Decimal.value o
  | some o,some n =>
    if 2 ^ 64 ≤ Decimal.value o then Decimal.value n = 0 ∨ Decimal.value n = 1 ∧ str ≠ []
    else if 2 ^ 64 ≤ Decimal.value n then Decimal.value o + Decimal.value n + 1 = str.length
    else Decimal.value n = 0 ∨ Decimal.value o + Decimal.value n ≤ str.length

instance (p : Partial) (str : Bytes) : Decidable (p.Fits str) :=
  match p with
  | ⟨_,_,none,_⟩ => isTrue trivial
  | ⟨_,_,some o,none⟩ => inferInstanceAs (Decidable (Decimal.value o ≤ str.length ∨ 2 ^ 64 ≤ Decimal.value o))
  | ⟨_,_,some o,some n⟩ => inferInstanceAs (Decidable (if 2 ^ 64 ≤ Decimal.value o then Decimal.value n = 0 ∨ Decimal.value n = 1 ∧ str ≠ []
    else if 2 ^ 64 ≤ Decimal.value n then Decimal.value o + Decimal.value n + 1 = str.length
    else Decimal.value n = 0 ∨ Decimal.value o + Decimal.value n ≤ str.length))

theorem substrNumSmall {ds : List Char} (small : Decimal.value ds < 2 ^ 64) : substrNum ds = Decimal.value ds := if_pos small

theorem substrNumLarge {ds : List Char} (large : 2 ^ 64 ≤ Decimal.value ds) : substrNum ds = -1 := if_neg (Nat.not_lt.mpr large)

theorem substrEnd {str : Bytes} {o : List Char} :
    (substr str (substrNum o) none).isSome = true ↔ Decimal.value o ≤ str.length ∨ 2 ^ 64 ≤ Decimal.value o := by
  rcases Nat.lt_or_ge (Decimal.value o) (2 ^ 64) with small | large
  · rw [substrNumSmall small]
    unfold substr
    have ahead : ¬ ((Decimal.value o : Int) < 0 ∧ str ≠ []) := by omega
    simp only [if_neg ahead]
    split
    all_goals
      simp only [Option.isSome_none,Option.isSome_some,Bool.false_eq_true,true_iff,false_iff]
      omega
  · rw [substrNumLarge large]
    simp only [large,or_true,iff_true]
    cases str with
    | nil => rfl
    | cons x xs =>
      have inside : ¬ (((x :: xs).length : Int) < -1 + (x :: xs).length ∨ -1 + ((x :: xs).length : Int) < 0 ∧ ((x :: xs).length : Int) < 0) := by omega
      unfold substr
      simp only [ne_eq,reduceCtorEq,not_false_eq_true,and_true,Int.reduceLT,if_true,if_neg inside,Option.isSome_some]

theorem substrLength {str : Bytes} {o n : List Char} :
    ((substr str (substrNum o) (some (substrNum n))).getD []).length = Decimal.value n ↔
      if 2 ^ 64 ≤ Decimal.value o then Decimal.value n = 0 ∨ Decimal.value n = 1 ∧ str ≠ []
      else if 2 ^ 64 ≤ Decimal.value n then Decimal.value o + Decimal.value n + 1 = str.length
      else Decimal.value n = 0 ∨ Decimal.value o + Decimal.value n ≤ str.length := by
  have cut : ∀ (p : Prop) [Decidable p] (b e : Nat),((if p then none else some ((str.take e).drop b)).getD []).length =
      if p then 0 else min e str.length - b := by
    intro p _ b e
    split
    · rfl
    · rw [Option.getD_some,List.length_drop,List.length_take]
  unfold substr
  dsimp only
  rw [cut]
  rcases Nat.lt_or_ge (Decimal.value o) (2 ^ 64) with small | large
  · rw [substrNumSmall small,if_neg (Nat.not_le.mpr small)]
    have ahead : ¬ ((Decimal.value o : Int) < 0 ∧ str ≠ []) := by omega
    rw [if_neg ahead]
    rcases Nat.lt_or_ge (Decimal.value n) (2 ^ 64) with few | many
    · rw [substrNumSmall few,if_neg (Nat.not_le.mpr few)]
      split_ifs <;> omega
    · rw [substrNumLarge many,if_pos many]
      split_ifs <;> omega
  · rw [substrNumLarge large,if_pos large]
    rcases eq_or_ne str [] with rfl | some
    · simp only [ne_eq,not_true_eq_false,and_false,or_false,if_false,List.length_nil]
      rcases Nat.lt_or_ge (Decimal.value n) (2 ^ 64) with few | many
      · rw [substrNumSmall few]
        split_ifs <;> omega
      · rw [substrNumLarge many]
        split_ifs <;> omega
    · have long := List.length_pos_of_ne_nil some
      simp only [some,ne_eq,not_false_eq_true,and_true,Int.reduceNeg,Int.reduceLT,if_true]
      rcases Nat.lt_or_ge (Decimal.value n) (2 ^ 64) with few | many
      · rw [substrNumSmall few]
        split_ifs <;> omega
      · rw [substrNumLarge many]
        split_ifs <;> omega

theorem framedPartial {e : E} {p : Partial} : Framed (emitPartial r e p) ↔ p.Fits (p.cb.text r e) := by
  have one {key : Bytes} {t : Tok} : Framed [.text key,t] ↔ t.Framed := by simp [Framed,Tok.Framed]
  obtain ⟨att,cb,offset,len⟩ := p
  unfold emitPartial Partial.Fits
  cases offset with
  | none =>
    rw [one]
    simp [Tok.sized,Tok.Framed]
  | some o =>
    cases len with
    | none =>
      rw [one]
      refine Iff.trans ?_ substrEnd
      simp only [Tok.Framed]
      cases substr (cb.text r e) (substrNum o) none with
      | none => simp
      | some cut => simp
    | some n =>
      rw [one]
      refine Iff.trans ?_ substrLength
      simp only [Tok.Framed,Option.map_some,Option.some.injEq]
      exact eq_comm

/- In a response, every marker is followed by as many octets as it says, if and only if every
partial fetch finds the octets it asks for. -/
theorem literalsFramed {order : List Att → List Att} {want : List (List Char)} {msn : Nat} {bref : Bytes}
    {eml : Option E} {out : Buf}
    (emitted : (fetchCompile order want).bind (fetchRunOps r smsg msn bref) = some (eml,out)) :
    Framed out ↔ ∀ c ∈ fetchCompile order want,∀ p ∈ c.partials,∀ e ∈ eml,p.Fits (p.cb.text r e) := by
  obtain ⟨c,compiled,emitted⟩ := Option.bind_eq_some_iff.mp emitted
  have only : (∀ c' ∈ fetchCompile order want,∀ p ∈ c'.partials,∀ e ∈ eml,p.Fits (p.cb.text r e)) ↔
      ∀ p ∈ c.partials,∀ e ∈ eml,p.Fits (p.cb.text r e) := by
    rw [compiled]
    exact ⟨fun all => all c rfl,fun all c' same => Option.some.inj same ▸ all⟩
  rw [only]
  obtain ⟨x,ops,rest⟩ := Option.bind_eq_some_iff.mp emitted
  have front := framedOps ops
  dsimp only at rest
  split at rest
  · rename_i eml' empty
    cases rest
    simp [front,empty]
  · rename_i e some here
    cases rest
    simp only [framedAppend,framedPlain,front,true_and,and_true]
    unfold partialEmit
    constructor
    · rintro whole p mem e' same
      cases same
      refine framedPartial.mp fun t own => whole t (List.mem_flatMap.mpr ⟨p,mem,own⟩)
    · intro fits t mem
      obtain ⟨p,inside,own⟩ := List.mem_flatMap.mp mem
      exact framedPartial.mpr (fits p inside e rfl) t own
  · contradiction

def splitHeader : Bytes → Bytes × Bytes
  | 10 :: 13 :: 10 :: rest => ([10],rest)
  | 10 :: 10 :: rest => ([10],rest)
  | x :: xs => (x :: (splitHeader xs).1,(splitHeader xs).2)
  | [] => ([],[])

def letterReads : Reads (Bytes × Bytes) where
  headerRaw := fun _ _ => none
  objects := fun _ => []
  ct := fun _ => ⟨"text",some "plain",[]⟩
  contentDisposition := fun _ => ("attachment",[])
  isSubmsg := fun _ => false
  hdr := Prod.fst
  bdy := fun e => some e.2
  imapBdy := fun _ => []
  mime := .leaf
  new := fun b => (splitHeader b,(splitHeader b).2)
  setHdr := fun e h => (h,e.2)
  setBdy := fun e b => (e.1,b)
  hdrsGet := fun _ _ => []
  hdrsNot := fun _ b => b

def letter : Bytes := encode "X: y\n\nabc"

def asked (item : String) : Option Compiled := fetchCompile id [item.toList]

def answered (item : String) : Option (Option (Bytes × Bytes) × Buf) :=
  (asked item).bind (fetchRunOps letterReads ⟨1,11,""⟩ 1 letter)

theorem literalsFramedInside : ∃ eml out,answered "BODY[1]<1.2>" = some (eml,out) ∧ Framed out := by
  have fit : ((answered "BODY[1]<1.2>").all fun x => (asked "BODY[1]<1.2>").all fun c => c.partials.all fun p =>
      x.1.all fun e => p.Fits (p.cb.text letterReads e)) = true := by decide +kernel
  have here : (answered "BODY[1]<1.2>").isSome = true := by decide +kernel
  obtain ⟨⟨eml,out⟩,emitted⟩ := Option.isSome_iff_exists.mp here
  rw [emitted] at fit
  refine ⟨eml,out,emitted,(literalsFramed emitted).mpr ?_⟩
  intro c compiled p mem e own
  have taken : asked "BODY[1]<1.2>" = some c := compiled
  rw [taken] at fit
  have own : eml = some e := own
  rw [own] at fit
  exact of_decide_eq_true (List.all_eq_true.mp fit p mem)

/- Ten octets are announced for the three of the body. -/
theorem pastTheEnd : ¬ ∀ (order : List Att → List Att) (want : List (List Char)) (msn : Nat) (bref : Bytes) (smsg : Smsg)
    (eml : Option (Bytes × Bytes)) (out : Buf),
    (fetchCompile order want).bind (fetchRunOps letterReads smsg msn bref) = some (eml,out) → Framed out := by
  intro framed
  have loose : ((answered "BODY[1]<0.10>").any fun x => ¬ Framed x.2) = true := by decide +kernel
  cases emitted : answered "BODY[1]<0.10>" with
  | none =>
    rw [emitted] at loose
    contradiction
  | some x =>
    rw [emitted] at loose
    exact of_decide_eq_true loose (framed id ["BODY[1]<0.10>".toList] 1 letter ⟨1,11,""⟩ x.1 x.2 emitted)

-- Items of t/imap.t that partial_prepare takes, and one that it does not.
example : (["BODY[9]<5.1>","BODY[1.1]","BODY[HEADER.FIELDS (DATE FROM)]","BODY[1.1.HEADER.FIELDS (TO)]"].map
    (fun s => (partialPrepare ⟨Need.zero,[],[]⟩ s.toList).isSome),
    (partialPrepare ⟨Need.zero,[],[]⟩ "BODY[HEDDER.FIELDS.NOT (TO)]".toList).isSome) =
      ([true,true,true,true],false) := by decide +kernel

end PublicInbox.IMAP
