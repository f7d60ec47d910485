import PublicInbox.Library.Rel
import Mathlib.Data.Char
import Mathlib.Data.List.Lex
import Mathlib.Data.List.Dedup

/-! SearchIdx.pm: the volatile metadata (keywords and labels) of a message, which are terms of its
Xapian document. The transaction and the split-off databases of a large shard are left out. -/
namespace PublicInbox.SearchIdx
open Keyed

abbrev Term := List Char

local instance : @LawfulBEq Term List.instBEq := inferInstance

def maxTermSize : Nat := 245

structure Doc (C : Type) where
  terms : Rel Term
  short : ∀ t,terms.Has t → t.length ≤ maxTermSize
  content : C

inductive Field where
  | kw
  | L
  deriving DecidableEq

def Field.pfx : Field → Char
  | kw => 'K'
  | L => 'L'

def vmdMap : List Field := [.kw,.L]

structure Vmd where
  own : Field → Option (List Term)
  plus : Field → Option (List Term)
  minus : Field → Option (List Term)

variable {C : Type}

namespace Doc

def addBoolTerm (doc : Doc C) (t : Term) : Doc C :=
  if fits : t.length ≤ maxTermSize then
    { doc with
      terms := doc.terms.add t
      short := fun u has => (Rel.hasAdd.mp has).elim (fun same => same ▸ fits) (doc.short u) }
  else doc

def remove (doc : Doc C) (t : Term) : Doc C :=
  { doc with
    terms := doc.terms.delete (fun u => u = t)
    short := fun u has => doc.short u (Rel.hasDelete.mp has).1 }

def removeTerm (doc : Doc C) (t : Term) : Doc C × Bool := if doc.terms.Has t then (doc.remove t,true) else (doc,false)

end Doc

def skipTo (pfx : Term) (cur : List Term) : List Term := cur.dropWhile (· < pfx)

def walkTerm (f : Field) (set : List Term) (w : List Term × List Term) : Term → List Term × List Term
  | [] => w
  | c :: v =>
    if c = f.pfx then
      if v ∈ set then (w.1,w.2.filter (· ≠ v)) else (w.1 ++ [c :: v],w.2)
    else w

structure Walk where
  cur : List Term
  rm : List Term
  add : List Term

def setField (vmd : Vmd) (w : Walk) (f : Field) : Walk :=
  match vmd.own f with
  | none => w
  | some set =>
    let out := (skipTo [f.pfx] w.cur).foldl (walkTerm f set) (w.rm,set.dedup)
    -- the inner loop ends at $end
    ⟨[],out.1,w.add ++ out.2.map (f.pfx :: ·)⟩

def setTerms (doc : Doc C) (vmd : Vmd) : Doc C × Bool :=
  let w := vmdMap.foldl (setField vmd) ⟨doc.terms.keys,[],[]⟩
  if w.rm = [] ∧ w.add = [] then (doc,false)
  else (w.add.foldl Doc.addBoolTerm (w.rm.foldl Doc.remove doc),true)

def removing (f : Field) (st : Doc C × Nat) (v : Term) : Doc C × Nat :=
  let (doc,gone) := st.1.removeTerm (f.pfx :: v)
  (doc,if gone then st.2 + 1 else st.2)

def adding (f : Field) (st : Doc C × Nat) (v : Term) : Doc C × Nat := (st.1.addBoolTerm (f.pfx :: v),st.2 + 1)

def applyField (vmd : Vmd) (st : Doc C × Nat) (f : Field) : Doc C × Nat :=
  ((vmd.plus f).getD []).foldl (adding f) (((vmd.minus f).getD []).foldl (removing f) st)

def applyVmdMod (doc : Doc C) (vmd : Vmd) : Doc C × Nat := vmdMap.foldl (applyField vmd) (doc,0)

def addTerms (doc : Doc C) (vmd : Vmd) : Doc C × Nat :=
  let (doc,updated) := vmdMap.foldl (fun st f => ((vmd.own f).getD []).foldl (adding f) st) (doc,0)
  let (doc,more) := applyVmdMod doc vmd
  (doc,updated + more)

def removeTerms (doc : Doc C) (vmd : Vmd) : Doc C × Nat :=
  vmdMap.foldl (fun st f => ((vmd.own f).getD []).foldl (removing f) st) (doc,0)

abbrev Xdb (C : Type) := Table Nat (Doc C)

/- _get_doc and replace_doc around a change of the document, which is written where `changed` is true -/
def withDoc (xdb : Xdb C) (docid : Nat) (change : Doc C → Doc C × Bool) : Xdb C :=
  match xdb.get? docid with
  | none => xdb
  | some doc =>
    let (doc,changed) := change doc
    if changed then xdb.insert docid doc else xdb

def setVmd (xdb : Xdb C) (docid : Nat) (vmd : Vmd) : Xdb C := withDoc xdb docid fun doc => setTerms doc vmd

def addVmd (xdb : Xdb C) (docid : Nat) (vmd : Vmd) : Xdb C :=
  withDoc xdb docid fun doc => ((addTerms doc vmd).1,(addTerms doc vmd).2 ≠ 0)

def removeVmd (xdb : Xdb C) (docid : Nat) (vmd : Vmd) : Xdb C :=
  withDoc xdb docid fun doc => ((removeTerms doc vmd).1,(removeTerms doc vmd).2 ≠ 0)

def updateVmd (xdb : Xdb C) (docid : Nat) (vmd : Vmd) : Xdb C :=
  withDoc xdb docid fun doc => ((applyVmdMod doc vmd).1,(applyVmdMod doc vmd).2 ≠ 0)

@[simp] theorem hasAddBoolTerm {doc : Doc C} {t u : Term} :
    (doc.addBoolTerm t).terms.Has u ↔ u = t ∧ t.length ≤ maxTermSize ∨ doc.terms.Has u := by
  unfold Doc.addBoolTerm
  split
  · rename_i fits
    simp [fits]
  · rename_i long
    simp [long]

@[simp] theorem hasRemove {doc : Doc C} {t u : Term} : (doc.remove t).terms.Has u ↔ doc.terms.Has u ∧ u ≠ t := by
  simp [Doc.remove]

@[simp] theorem hasRemoveTerm {doc : Doc C} {t u : Term} :
    (doc.removeTerm t).1.terms.Has u ↔ doc.terms.Has u ∧ u ≠ t := by
  unfold Doc.removeTerm
  split
  · exact hasRemove
  · rename_i absent
    exact ⟨fun has => ⟨has,fun same => absent (same ▸ has)⟩,And.left⟩

theorem hasRemoves (rm : List Term) (doc : Doc C) (u : Term) :
    (rm.foldl Doc.remove doc).terms.Has u ↔ doc.terms.Has u ∧ u ∉ rm := by
  induction rm generalizing doc with
  | nil => simp
  | cons t rm ih =>
    rw [List.foldl_cons,ih,hasRemove,List.mem_cons,not_or,and_assoc]

theorem hasAdds (add : List Term) (doc : Doc C) (u : Term) :
    (add.foldl Doc.addBoolTerm doc).terms.Has u ↔ (u ∈ add ∧ u.length ≤ maxTermSize) ∨ doc.terms.Has u := by
  induction add generalizing doc with
  | nil => simp
  | cons t add ih =>
    rw [List.foldl_cons,ih,hasAddBoolTerm,List.mem_cons]
    constructor
    · rintro (⟨mem,fits⟩ | ⟨rfl,fits⟩ | old)
      · exact .inl ⟨.inr mem,fits⟩
      · exact .inl ⟨.inl rfl,fits⟩
      · exact .inr old
    · rintro (⟨rfl | mem,fits⟩ | old)
      · exact .inr (.inl ⟨rfl,fits⟩)
      · exact .inl ⟨mem,fits⟩
      · exact .inr (.inr old)

theorem hasRemoving (f : Field) (vs : List Term) (st : Doc C × Nat) (u : Term) :
    (vs.foldl (removing f) st).1.terms.Has u ↔ st.1.terms.Has u ∧ ∀ v ∈ vs,u ≠ f.pfx :: v := by
  induction vs generalizing st with
  | nil => simp
  | cons v vs ih =>
    rw [List.foldl_cons,ih,List.forall_mem_cons]
    exact (and_congr_left' hasRemoveTerm).trans and_assoc

theorem hasAdding (f : Field) (vs : List Term) (st : Doc C × Nat) (u : Term) :
    (vs.foldl (adding f) st).1.terms.Has u ↔ (∃ v ∈ vs,u = f.pfx :: v ∧ u.length ≤ maxTermSize) ∨ st.1.terms.Has u := by
  induction vs generalizing st with
  | nil => simp
  | cons v vs ih =>
    rw [List.foldl_cons,ih]
    have first : (adding f st v).1.terms.Has u ↔ u = f.pfx :: v ∧ u.length ≤ maxTermSize ∨ st.1.terms.Has u :=
      hasAddBoolTerm.trans (or_congr_left (and_congr_right fun same => by rw [same]))
    rw [first,List.exists_mem_cons_iff,← or_assoc,or_comm (a := ∃ v ∈ vs,_)]

def Counts (st new : Doc C × Nat) : Prop := st.2 < new.2 ∨ new = st

theorem Counts.then {a b c : Doc C × Nat} (first : Counts a b) (second : Counts b c) : Counts a c := by
  rcases first with more | rfl
  · rcases second with again | rfl
    · exact .inl (more.trans again)
    · exact .inl more
  · exact second

theorem countsFold {β : Type} {step : Doc C × Nat → β → Doc C × Nat} (counts : ∀ st b,Counts st (step st b)) (bs : List β)
    (st : Doc C × Nat) : Counts st (bs.foldl step st) := by
  induction bs generalizing st with
  | nil => exact .inr rfl
  | cons b bs ih => exact (counts st b).then (ih (step st b))

theorem countsRemoving (f : Field) (st : Doc C × Nat) (v : Term) : Counts st (removing f st v) := by
  unfold removing Doc.removeTerm
  by_cases there : st.1.terms.Has (f.pfx :: v)
  · rw [if_pos there]
    exact .inl (Nat.lt_succ_self _)
  · rw [if_neg there]
    exact .inr rfl

theorem countsAdding (f : Field) (st : Doc C × Nat) (v : Term) : Counts st (adding f st v) := .inl (Nat.lt_succ_self _)

theorem countsField (vmd : Vmd) (st : Doc C × Nat) (f : Field) : Counts st (applyField vmd st f) :=
  (countsFold (countsRemoving f) _ st).then (countsFold (countsAdding f) _ _)

theorem unchanged {doc new : Doc C} {n : Nat} (counts : Counts (doc,0) (new,n)) (none : n = 0) : new = doc := by
  rcases counts with more | same
  · exact absurd none (Nat.ne_of_gt more)
  · exact congrArg Prod.fst same

def Doc.Tagged (doc : Doc C) (f : Field) (v : Term) : Prop := doc.terms.Has (f.pfx :: v)

def Fits (f : Field) (v : Term) : Prop := (f.pfx :: v).length ≤ maxTermSize

structure Became (doc new : Doc C) (tags : Field → Term → Prop) : Prop where
  tags : ∀ f v,new.Tagged f v ↔ tags f v
  others : ∀ u,(∀ (f : Field) v,u ≠ f.pfx :: v) → (new.terms.Has u ↔ doc.terms.Has u)
  content : new.content = doc.content

theorem pfxInj {f g : Field} {v w : Term} (same : f.pfx :: v = g.pfx :: w) : f = g ∧ v = w := by
  obtain ⟨first,rest⟩ := List.cons.inj same
  refine ⟨?_,rest⟩
  cases f <;> cases g <;> first | rfl | exact absurd first (by decide)

/- What one pass of a loop over @VMD_MAP does: `tag` is what becomes of a tag of its own field. -/
structure Fieldwise (step : Doc C × Nat → Field → Doc C × Nat) (tag : Field → Term → Prop → Prop) : Prop where
  own : ∀ st f v,(step st f).1.Tagged f v ↔ tag f v (st.1.Tagged f v)
  other : ∀ st f u,(∀ v,u ≠ f.pfx :: v) → ((step st f).1.terms.Has u ↔ st.1.terms.Has u)
  content : ∀ st f,(step st f).1.content = st.1.content

theorem Fieldwise.all {step : Doc C × Nat → Field → Doc C × Nat} {tag : Field → Term → Prop → Prop}
    (fieldwise : Fieldwise step tag) (st : Doc C × Nat) :
    Became st.1 (vmdMap.foldl step st).1 fun f v => tag f v (st.1.Tagged f v) where
  tags := by
    intro f v
    simp only [vmdMap,List.foldl_cons,List.foldl_nil]
    cases f with
    | kw =>
      refine (fieldwise.other _ .L (Field.kw.pfx :: v) fun w same => ?_).trans (fieldwise.own st .kw v)
      cases (pfxInj (f := .kw) (g := .L) same).1
    | L =>
      have before : (step st .kw).1.Tagged .L v ↔ st.1.Tagged .L v :=
        fieldwise.other st .kw (Field.L.pfx :: v) fun w same => by cases (pfxInj (f := .L) (g := .kw) same).1
      exact (fieldwise.own _ .L v).trans (by rw [before])
  others := fun u outside =>
    (fieldwise.other _ .L u (outside .L)).trans (fieldwise.other st .kw u (outside .kw))
  content := (fieldwise.content _ .L).trans (fieldwise.content st .kw)

theorem contentFold {β : Type} {step : Doc C × Nat → β → Doc C × Nat} (keeps : ∀ st b,(step st b).1.content = st.1.content)
    (bs : List β) (st : Doc C × Nat) : (bs.foldl step st).1.content = st.1.content := by
  induction bs generalizing st with
  | nil => rfl
  | cons b bs ih => exact (ih _).trans (keeps st b)

theorem contentRemoving (f : Field) (st : Doc C × Nat) (v : Term) : (removing f st v).1.content = st.1.content := by
  unfold removing Doc.removeTerm
  by_cases there : st.1.terms.Has (f.pfx :: v)
  · rw [if_pos there]
    rfl
  · rw [if_neg there]

theorem contentAdding (f : Field) (st : Doc C × Nat) (v : Term) : (adding f st v).1.content = st.1.content := by
  unfold adding Doc.addBoolTerm
  dsimp only
  split <;> rfl

theorem removesFieldwise (vs : Field → List Term) :
    Fieldwise (fun (st : Doc C × Nat) f => (vs f).foldl (removing f) st) fun f v has => has ∧ v ∉ vs f where
  own := fun st f v => (hasRemoving f (vs f) st _).trans (and_congr_right fun _ =>
    ⟨fun apart mem => apart v mem rfl,fun absent _ mem same => absent ((pfxInj same).2 ▸ mem)⟩)
  other := fun st f u outside => (hasRemoving f (vs f) st u).trans (and_iff_left fun v _ => outside v)
  content := fun st f => contentFold (contentRemoving f) (vs f) st

theorem addsFieldwise (vs : Field → List Term) :
    Fieldwise (fun (st : Doc C × Nat) f => (vs f).foldl (adding f) st) fun f v has => (v ∈ vs f ∧ Fits f v) ∨ has where
  own := by
    intro st f v
    refine (hasAdding f (vs f) st _).trans (or_congr_left ?_)
    constructor
    · rintro ⟨w,mem,same,fits⟩
      exact ⟨(pfxInj same).2 ▸ mem,fits⟩
    · rintro ⟨mem,fits⟩
      exact ⟨v,mem,rfl,fits⟩
  other := fun st f u outside => (hasAdding f (vs f) st u).trans (or_iff_right fun ⟨v,_,same,_⟩ => outside v same)
  content := fun st f => contentFold (contentAdding f) (vs f) st

theorem appliesFieldwise (vmd : Vmd) : Fieldwise (applyField (C := C) vmd)
    fun f v has => (v ∈ (vmd.plus f).getD [] ∧ Fits f v) ∨ (has ∧ v ∉ (vmd.minus f).getD []) where
  own := fun st f v => ((addsFieldwise fun f => (vmd.plus f).getD []).own _ f v).trans
    (or_congr_right ((removesFieldwise fun f => (vmd.minus f).getD []).own st f v))
  other := fun st f u outside => ((addsFieldwise fun f => (vmd.plus f).getD []).other _ f u outside).trans
    ((removesFieldwise fun f => (vmd.minus f).getD []).other st f u outside)
  content := fun st f => ((addsFieldwise fun f => (vmd.plus f).getD []).content _ f).trans
    ((removesFieldwise fun f => (vmd.minus f).getD []).content st f)

theorem memSkip {pfx u : Term} {cur : List Term} (late : ¬ u < pfx) : u ∈ skipTo pfx cur ↔ u ∈ cur := by
  induction cur with
  | nil => rfl
  | cons t cur ih =>
    unfold skipTo at ih ⊢
    rw [List.dropWhile_cons]
    split
    · rename_i early
      rw [ih,List.mem_cons]
      exact ⟨.inr,fun mem => mem.resolve_left fun same => late (same ▸ of_decide_eq_true early)⟩
    · rfl

theorem notEarly (c : Char) (v : Term) : ¬ c :: v < [c] := by
  simp

theorem walkRm (f : Field) (set : List Term) (w : List Term × List Term) (t u : Term) :
    u ∈ (walkTerm f set w t).1 ↔ u ∈ w.1 ∨ u = t ∧ ∃ v,t = f.pfx :: v ∧ v ∉ set := by
  cases t with
  | nil => simp [walkTerm]
  | cons c v =>
    unfold walkTerm
    by_cases own : c = f.pfx
    · by_cases keep : v ∈ set
      · simp [own,keep]
      · simp [own,keep]
    · simp [own]

theorem walkAdd (f : Field) (set : List Term) (w : List Term × List Term) (t v : Term) :
    v ∈ (walkTerm f set w t).2 ↔ v ∈ w.2 ∧ ¬ (t = f.pfx :: v ∧ v ∈ set) := by
  cases t with
  | nil => simp [walkTerm]
  | cons c u =>
    simp only [walkTerm]
    by_cases own : c = f.pfx
    · by_cases keep : u ∈ set
      · rw [if_pos own,if_pos keep]
        simp only [List.mem_filter,decide_eq_true_eq,own,List.cons.injEq,true_and,not_and]
        exact and_congr_right fun _ => ⟨fun other same => absurd same.symm other,fun fine same => fine same.symm (same ▸ keep)⟩
      · rw [if_pos own,if_neg keep]
        simp only [own,List.cons.injEq,true_and,not_and]
        refine (and_iff_left fun same mem => keep ?_).symm
        rwa [same]
    · simp [own]

theorem walked (f : Field) (set cur : List Term) (w : List Term × List Term) :
    (∀ u,u ∈ (cur.foldl (walkTerm f set) w).1 ↔ u ∈ w.1 ∨ u ∈ cur ∧ ∃ v,u = f.pfx :: v ∧ v ∉ set) ∧
      ∀ v,v ∈ (cur.foldl (walkTerm f set) w).2 ↔ v ∈ w.2 ∧ ¬ (f.pfx :: v ∈ cur ∧ v ∈ set) := by
  induction cur generalizing w with
  | nil => simp
  | cons t cur ih =>
    obtain ⟨rm,add⟩ := ih (walkTerm f set w t)
    rw [List.foldl_cons]
    refine ⟨fun u => ?_,fun v => ?_⟩
    · rw [rm,walkRm,List.mem_cons,or_assoc]
      refine or_congr_right ?_
      constructor
      · rintro (⟨rfl,stale⟩ | ⟨mem,stale⟩)
        · exact ⟨.inl rfl,stale⟩
        · exact ⟨.inr mem,stale⟩
      · rintro ⟨rfl | mem,stale⟩
        · exact .inl ⟨rfl,stale⟩
        · exact .inr ⟨mem,stale⟩
    · rw [add,walkAdd,List.mem_cons,and_assoc]
      refine and_congr_right fun _ => ?_
      constructor
      · rintro ⟨first,rest⟩ ⟨same | mem,keep⟩
        · exact first ⟨same.symm,keep⟩
        · exact rest ⟨mem,keep⟩
      · intro none
        exact ⟨fun ⟨same,keep⟩ => none ⟨.inl same.symm,keep⟩,fun ⟨mem,keep⟩ => none ⟨.inr mem,keep⟩⟩

theorem fieldSet {vmd : Vmd} {f : Field} {set : List Term} (given : vmd.own f = some set) (w : Walk) :
    (setField vmd w f).cur = [] ∧
      (∀ u,u ∈ (setField vmd w f).rm ↔ u ∈ w.rm ∨ u ∈ w.cur ∧ ∃ v,u = f.pfx :: v ∧ v ∉ set) ∧
      ∀ u,u ∈ (setField vmd w f).add ↔ u ∈ w.add ∨ ∃ v ∈ set,u = f.pfx :: v ∧ u ∉ w.cur := by
  have there : ∀ v,f.pfx :: v ∈ skipTo [f.pfx] w.cur ↔ f.pfx :: v ∈ w.cur := fun v => memSkip (notEarly f.pfx v)
  obtain ⟨rm,add⟩ := walked f set (skipTo [f.pfx] w.cur) (w.rm,set.dedup)
  simp only [setField,given]
  refine ⟨trivial,fun u => (rm u).trans (or_congr_right ?_),fun u => ?_⟩
  · constructor
    · rintro ⟨mem,v,rfl,stale⟩
      exact ⟨(there v).mp mem,v,rfl,stale⟩
    · rintro ⟨mem,v,rfl,stale⟩
      exact ⟨(there v).mpr mem,v,rfl,stale⟩
  · rw [List.mem_append,List.mem_map]
    refine or_congr_right ?_
    constructor
    · rintro ⟨v,mem,rfl⟩
      obtain ⟨inside,new⟩ := (add v).mp mem
      have set' := List.mem_dedup.mp inside
      exact ⟨v,set',rfl,fun old => new ⟨(there v).mpr old,set'⟩⟩
    · rintro ⟨v,inside,rfl,new⟩
      exact ⟨v,(add v).mpr ⟨List.mem_dedup.mpr inside,fun ⟨old,_⟩ => new ((there v).mp old)⟩,rfl⟩

def Given (doc : Doc C) (vmd : Vmd) (f : Field) (v : Term) : Prop := match vmd.own f with
  | none => doc.Tagged f v
  | some set => v ∈ set

def setWalk (doc : Doc C) (vmd : Vmd) : Walk := vmdMap.foldl (setField vmd) ⟨doc.terms.keys,[],[]⟩

theorem hasSet (doc : Doc C) (vmd : Vmd) (u : Term) : (setTerms doc vmd).1.terms.Has u ↔
    (u ∈ (setWalk doc vmd).add ∧ u.length ≤ maxTermSize) ∨ doc.terms.Has u ∧ u ∉ (setWalk doc vmd).rm := by
  unfold setTerms
  change (if (setWalk doc vmd).rm = [] ∧ (setWalk doc vmd).add = [] then (doc,false) else _).1.terms.Has u ↔ _
  split
  · rename_i nothing
    simp [nothing.1,nothing.2]
  · exact (hasAdds _ _ u).trans (or_congr_right (hasRemoves _ doc u))

theorem contentSet (doc : Doc C) (vmd : Vmd) : (setTerms doc vmd).1.content = doc.content := by
  have removes : ∀ (rm : List Term) (doc : Doc C),(rm.foldl Doc.remove doc).content = doc.content := by
    intro rm
    induction rm with
    | nil => exact fun doc => rfl
    | cons t rm ih => exact fun doc => ih (doc.remove t)
  have adds : ∀ (add : List Term) (doc : Doc C),(add.foldl Doc.addBoolTerm doc).content = doc.content := by
    intro add
    induction add with
    | nil => exact fun doc => rfl
    | cons t add ih =>
      intro doc
      refine (ih (doc.addBoolTerm t)).trans ?_
      unfold Doc.addBoolTerm
      split <;> rfl
  unfold setTerms
  dsimp only
  split
  · rfl
  · exact (adds _ _).trans (removes _ doc)

theorem setWalked (doc : Doc C) (vmd : Vmd) :
    (∀ u,u ∈ (setWalk doc vmd).rm ↔ doc.terms.Has u ∧ ((∃ set,vmd.own .kw = some set ∧ ∃ v,u = Field.kw.pfx :: v ∧ v ∉ set) ∨
      vmd.own .kw = none ∧ ∃ set,vmd.own .L = some set ∧ ∃ v,u = Field.L.pfx :: v ∧ v ∉ set)) ∧
    ∀ u,u ∈ (setWalk doc vmd).add ↔ (∃ set,vmd.own .kw = some set ∧ ∃ v ∈ set,u = Field.kw.pfx :: v ∧ ¬ doc.terms.Has u) ∨
      ∃ set,vmd.own .L = some set ∧ ∃ v ∈ set,u = Field.L.pfx :: v ∧ (vmd.own .kw = none → ¬ doc.terms.Has u) := by
  have start : ∀ u,u ∈ doc.terms.keys ↔ doc.terms.Has u := fun u => Rel.hasKeys
  simp only [setWalk,vmdMap,List.foldl_cons,List.foldl_nil]
  cases kw : vmd.own .kw with
  | none =>
    have idle : setField vmd ⟨doc.terms.keys,[],[]⟩ .kw = ⟨doc.terms.keys,[],[]⟩ := by simp only [setField,kw]
    rw [idle]
    cases L : vmd.own .L with
    | none =>
      have done : setField vmd ⟨doc.terms.keys,[],[]⟩ .L = ⟨doc.terms.keys,[],[]⟩ := by simp only [setField,L]
      rw [done]
      simp
    | some ls =>
      obtain ⟨-,rm,add⟩ := fieldSet L ⟨doc.terms.keys,[],[]⟩
      refine ⟨fun u => (rm u).trans ?_,fun u => (add u).trans ?_⟩
      · simp [start]
      · simp [start]
  | some ks =>
    obtain ⟨cur,rm,add⟩ := fieldSet kw ⟨doc.terms.keys,[],[]⟩
    generalize setField vmd ⟨doc.terms.keys,[],[]⟩ .kw = w at cur rm add
    cases L : vmd.own .L with
    | none =>
      have done : setField vmd w .L = w := by simp only [setField,L]
      rw [done]
      refine ⟨fun u => (rm u).trans ?_,fun u => (add u).trans ?_⟩
      · simp [start]
      · simp [start]
    | some ls =>
      obtain ⟨-,rm',add'⟩ := fieldSet L w
      refine ⟨fun u => (rm' u).trans ?_,fun u => (add' u).trans ?_⟩
      · rw [rm,cur]
        simp [start]
      · rw [add,cur]
        simp [start]

theorem setKw (doc : Doc C) (vmd : Vmd) (v : Term) :
    (setTerms doc vmd).1.Tagged .kw v ↔ Given doc vmd .kw v ∧ Fits .kw v := by
  obtain ⟨rm,add⟩ := setWalked doc vmd
  have apart : ∀ w,Field.kw.pfx :: v ≠ Field.L.pfx :: w := fun w same => by cases (pfxInj (f := .kw) (g := .L) same).1
  have same : ∀ w,Field.kw.pfx :: v = Field.kw.pfx :: w ↔ v = w := fun w => by simp
  have fits := doc.short (Field.kw.pfx :: v)
  rw [Doc.Tagged,hasSet,rm,add]
  unfold Given Fits Doc.Tagged
  cases vmd.own .kw with
  | none =>
    simp only [reduceCtorEq,false_and,exists_false,false_or,apart,and_false,not_false_eq_true,and_true]
    exact ⟨fun has => ⟨has,fits has⟩,And.left⟩
  | some ks =>
    simp only [Option.some.injEq,exists_eq_left',same,reduceCtorEq,false_and,or_false,apart,and_false,exists_false]
    grind

theorem setL (doc : Doc C) (vmd : Vmd) (v : Term) :
    (setTerms doc vmd).1.Tagged .L v ↔ (Given doc vmd .L v ∧ Fits .L v) ∨
      ((vmd.own .kw).isSome ∧ (vmd.own .L).isSome ∧ doc.Tagged .L v) := by
  obtain ⟨rm,add⟩ := setWalked doc vmd
  have apart : ∀ w,Field.L.pfx :: v ≠ Field.kw.pfx :: w := fun w same => by cases (pfxInj (f := .L) (g := .kw) same).1
  have same : ∀ w,Field.L.pfx :: v = Field.L.pfx :: w ↔ v = w := fun w => by simp
  have fits := doc.short (Field.L.pfx :: v)
  rw [Doc.Tagged,hasSet,rm,add]
  unfold Given Fits Doc.Tagged
  cases vmd.own .kw with
  | none =>
    cases vmd.own .L with
    | none => simpa using fits
    | some ls =>
      simp [apart,same]
      grind
  | some ks =>
    cases vmd.own .L with
    | none => simpa [apart] using fits
    | some ls =>
      simp [apart,same]

theorem setOthers (doc : Doc C) (vmd : Vmd) (u : Term) (outside : ∀ (f : Field) v,u ≠ f.pfx :: v) :
    (setTerms doc vmd).1.terms.Has u ↔ doc.terms.Has u := by
  obtain ⟨rm,add⟩ := setWalked doc vmd
  rw [hasSet,rm,add]
  simp [outside]

def Vmd.Own (vmd : Vmd) (f : Field) (v : Term) : Prop := v ∈ (vmd.own f).getD []

def Vmd.Plus (vmd : Vmd) (f : Field) (v : Term) : Prop := v ∈ (vmd.plus f).getD []

def Vmd.Minus (vmd : Vmd) (f : Field) (v : Term) : Prop := v ∈ (vmd.minus f).getD []

def Exact (xdb after : Xdb C) (docid : Nat) (want : Doc C → Field → Term → Prop) : Prop :=
  (∀ k,k ≠ docid → after.get? k = xdb.get? k) ∧ match xdb.get? docid with
    | none => after.get? docid = none
    | some doc => ∃ new,after.get? docid = some new ∧ Became doc new (want doc)

theorem exactDoc (xdb : Xdb C) (docid : Nat) (change : Doc C → Doc C × Bool) (want : Doc C → Field → Term → Prop)
    (idle : ∀ doc,(change doc).2 = false → (change doc).1 = doc) :
    Exact xdb (withDoc xdb docid change) docid want ↔ ∀ doc,xdb.get? docid = some doc → Became doc (change doc).1 (want doc) := by
  unfold Exact withDoc
  cases found : xdb.get? docid with
  | none => simp [found]
  | some doc =>
    have now : (if (change doc).2 = true then xdb.insert docid (change doc).1 else xdb).get? docid = some (change doc).1 := by
      split
      · rw [Table.getInsert,if_pos rfl]
      · rename_i same
        rw [found,idle doc (by simpa using same)]
    have rest : ∀ k,k ≠ docid →
        (if (change doc).2 = true then xdb.insert docid (change doc).1 else xdb).get? k = xdb.get? k := by
      intro k other
      split
      · rw [Table.getInsert,if_neg other]
      · rfl
    dsimp only
    rw [now]
    simp only [Option.some.injEq,exists_eq_left',forall_eq']
    exact and_iff_right rest

theorem became {doc new : Doc C} {tags want : Field → Term → Prop} (is : Became doc new tags) :
    Became doc new want ↔ ∀ f v,tags f v ↔ want f v :=
  ⟨fun other f v => (is.tags f v).symm.trans (other.tags f v),
    fun same => ⟨fun f v => (is.tags f v).trans (same f v),is.others,is.content⟩⟩

theorem setBecame (doc : Doc C) (vmd : Vmd) : Became doc (setTerms doc vmd).1 fun f v => (Given doc vmd f v ∧ Fits f v) ∨
    (f = .L ∧ (vmd.own .kw).isSome ∧ (vmd.own .L).isSome ∧ doc.Tagged .L v) where
  tags := by
    intro f v
    cases f with
    | kw => simpa using setKw doc vmd v
    | L => simpa using setL doc vmd v
  others := fun u outside => setOthers doc vmd u outside
  content := contentSet doc vmd

theorem addBecame (doc : Doc C) (vmd : Vmd) : Became doc (addTerms doc vmd).1 fun f v => (vmd.Plus f v ∧ Fits f v) ∨
    (((vmd.Own f v ∧ Fits f v) ∨ doc.Tagged f v) ∧ ¬ vmd.Minus f v) := by
  have own := (addsFieldwise fun f => (vmd.own f).getD []).all (doc,0)
  have mod := (appliesFieldwise vmd).all ((vmdMap.foldl (fun st f => ((vmd.own f).getD []).foldl (adding f) st) (doc,0)).1,0)
  refine ⟨fun f v => (mod.tags f v).trans (or_congr_right (and_congr_left' (own.tags f v))),
    fun u outside => (mod.others u outside).trans (own.others u outside),mod.content.trans own.content⟩

theorem setIdle (doc : Doc C) (vmd : Vmd) (same : (setTerms doc vmd).2 = false) : (setTerms doc vmd).1 = doc := by
  unfold setTerms at same ⊢
  dsimp only at same ⊢
  split
  · rfl
  · rename_i changes
    rw [if_neg changes] at same
    cases same

theorem addCounts (doc : Doc C) (vmd : Vmd) (none : (addTerms doc vmd).2 = 0) : (addTerms doc vmd).1 = doc := by
  have own := countsFold (fun st f => countsFold (countsAdding (C := C) f) ((vmd.own f).getD []) st) vmdMap (doc,0)
  have counts : (vmdMap.foldl (fun st f => ((vmd.own f).getD []).foldl (adding f) st) (doc,0)).2 = 0 ∧
    (applyVmdMod (vmdMap.foldl (fun st f => ((vmd.own f).getD []).foldl (adding f) st) (doc,0)).1 vmd).2 = 0 :=
      Nat.add_eq_zero_iff.mp none
  have first := unchanged own counts.1
  have second := unchanged (countsFold (countsField vmd) vmdMap (_,0)) counts.2
  exact second.trans first

theorem removeCounts (doc : Doc C) (vmd : Vmd) (none : (removeTerms doc vmd).2 = 0) : (removeTerms doc vmd).1 = doc :=
  unchanged (countsFold (fun st f => countsFold (countsRemoving f) ((vmd.own f).getD []) st) vmdMap (doc,0)) none

theorem modCounts (doc : Doc C) (vmd : Vmd) (none : (applyVmdMod doc vmd).2 = 0) : (applyVmdMod doc vmd).1 = doc :=
  unchanged (countsFold (countsField vmd) vmdMap (doc,0)) none

/- set_vmd makes the keywords and labels exactly those given, where everything given fits into a term and the
document has no label that is to go while keywords are given as well. add_vmd, remove_vmd and update_vmd
are the set operations of their lists on everything that fits. -/
theorem vmdExact (xdb : Xdb C) (docid : Nat) (vmd : Vmd) :
    (Exact xdb (setVmd xdb docid vmd) docid (fun doc f v => Given doc vmd f v) ↔ ∀ doc,xdb.get? docid = some doc →
      (∀ f v,vmd.Own f v → Fits f v) ∧
        ((vmd.own .kw).isSome → ∀ labels,vmd.own .L = some labels → ∀ v,doc.Tagged .L v → v ∈ labels)) ∧
    (Exact xdb (addVmd xdb docid vmd) docid
        (fun doc f v => vmd.Plus f v ∨ ((vmd.Own f v ∨ doc.Tagged f v) ∧ ¬ vmd.Minus f v)) ↔
      ∀ doc,xdb.get? docid = some doc → ∀ f v,(vmd.Plus f v ∨ vmd.Own f v ∧ ¬ vmd.Minus f v) → Fits f v) ∧
    Exact xdb (removeVmd xdb docid vmd) docid (fun doc f v => doc.Tagged f v ∧ ¬ vmd.Own f v) ∧
    (Exact xdb (updateVmd xdb docid vmd) docid (fun doc f v => vmd.Plus f v ∨ (doc.Tagged f v ∧ ¬ vmd.Minus f v)) ↔
      ∀ doc,xdb.get? docid = some doc → ∀ f v,vmd.Plus f v → Fits f v) := by
  have mod := appliesFieldwise (C := C) vmd
  refine ⟨?_,?_,?_,?_⟩
  · rw [setVmd,exactDoc _ _ _ _ fun doc => setIdle doc vmd]
    refine forall₂_congr fun doc _ => (became (setBecame doc vmd)).trans ?_
    have fits : ∀ f v,doc.Tagged f v → Fits f v := fun f v => doc.short _
    constructor
    · intro same
      refine ⟨fun f v own => ?_,fun kw labels given v tagged => ?_⟩
      · cases given : vmd.own f with
        | none => simp [Vmd.Own,given] at own
        | some set =>
          have want : Given doc vmd f v := by simpa [Given,Vmd.Own,given] using own
          rcases (same f v).mpr want with ⟨-,short⟩ | ⟨rfl,-,-,tagged⟩
          · exact short
          · exact fits .L v tagged
      · have want := (same .L v).mp (.inr ⟨rfl,kw,by rw [given]; rfl,tagged⟩)
        simpa [Given,given] using want
    · rintro ⟨short,fresh⟩ f v
      constructor
      · rintro (⟨given,-⟩ | ⟨rfl,kw,L,tagged⟩)
        · exact given
        · obtain ⟨labels,given⟩ := Option.isSome_iff_exists.mp L
          simpa [Given,given] using fresh kw labels given v tagged
      · intro given
        refine .inl ⟨given,?_⟩
        cases own : vmd.own f with
        | none => exact fits f v (by simpa [Given,own] using given)
        | some set => exact short f v (by simpa [Given,Vmd.Own,own] using given)
  · rw [addVmd,exactDoc _ _ _ _ fun doc same => addCounts doc vmd (by simpa using same)]
    refine forall₂_congr fun doc _ => (became (addBecame doc vmd)).trans (forall₂_congr fun f v => ?_)
    have fits : doc.Tagged f v → Fits f v := doc.short _
    grind
  · rw [removeVmd,exactDoc _ _ _ _ fun doc same => removeCounts doc vmd (by simpa using same)]
    exact fun doc _ => (removesFieldwise fun f => (vmd.own f).getD []).all (doc,0)
  · rw [updateVmd,exactDoc _ _ _ _ fun doc same => modCounts doc vmd (by simpa using same)]
    refine forall₂_congr fun doc _ => (became (mod.all (doc,0))).trans (forall₂_congr fun f v => ?_)
    have fits : doc.Tagged f v → Fits f v := doc.short _
    change ((vmd.Plus f v ∧ Fits f v ∨ doc.Tagged f v ∧ ¬ vmd.Minus f v) ↔ _) ↔ _
    grind

def inboxDoc : Doc Unit := (⟨.empty,by simp,()⟩ : Doc Unit).addBoolTerm "Linbox".toList

def archived : Vmd where
  own
    | .kw => some ["seen".toList]
    | .L => some ["archive".toList]
  plus _ := none
  minus _ := none

theorem inboxStays : ¬ Exact (Table.empty.insert 1 inboxDoc) (setVmd (Table.empty.insert 1 inboxDoc) 1 archived) 1
    fun doc f v => Given doc archived f v := by
  rintro ⟨-,is⟩
  have found : (Table.empty.insert 1 inboxDoc).get? 1 = some inboxDoc := rfl
  rw [found] at is
  obtain ⟨new,made,became⟩ := is
  have now : (setVmd (Table.empty.insert 1 inboxDoc) 1 archived).get? 1 = some (setTerms inboxDoc archived).1 := rfl
  cases Option.some.inj (made.symm.trans now)
  have label := (became.tags .L "inbox".toList).mp (by unfold Doc.Tagged; decide)
  exact absurd (show "inbox".toList ∈ ["archive".toList] from label) (by decide)

end PublicInbox.SearchIdx
