import PublicInbox.Library.Stepwise
import PublicInbox.ExtSearchIdx.Tables

/-! Index requests over the pipe of git cat-file. A request enters the pipe as a line for its
own blob, comes back in index_oid, and goes round once for each candidate that do_step finds;
what other callbacks do meanwhile is kept on the Perl stack. -/
namespace PublicInbox.ExtSearchIdx
open Keyed Ei
variable {B M H : Type} [LinearOrder B]

structure Article (B : Type) where
  ibxId : Nat
  xnum : Nat
  oid : B
  deriving DecidableEq

def Article.req (a : Article B) : Req B := ⟨a.oid,a.ibxId,.m a.xnum⟩

def Article.row (a : Article B) (docid : Nat) : Xref3 B := ⟨docid,a.ibxId,a.xnum,a.oid⟩

def Xref3.article (r : Xref3 B) : Article B := ⟨r.ibxId,r.xnum,r.oidbin⟩

inductive Job (B M : Type) where
  | start (a : Article B)
  | compare (c : Chain B M) (cur : Nat × B)

/- What is on the stack: a cat_async that takes responses until its line is written, do_step
about to look for the next candidate, and _blob_missing in async_wait_all. -/
inductive Frame (B M : Type) where
  | pushing (j : Job B M)
  | stepping (c : Chain B M)
  | draining (c : Chain B M) (cur : Nat × B)

/- `log` has the blob and the kind of every response, `seen` the articles whose text was read. -/
structure Pipe (B M : Type) [LinearOrder B] where
  ei : Ei B M
  fifo : List (Job B M)
  frames : List (Frame B M)
  seen : List (Article B)
  log : List (B × Found)

inductive Turn (B : Type) where
  | request (a : Article B)
  | push
  | respond (found : Found)
  | doStep
  | drained

namespace Pipe
variable [DecidableEq M] [DecidableEq H] (t : Mails B M H) (boost : Boost)

def empty : Pipe B M := ⟨.empty,[],[],[],[]⟩

def respond (v : Pipe B M) (found : Found) : Pipe B M :=
  match v.fifo with
  | [] => v
  | .start a :: rest => match begin t a.req found with
    | some c => { v with fifo := rest, frames := .stepping c :: v.frames, seen := v.seen ++ [a],
                         log := v.log ++ [(a.oid,found)] }
    | none => { v with fifo := rest, log := v.log ++ [(a.oid,found)] }
  | .compare c cur :: rest =>
    let v' := { v with fifo := rest, log := v.log ++ [(cur.2,found)] }
    match found with
    | .missing => { v' with frames := .draining c cur :: v.frames }
    | _ => { v' with frames := .stepping (v.ei.ckAnswer t c cur found).2 :: v.frames }

def stepped (v : Pipe B M) (c : Chain B M) (frames : List (Frame B M)) : Pipe B M :=
  match v.ei.doStep t boost c with
  | (s,some (c',cur)) => { v with ei := s, frames := .pushing (.compare c' cur) :: frames }
  | (s,none) => { v with ei := s, frames := frames }

def busy (v : Pipe B M) : Bool :=
  match v.frames with
  | .stepping _ :: _ => true
  | _ => false

def step (v : Pipe B M) (turn : Turn B) : Pipe B M :=
  match turn with
  | .request a => if v.frames.isEmpty then { v with frames := [.pushing (.start a)] } else v
  | .push => match v.frames with
    | .pushing j :: frames => { v with fifo := v.fifo ++ [j], frames := frames }
    | _ => v
  | .respond found => if v.busy then v else v.respond t found
  | .doStep => match v.frames with
    | .stepping c :: frames => v.stepped t boost c frames
    | _ => v
  | .drained => match v.frames,v.fifo with
    | .draining c cur :: frames,[] => { v with ei := v.ei.blobMissing cur, frames := .stepping c :: frames }
    | _,_ => v

end Pipe

structure Scan (B M : Type) where
  chain : Chain B M
  cur : Option (Nat × B)
  lost : Option B

def Job.scans : Job B M → List (Scan B M)
  | .start _ => []
  | .compare c cur => [⟨c,some cur,none⟩]

def Frame.scans : Frame B M → List (Scan B M)
  | .pushing j => j.scans
  | .stepping c => [⟨c,none,none⟩]
  | .draining c cur => [⟨c,none,some cur.2⟩]

def Pipe.scans (v : Pipe B M) : List (Scan B M) := v.fifo.flatMap Job.scans ++ v.frames.flatMap Frame.scans

def Ei.links (s : Ei B M) (docid : Nat) : List M := (s.id2num.get? docid).getD []

def Ahead (links : Nat → List M) (mids : List M) (nextArg : Option (M × Nat)) (docid : Nat) : Prop :=
  (∃ m ∈ mids,m ∈ links docid) ∨ ∃ arg ∈ nextArg,arg.1 ∈ links docid ∧ arg.2 < docid

instance [DecidableEq M] (links : Nat → List M) (mids : List M) (nextArg : Option (M × Nat)) (docid : Nat) :
    Decidable (Ahead links mids nextArg docid) := inferInstanceAs (Decidable (_ ∨ _))

variable [DecidableEq M] [DecidableEq H] {t : Mails B M H} {boost : Boost} {s : Ei B M}

theorem memLinked {mid : M} {docid : Nat} : docid ∈ s.linked mid ↔ mid ∈ s.links docid := by
  unfold linked links
  rw [Table.memKeysWhere]
  cases s.id2num.get? docid with
  | none => simp
  | some ms => simp

theorem findLinked {p : Nat → Bool} {xs : List Nat} (sorted : xs.Pairwise (· < ·)) {x : Nat}
    (found : xs.find? p = some x) : ∀ d ∈ xs,p d = true → x ≤ d := by
  induction xs with
  | nil => contradiction
  | cons y ys ih =>
    obtain ⟨above,rest⟩ := List.pairwise_cons.mp sorted
    intro d mem yes
    cases head : p y with
    | true =>
      rw [List.find?_cons_of_pos head] at found
      cases found
      rcases List.mem_cons.mp mem with rfl | later
      · exact le_refl _
      · exact (above d later).le
    | false =>
      rw [List.find?_cons_of_neg (by simp [head])] at found
      rcases List.mem_cons.mp mem with rfl | later
      · rw [head] at yes
        contradiction
      · exact ih rest found d later yes

theorem nextByMidSome {mid : M} {prev : Nat} {x : Nat × B} (found : s.nextByMid mid prev = some x) :
    mid ∈ s.links x.1 ∧ prev < x.1 ∧ s.over.get? x.1 = some x.2 ∧
      ∀ d, mid ∈ s.links d → prev < d → x.1 ≤ d := by
  unfold nextByMid at found
  split at found
  · contradiction
  · rename_i num first
    obtain ⟨blob,shown,rfl⟩ := Option.map_eq_some_iff.mp found
    refine ⟨memLinked.mp (List.mem_of_find?_eq_some first),by simpa using List.find?_some first,shown,?_⟩
    intro d linked later
    exact findLinked (Table.keysWhereSorted _ _) first d (memLinked.mpr linked) (decide_eq_true later)

def Shown (s : Ei B M) : Prop := ∀ d m, m ∈ s.links d → (s.over.get? d).isSome

theorem nextByMidNone (shown : Shown s) {mid : M} {prev : Nat} (none : s.nextByMid mid prev = none)
    {d : Nat} (linked : mid ∈ s.links d) : ¬ prev < d := by
  intro later
  unfold nextByMid at none
  split at none
  · rename_i nothing
    exact List.find?_eq_none.mp nothing d (memLinked.mpr linked) (decide_eq_true later)
  · rename_i num first
    have there := shown num mid (memLinked.mp (List.mem_of_find?_eq_some first))
    rw [Option.map_eq_none_iff.mp none] at there
    contradiction

theorem seekNone (shown : Shown s) {mid : M} {prev : Nat} {ms : List M} (none : s.seek mid prev ms = none)
    {d : Nat} (positive : 0 < d) : ¬ Ahead s.links ms (some (mid,prev)) d := by
  induction ms generalizing mid prev with
  | nil =>
    rintro (⟨m,mem,-⟩ | ⟨arg,same,linked,later⟩)
    · exact absurd mem List.not_mem_nil
    · cases same
      exact nextByMidNone shown (Option.map_eq_none_iff.mp none) linked later
  | cons m ms ih =>
    unfold seek at none
    split at none
    · contradiction
    · rename_i nothing
      rintro (⟨m',mem,linked⟩ | ⟨arg,same,linked,later⟩)
      · rcases List.mem_cons.mp mem with rfl | mem
        · exact ih none (Or.inr ⟨(m',0),rfl,linked,positive⟩)
        · exact ih none (Or.inl ⟨m',mem,linked⟩)
      · cases same
        exact nextByMidNone shown nothing linked later

theorem nextByMidAhead {mid : M} {prev : Nat} {ms : List M} {x : Nat × B}
    (found : s.nextByMid mid prev = some x) {d : Nat} (ahead : Ahead s.links ms (some (mid,prev)) d) :
    d = x.1 ∨ Ahead s.links ms (some (mid,x.1)) d := by
  obtain ⟨-,-,-,first⟩ := nextByMidSome found
  rcases ahead with inside | ⟨arg,same,linked,later⟩
  · exact Or.inr (Or.inl inside)
  · cases same
    rcases (first d linked later).eq_or_lt with same | above
    · exact Or.inl same.symm
    · exact Or.inr (Or.inr ⟨_,rfl,linked,above⟩)

theorem seekSome (shown : Shown s) {mid : M} {prev : Nat} {ms : List M} {mid' : M} {ms' : List M} {x : Nat × B}
    (found : s.seek mid prev ms = some (mid',ms',x)) :
    s.over.get? x.1 = some x.2 ∧ ∀ d,0 < d → Ahead s.links ms (some (mid,prev)) d →
      d = x.1 ∨ Ahead s.links ms' (some (mid',x.1)) d := by
  induction ms generalizing mid prev with
  | nil =>
    obtain ⟨y,first,same⟩ := Option.map_eq_some_iff.mp found
    cases same
    exact ⟨(nextByMidSome first).2.2.1,fun d _ => nextByMidAhead first⟩
  | cons m ms ih =>
    unfold seek at found
    split at found
    · rename_i y first
      cases found
      exact ⟨(nextByMidSome first).2.2.1,fun d _ => nextByMidAhead first⟩
    · rename_i nothing
      obtain ⟨there,rest⟩ := ih found
      refine ⟨there,fun d positive ahead => rest d positive ?_⟩
      rcases ahead with ⟨m',mem,linked⟩ | ⟨arg,same,linked,later⟩
      · rcases List.mem_cons.mp mem with rfl | mem
        · exact Or.inr ⟨(m',0),rfl,linked,positive⟩
        · exact Or.inl ⟨m',mem,linked⟩
      · cases same
        exact absurd later (nextByMidNone shown nothing linked)

theorem candidateNone (shown : Shown s) {c : Chain B M} (none : s.candidate c = none) {d : Nat}
    (positive : 0 < d) : ¬ Ahead s.links c.mids c.nextArg d := by
  unfold candidate at none
  split at none
  · rename_i mid prev arg
    rw [arg]
    exact seekNone shown none positive
  · rename_i m ms arg mids
    rw [arg,mids]
    rintro (⟨m',mem,linked⟩ | ⟨_,nothing,-⟩)
    · refine seekNone shown none positive ?_
      rcases List.mem_cons.mp mem with rfl | mem
      · exact Or.inr ⟨(m',0),rfl,linked,positive⟩
      · exact Or.inl ⟨m',mem,linked⟩
    · contradiction
  · rename_i arg mids
    rw [arg,mids]
    rintro (⟨m,mem,-⟩ | ⟨_,nothing,-⟩)
    · exact absurd mem List.not_mem_nil
    · contradiction

theorem candidateSome (shown : Shown s) {c : Chain B M} {mid : M} {ms : List M} {x : Nat × B}
    (found : s.candidate c = some (mid,ms,x)) :
    s.over.get? x.1 = some x.2 ∧ ∀ d,0 < d → Ahead s.links c.mids c.nextArg d →
      d = x.1 ∨ Ahead s.links ms (some (mid,x.1)) d := by
  unfold candidate at found
  split at found
  · rename_i mid prev arg
    rw [arg]
    exact seekSome shown found
  · rename_i m ms arg mids
    rw [arg,mids]
    obtain ⟨there,rest⟩ := seekSome shown found
    refine ⟨there,fun d positive ahead => rest d positive ?_⟩
    rcases ahead with ⟨m',mem,linked⟩ | ⟨_,nothing,-⟩
    · rcases List.mem_cons.mp mem with rfl | mem
      · exact Or.inr ⟨(m',0),rfl,linked,positive⟩
      · exact Or.inl ⟨m',mem,linked⟩
    · contradiction
  · contradiction

def boosted (boost : Boost) (s : Ei B M) (a : Article B) (docid : Nat) : Bool :=
  match boost with
  | none => false
  | some id2pos => ((topXref3 id2pos ((s.addXref3 docid a.xnum a.oid a.ibxId).getXref3 docid)).map
      Xref3.oidbin) = some a.oid

omit [DecidableEq M] in
theorem boostedRows {u : Ei B M} {a : Article B} {docid : Nat}
    (same : ∀ r,r.docid = docid → r ≠ a.row docid → (s.xref3.Has r ↔ u.xref3.Has r)) :
    boosted boost s a docid = boosted boost u a docid := by
  have rows : (s.addXref3 docid a.xnum a.oid a.ibxId).getXref3 docid =
      (u.addXref3 docid a.xnum a.oid a.ibxId).getXref3 docid := by
    refine Rel.selectExt fun r own => ?_
    refine Rel.hasAdd.trans (Iff.trans ?_ Rel.hasAdd.symm)
    by_cases new : r = a.row docid
    · exact ⟨fun _ => Or.inl new,fun _ => Or.inl new⟩
    · exact or_congr Iff.rfl (same r (of_decide_eq_true own) new)
  unfold boosted
  rw [rows]

structure Xposted (t : Mails B M H) (boost : Boost) (a : Article B) (docid : Nat) (s u : Ei B M) : Prop where
  rows : ∀ r,u.xref3.Has r ↔ s.xref3.Has r ∨ r = a.row docid
  shown : ∀ n,u.over.get? n = if n = docid ∧ boosted boost s a n then some a.oid else s.over.get? n
  linked : ∀ n,u.id2num.get? n =
    if n = docid ∧ boosted boost s a n then some (t.midsForIndex a.oid) else s.id2num.get? n
  counter : u.eidxDocid = s.eidxDocid

variable (t boost s) in
omit [DecidableEq M] [DecidableEq H] in
theorem doXpostSpec (a : Article B) (docid : Nat) :
    Xposted t boost a docid s (doXpost t boost a.req s docid) := by
  have rows : ∀ r,(s.addXref3 docid a.xnum a.oid a.ibxId).xref3.Has r ↔ s.xref3.Has r ∨ r = a.row docid :=
    fun r => Rel.hasAdd.trans or_comm
  have plain : boosted boost s a docid = false →
      Xposted t boost a docid s (s.addXref3 docid a.xnum a.oid a.ibxId) := by
    intro not
    have never : ∀ n,¬ (n = docid ∧ boosted boost s a n = true) := by
      rintro n ⟨rfl,yes⟩
      rw [not] at yes
      contradiction
    exact ⟨rows,fun n => (if_neg (never n)).symm,fun n => (if_neg (never n)).symm,rfl⟩
  cases boost with
  | none => exact plain rfl
  | some id2pos =>
    have posted : doXpost t (some id2pos) a.req s docid =
        applyBoost t id2pos (s.addXref3 docid a.xnum a.oid a.ibxId) docid a.oid := rfl
    rw [posted]
    unfold applyBoost
    split
    · rename_i none
      exact plain (by simp [boosted,none])
    · rename_i r top
      by_cases blob : r.oidbin = a.oid
      · rw [if_pos blob]
        have yes : boosted (some id2pos) s a docid = true := by simp [boosted,top,blob]
        have when : ∀ n,(n = docid ∧ boosted (some id2pos) s a n = true) ↔ n = docid :=
          fun n => ⟨And.left,fun same => ⟨same,same ▸ yes⟩⟩
        refine ⟨rows,fun n => ?_,fun n => ?_,rfl⟩
        · simp only [when]
          exact Table.getInsert _ _ _ _
        · simp only [when]
          exact Table.getInsert _ _ _ _
      · rw [if_neg blob]
        exact plain (by simp [boosted,top,blob])

def Chain.docs (c : Chain B M) (s : Ei B M) : List Nat :=
  if c.indexed = [] then [s.eidxDocid + 1] else c.indexed

def relinked (t : Mails B M H) (boost : Boost) (s : Ei B M) (c : Chain B M) (a : Article B) (docid : Nat) : List M :=
  if docid ∈ c.docs s ∧ (c.indexed = [] ∨ boosted boost s a docid) then t.midsForIndex a.oid else s.links docid

structure Finalized (t : Mails B M H) (boost : Boost) (c : Chain B M) (a : Article B) (s u : Ei B M) : Prop where
  rows : ∀ r,u.xref3.Has r ↔ s.xref3.Has r ∨ ∃ d ∈ c.docs s,r = a.row d
  shown : ∀ n b,u.over.get? n = some b → s.over.get? n = some b ∨ (n ∈ c.docs s ∧ b = a.oid)
  linked : ∀ n,u.links n = relinked t boost s c a n
  paired : (∀ n,(s.id2num.get? n).isSome ↔ (s.over.get? n).isSome) →
    ∀ n,(u.id2num.get? n).isSome ↔ (u.over.get? n).isSome
  counter : u.eidxDocid = if c.indexed = [] then s.eidxDocid + 1 else s.eidxDocid

variable (t boost s) in
omit [DecidableEq M] [DecidableEq H] in
theorem xpostsSpec (a : Article B) (docids : List Nat) :
    let u := docids.foldl (doXpost t boost a.req) s
    (∀ r,u.xref3.Has r ↔ s.xref3.Has r ∨ ∃ d ∈ docids,r = a.row d) ∧
    (∀ n,u.over.get? n = if n ∈ docids ∧ boosted boost s a n then some a.oid else s.over.get? n) ∧
    (∀ n,u.id2num.get? n =
      if n ∈ docids ∧ boosted boost s a n then some (t.midsForIndex a.oid) else s.id2num.get? n) ∧
    u.eidxDocid = s.eidxDocid := by
  induction docids generalizing s with
  | nil => simp
  | cons docid docids ih =>
    have one := doXpostSpec t boost s a docid
    obtain ⟨rows,shown,linked,counter⟩ := ih (s := doXpost t boost a.req s docid)
    have same : ∀ n,boosted boost (doXpost t boost a.req s docid) a n = boosted boost s a n := by
      intro n
      refine boostedRows fun r own new => ?_
      rw [one.rows]
      refine or_iff_left fun other => new ?_
      rw [other] at own
      rw [other,← own]
      rfl
    have either : ∀ n,n ∈ docids ∧ boosted boost s a n = true ∨ n = docid ∧ boosted boost s a n = true ↔
        n ∈ docid :: docids ∧ boosted boost s a n = true := by
      intro n
      rw [← or_and_right,List.mem_cons,or_comm]
    refine ⟨fun r => ?_,fun n => ?_,fun n => ?_,counter.trans one.counter⟩
    · rw [List.foldl_cons,rows,one.rows,or_assoc]
      simp only [List.mem_cons,exists_eq_or_imp]
    · rw [List.foldl_cons,shown,one.shown,same,← ite_or]
      exact if_congr (either n) rfl rfl
    · rw [List.foldl_cons,linked,one.linked,same,← ite_or]
      exact if_congr (either n) rfl rfl

variable (t boost s) in
omit [DecidableEq M] [DecidableEq H] in
theorem finalizeSpec {c : Chain B M} {a : Article B} (req : c.req = a.req) :
    Finalized t boost c a s (s.doFinalize t boost c) := by
  cases indexed : c.indexed with
  | nil =>
    have docs : c.docs s = [s.eidxDocid + 1] := if_pos indexed
    have made : s.doFinalize t boost c = s.indexUnseen t a.oid a.ibxId a.xnum := by
      simp only [doFinalize,indexed,req,Article.req]
    rw [made]
    have shown : ∀ n,(s.indexUnseen t a.oid a.ibxId a.xnum).over.get? n =
        if n = s.eidxDocid + 1 then some a.oid else s.over.get? n := fun n => Table.getInsert _ _ _ _
    have linked : ∀ n,(s.indexUnseen t a.oid a.ibxId a.xnum).id2num.get? n =
        if n = s.eidxDocid + 1 then some (t.midsForIndex a.oid) else s.id2num.get? n :=
      fun n => Table.getInsert _ _ _ _
    refine ⟨fun r => ?_,fun n b found => ?_,fun n => ?_,fun pairs n => ?_,(if_pos indexed).symm⟩
    · rw [docs]
      simp only [List.mem_singleton,exists_eq_left]
      exact Rel.hasAdd.trans or_comm
    · rw [shown] at found
      split at found
      · rename_i same
        cases found
        exact Or.inr ⟨by rw [docs,same]; exact List.mem_cons_self,rfl⟩
      · exact Or.inl found
    · unfold links relinked
      rw [linked,docs]
      simp only [indexed,List.mem_singleton,true_or,and_true]
      split <;> rfl
    · rw [shown,linked]
      split
      · simp
      · exact pairs n
  | cons docid docids =>
    have docs : c.docs s = docid :: docids := by
      unfold Chain.docs
      rw [indexed]
      rfl
    have made : s.doFinalize t boost c = (docid :: docids).foldl (doXpost t boost a.req) s := by
      simp only [doFinalize,indexed,req]
    obtain ⟨rows,shown,linked,counter⟩ := xpostsSpec t boost s a (docid :: docids)
    rw [made]
    refine ⟨fun r => ?_,fun n b found => ?_,fun n => ?_,fun pairs n => ?_,?_⟩
    · rw [docs]
      exact rows r
    · rw [shown] at found
      split at found
      · rename_i both
        cases found
        exact Or.inr ⟨docs ▸ both.1,rfl⟩
      · exact Or.inl found
    · unfold links relinked
      rw [linked,docs]
      simp only [indexed,reduceCtorEq,false_or]
      split <;> rfl
    · rw [shown,linked]
      split
      · simp
      · exact pairs n
    · rw [counter,if_neg (by simp [indexed])]

variable (s) in
omit [DecidableEq M] in
theorem blobMissingSpec (x : Nat × B) :
    (∀ n b,(s.blobMissing x).over.get? n = some b → s.over.get? n = some b ∨
      ((s.over.get? n).isSome ∧ ∃ r,s.xref3.Has r ∧ r.docid = n ∧ r.oidbin = b)) ∧
    (∀ n,(s.blobMissing x).links n = s.links n ∨ ∀ r,(s.blobMissing x).xref3.Has r → r.docid ≠ n) ∧
    ((∀ n,(s.id2num.get? n).isSome ↔ (s.over.get? n).isSome) →
      ∀ n,((s.blobMissing x).id2num.get? n).isSome ↔ ((s.blobMissing x).over.get? n).isSome) ∧
    (s.blobMissing x).eidxDocid = s.eidxDocid := by
  have valid : stillValid x.2 (none : Option (Ibx B)) none = false := rfl
  have rest : s.blobMissing x = ((s.unref x.2 none none).unrefRest x.1 (some x.2) x.2).1 := by
    unfold blobMissing unrefDoc
    rw [valid]
    rfl
  have rows := unrefRestRows (s := s.unref x.2 none none) x.1 (some x.2) x.2
  rw [rest]
  unfold unrefRest at rows ⊢
  split
  · rename_i nothing
    refine ⟨fun n b found => Or.inl ?_,fun n => ?_,fun pairs n => ?_,rfl⟩
    · change (s.over.erase x.1).get? n = some b at found
      rw [Table.getErase] at found
      split at found
      · contradiction
      · exact found
    · by_cases same : n = x.1
      · refine Or.inr fun r has own => ?_
        have mem := memGetXref3.mpr ⟨has,own.trans same⟩
        change r ∈ (s.unref x.2 none none).getXref3 x.1 at mem
        rw [nothing] at mem
        exact absurd mem List.not_mem_nil
      · refine Or.inl ?_
        change ((s.id2num.erase x.1).get? n).getD [] = (s.id2num.get? n).getD []
        rw [Table.getErase,if_neg same]
    · change ((s.id2num.erase x.1).get? n).isSome ↔ ((s.over.erase x.1).get? n).isSome
      rw [Table.getErase,Table.getErase]
      split
      · rfl
      · exact pairs n
  · rename_i r rs some
    obtain ⟨has,own⟩ := memGetXref3.mp (some ▸ List.mem_cons_self : r ∈ (s.unref x.2 none none).getXref3 x.1)
    have old := (unrefHas.mp has).1
    dsimp only
    split
    · refine ⟨fun n b found => ?_,fun n => Or.inl rfl,fun pairs n => ?_,rfl⟩
      · change (s.over.update x.1 (fun _ => r.oidbin)).get? n = Option.some b at found
        rw [Table.getUpdate] at found
        split at found
        · rename_i same
          obtain ⟨b',shown,rfl⟩ := Option.map_eq_some_iff.mp found
          exact Or.inr ⟨by rw [shown]; rfl,r,old,own.trans same.symm,rfl⟩
        · exact Or.inl found
      · change (s.id2num.get? n).isSome ↔ ((s.over.update x.1 (fun _ => r.oidbin)).get? n).isSome
        rw [Table.getUpdate,pairs n]
        split
        · rw [Option.isSome_map]
        · rfl
    · exact ⟨fun n b found => Or.inl found,fun n => Or.inl rfl,fun pairs => pairs,rfl⟩

inductive Turned (t : Mails B M H) (boost : Boost) (v : Pipe B M) : Turn B → Pipe B M → Prop where
  | idle (turn : Turn B) : Turned t boost v turn v
  | request {a : Article B} (free : v.frames = []) :
      Turned t boost v (.request a) { v with frames := [.pushing (.start a)] }
  | push {j : Job B M} {frames : List (Frame B M)} (top : v.frames = .pushing j :: frames) :
      Turned t boost v .push { v with fifo := v.fifo ++ [j], frames := frames }
  | started {a : Article B} {rest : List (Job B M)} (free : v.busy = false) (first : v.fifo = .start a :: rest) :
      Turned t boost v (.respond .blob)
        { v with fifo := rest, frames := .stepping ⟨a.req,t.mids a.oid,none,[]⟩ :: v.frames,
                 seen := v.seen ++ [a], log := v.log ++ [(a.oid,.blob)] }
  | unread {a : Article B} {rest : List (Job B M)} {found : Found} (first : v.fifo = .start a :: rest) :
      Turned t boost v (.respond found) { v with fifo := rest, log := v.log ++ [(a.oid,found)] }
  | compared {c : Chain B M} {cur : Nat × B} {rest : List (Job B M)} (free : v.busy = false)
      (first : v.fifo = .compare c cur :: rest) :
      Turned t boost v (.respond .blob)
        { v with fifo := rest, log := v.log ++ [(cur.2,.blob)]
                 frames := .stepping (if t.contentHash cur.2 = t.contentHash c.req.oid
                   then { c with indexed := c.indexed ++ [cur.1] } else c) :: v.frames }
  | bad {c : Chain B M} {cur : Nat × B} {rest : List (Job B M)} (free : v.busy = false)
      (first : v.fifo = .compare c cur :: rest) :
      Turned t boost v (.respond .bad)
        { v with fifo := rest, log := v.log ++ [(cur.2,.bad)], frames := .stepping c :: v.frames }
  | missing {c : Chain B M} {cur : Nat × B} {rest : List (Job B M)} (free : v.busy = false)
      (first : v.fifo = .compare c cur :: rest) :
      Turned t boost v (.respond .missing)
        { v with fifo := rest, log := v.log ++ [(cur.2,.missing)], frames := .draining c cur :: v.frames }
  | looked {c : Chain B M} {frames : List (Frame B M)} {mid : M} {ms : List M} {x : Nat × B}
      (top : v.frames = .stepping c :: frames) (next : v.ei.candidate c = some (mid,ms,x)) :
      Turned t boost v .doStep
        { v with frames := .pushing (.compare { c with mids := ms, nextArg := some (mid,x.1) } x) :: frames }
  | finished {c : Chain B M} {frames : List (Frame B M)} (top : v.frames = .stepping c :: frames)
      (next : v.ei.candidate c = none) :
      Turned t boost v .doStep { v with ei := v.ei.doFinalize t boost c, frames := frames }
  | drained {c : Chain B M} {cur : Nat × B} {frames : List (Frame B M)}
      (top : v.frames = .draining c cur :: frames) (dry : v.fifo = []) :
      Turned t boost v .drained { v with ei := v.ei.blobMissing cur, frames := .stepping c :: frames }

variable (t boost) in
theorem turned (v : Pipe B M) (turn : Turn B) : Turned t boost v turn (v.step t boost turn) := by
  cases turn with
  | request a =>
    simp only [Pipe.step]
    split
    · rename_i free
      exact .request (List.isEmpty_iff.mp free)
    · exact .idle _
  | push =>
    simp only [Pipe.step]
    split
    · rename_i j frames top
      exact .push top
    · exact .idle _
  | respond found =>
    simp only [Pipe.step]
    split
    · exact .idle _
    · rename_i free
      have free : v.busy = false := by simpa using free
      unfold Pipe.respond
      split
      · exact .idle _
      · rename_i a rest first
        cases found with
        | blob => exact .started free first
        | bad => exact .unread first
        | missing => exact .unread first
      · rename_i c cur rest first
        cases found with
        | blob =>
          have read : Turned t boost v _ _ := Turned.compared free first
          simp only [ckAnswer]
          split
          · rename_i same
            rwa [if_pos same] at read
          · rename_i other
            rwa [if_neg other] at read
        | bad => exact .bad free first
        | missing => exact .missing free first
  | doStep =>
    simp only [Pipe.step]
    split
    · rename_i c frames top
      unfold Pipe.stepped doStep
      cases next : v.ei.candidate c with
      | none => exact .finished top next
      | some x => exact .looked top next
    · exact .idle _
  | drained =>
    simp only [Pipe.step]
    split
    · rename_i c cur frames top dry
      exact .drained top dry
    · exact .idle _

section
omit [DecidableEq M]

theorem memScans {v : Pipe B M} {sc : Scan B M} :
    sc ∈ v.scans ↔ (∃ j ∈ v.fifo,sc ∈ j.scans) ∨ ∃ f ∈ v.frames,sc ∈ f.scans := by
  unfold Pipe.scans
  rw [List.mem_append,List.mem_flatMap,List.mem_flatMap]

theorem scansFrom {v v' : Pipe B M} (made : List (Frame B M)) (fifo : ∀ j ∈ v'.fifo,j ∈ v.fifo)
    (frames : ∀ f ∈ v'.frames,f ∈ v.frames ∨ f ∈ made) {sc : Scan B M} (mem : sc ∈ v'.scans) :
    sc ∈ v.scans ∨ ∃ f ∈ made,sc ∈ f.scans := by
  rw [memScans] at mem ⊢
  rcases mem with ⟨j,inside,own⟩ | ⟨f,inside,own⟩
  · exact Or.inl (Or.inl ⟨j,fifo j inside,own⟩)
  · rcases frames f inside with old | new
    · exact Or.inl (Or.inr ⟨f,old,own⟩)
    · exact Or.inr ⟨f,new,own⟩

theorem popScans {v : Pipe B M} {j : Job B M} {rest : List (Job B M)} (first : v.fifo = j :: rest)
    {f : Frame B M} {seen : List (Article B)} {log : List (B × Found)} {sc : Scan B M}
    (mem : sc ∈ (⟨v.ei,rest,f :: v.frames,seen,log⟩ : Pipe B M).scans) : sc ∈ v.scans ∨ sc ∈ f.scans := by
  refine (scansFrom (v := v) [f] (fun k later => ?_) (fun g inside => ?_) mem).imp id ?_
  · rw [first]
    exact List.mem_cons_of_mem _ later
  · rcases List.mem_cons.mp inside with rfl | old
    · exact Or.inr List.mem_cons_self
    · exact Or.inl old
  · rintro ⟨g,mem,own⟩
    rwa [List.mem_singleton.mp mem] at own

theorem firstScan {v : Pipe B M} {c : Chain B M} {cur : Nat × B} {rest : List (Job B M)}
    (first : v.fifo = .compare c cur :: rest) : ⟨c,some cur,none⟩ ∈ v.scans :=
  memScans.mpr (Or.inl ⟨_,by rw [first]; exact List.mem_cons_self,List.mem_cons_self⟩)

theorem topScan {v : Pipe B M} {f : Frame B M} {frames : List (Frame B M)} (top : v.frames = f :: frames)
    {sc : Scan B M} (own : sc ∈ f.scans) : sc ∈ v.scans :=
  memScans.mpr (Or.inr ⟨f,by rw [top]; exact List.mem_cons_self,own⟩)

theorem topScans {v : Pipe B M} {f g : Frame B M} {frames : List (Frame B M)} (top : v.frames = f :: frames)
    {ei : Ei B M} {sc : Scan B M} (mem : sc ∈ ({ v with ei := ei, frames := g :: frames } : Pipe B M).scans) :
    sc ∈ v.scans ∨ sc ∈ g.scans := by
  refine (scansFrom (v := v) [g] ?_ ?_ mem).imp id ?_
  · exact fun k later => later
  · intro h inside
    rcases List.mem_cons.mp inside with rfl | old
    · exact Or.inr List.mem_cons_self
    · exact Or.inl (top ▸ List.mem_cons_of_mem _ old)
  · rintro ⟨h,mem,own⟩
    rwa [List.mem_singleton.mp mem] at own

theorem restScans {v : Pipe B M} {f : Frame B M} {frames : List (Frame B M)} (top : v.frames = f :: frames)
    {ei : Ei B M} {sc : Scan B M} (mem : sc ∈ ({ v with ei := ei, frames := frames } : Pipe B M).scans) :
    sc ∈ v.scans := by
  refine (scansFrom (v := v) [] ?_ ?_ mem).resolve_right (by simp)
  · exact fun k later => later
  · exact fun h inside => Or.inl (top ▸ List.mem_cons_of_mem _ inside)

theorem pushScans {v : Pipe B M} {j : Job B M} {frames : List (Frame B M)}
    (top : v.frames = .pushing j :: frames) {sc : Scan B M} :
    sc ∈ ({ v with fifo := v.fifo ++ [j], frames := frames } : Pipe B M).scans ↔ sc ∈ v.scans := by
  unfold Pipe.scans
  rw [top]
  simp only [List.flatMap_append,List.flatMap_cons,List.flatMap_nil,List.append_nil,Frame.scans,List.append_assoc]

end

/- `kind` is the content hash of each document: that of all its blobs, and of every request that
matched it. -/
structure Sorted (t : Mails B M H) (kind : Nat → H) (s : Ei B M) : Prop where
  rows : ∀ r,s.xref3.Has r → t.contentHash r.oidbin = kind r.docid ∧ 0 < r.docid ∧ r.docid ≤ s.eidxDocid
  shown : ∀ n b,s.over.get? n = some b → t.contentHash b = kind n ∧ 0 < n ∧ n ≤ s.eidxDocid
  paired : ∀ n,(s.id2num.get? n).isSome ↔ (s.over.get? n).isSome

structure Matched (t : Mails B M H) (kind : Nat → H) (top : Nat) (sc : Scan B M) : Prop where
  article : ∃ a : Article B,sc.chain.req = a.req
  indexed : ∀ d ∈ sc.chain.indexed,kind d = t.contentHash sc.chain.req.oid ∧ 0 < d ∧ d ≤ top
  cur : ∀ x ∈ sc.cur,t.contentHash x.2 = kind x.1 ∧ 0 < x.1 ∧ x.1 ≤ top
  nextArg : ∀ x ∈ sc.chain.nextArg,x.2 ≤ top

structure Sound (t : Mails B M H) (kind : Nat → H) (v : Pipe B M) : Prop where
  sorted : Sorted t kind v.ei
  matched : ∀ sc ∈ v.scans,Matched t kind v.ei.eidxDocid sc

omit [DecidableEq M] [DecidableEq H] in
theorem Sorted.linked {kind : Nat → H} (sorted : Sorted t kind s) : Shown s := by
  intro d m linked
  refine (sorted.paired d).mp ?_
  unfold links at linked
  cases none : s.id2num.get? d with
  | none =>
    rw [none] at linked
    exact absurd linked List.not_mem_nil
  | some ms => rfl

omit [LinearOrder B] [DecidableEq M] [DecidableEq H] in
theorem Matched.later {kind kind' : Nat → H} {top top' : Nat} (le : top ≤ top')
    (same : ∀ n,n ≤ top → kind' n = kind n) {sc : Scan B M} (matched : Matched t kind top sc) :
    Matched t kind' top' sc := by
  refine ⟨matched.article,fun d mem => ?_,fun x mem => ?_,fun x mem => (matched.nextArg x mem).trans le⟩
  · obtain ⟨hash,positive,bound⟩ := matched.indexed d mem
    exact ⟨(same d bound).trans hash,positive,bound.trans le⟩
  · obtain ⟨hash,positive,bound⟩ := matched.cur x mem
    exact ⟨hash.trans (same x.1 bound).symm,positive,bound.trans le⟩

def kinds (t : Mails B M H) (kind : Nat → H) (s : Ei B M) (c : Chain B M) : Nat → H :=
  if c.indexed = [] then Function.update kind (s.eidxDocid + 1) (t.contentHash c.req.oid) else kind

section
omit [DecidableEq M] [DecidableEq H]

theorem kindsOld {kind : Nat → H} {c : Chain B M} {n : Nat} (old : n ≤ s.eidxDocid) :
    kinds t kind s c n = kind n := by
  unfold kinds
  split
  · exact Function.update_of_ne (by omega) _ _
  · rfl

theorem docsKind {kind : Nat → H} {c : Chain B M}
    (indexed : ∀ d ∈ c.indexed,kind d = t.contentHash c.req.oid ∧ 0 < d ∧ d ≤ s.eidxDocid) :
    ∀ d ∈ c.docs s,kinds t kind s c d = t.contentHash c.req.oid ∧ 0 < d ∧
      d ≤ if c.indexed = [] then s.eidxDocid + 1 else s.eidxDocid := by
  intro d mem
  unfold Chain.docs at mem
  unfold kinds
  split at mem
  · rename_i none
    rw [List.mem_singleton.mp mem,if_pos none,if_pos none]
    exact ⟨Function.update_self _ _ _,Nat.succ_pos _,le_refl _⟩
  · rename_i some
    rw [if_neg some,if_neg some]
    exact indexed d mem

theorem finalizeSorted {kind : Nat → H} (sorted : Sorted t kind s) {c : Chain B M} {a : Article B}
    (req : c.req = a.req)
    (indexed : ∀ d ∈ c.indexed,kind d = t.contentHash c.req.oid ∧ 0 < d ∧ d ≤ s.eidxDocid) :
    Sorted t (kinds t kind s c) (s.doFinalize t boost c) := by
  have spec := finalizeSpec t boost s req
  have docs := docsKind indexed
  have oid : c.req.oid = a.oid := by rw [req]; rfl
  have grows : s.eidxDocid ≤ if c.indexed = [] then s.eidxDocid + 1 else s.eidxDocid := by
    split <;> omega
  refine ⟨fun r has => ?_,fun n b found => ?_,spec.paired sorted.paired⟩
  · rw [spec.counter]
    rcases (spec.rows r).mp has with old | ⟨d,mem,rfl⟩
    · obtain ⟨hash,positive,bound⟩ := sorted.rows r old
      exact ⟨hash.trans (kindsOld bound).symm,positive,bound.trans grows⟩
    · obtain ⟨hash,positive,bound⟩ := docs d mem
      exact ⟨(congrArg t.contentHash oid).symm.trans hash.symm,positive,bound⟩
  · rw [spec.counter]
    rcases spec.shown n b found with old | ⟨mem,rfl⟩
    · obtain ⟨hash,positive,bound⟩ := sorted.shown n b old
      exact ⟨hash.trans (kindsOld bound).symm,positive,bound.trans grows⟩
    · obtain ⟨hash,positive,bound⟩ := docs n mem
      exact ⟨(congrArg t.contentHash oid).symm.trans hash.symm,positive,bound⟩

theorem blobMissingSorted {kind : Nat → H} (sorted : Sorted t kind s) (x : Nat × B) :
    Sorted t kind (s.blobMissing x) := by
  obtain ⟨shown,-,paired,counter⟩ := blobMissingSpec s x
  refine ⟨fun r has => ?_,fun n b found => ?_,paired sorted.paired⟩
  · rw [counter]
    exact sorted.rows r (blobMissingHas.mp has).1
  · rw [counter]
    rcases shown n b found with old | ⟨-,r,has,rfl,rfl⟩
    · exact sorted.shown n b old
    · exact sorted.rows r has

end

theorem soundTurn {kind : Nat → H} {v v' : Pipe B M} {turn : Turn B} (sound : Sound t kind v)
    (turned : Turned t boost v turn v') :
    ∃ kind',Sound t kind' v' ∧ ∀ n ≤ v.ei.eidxDocid,kind' n = kind n := by
  obtain ⟨sorted,matched⟩ := sound
  have still : ∀ {w : Pipe B M},w.ei = v.ei →
      (∀ sc ∈ w.scans,sc ∈ v.scans ∨ Matched t kind v.ei.eidxDocid sc) →
      ∃ kind',Sound t kind' w ∧ ∀ n ≤ v.ei.eidxDocid,kind' n = kind n := by
    intro w same scans
    refine ⟨kind,⟨same ▸ sorted,fun sc mem => ?_⟩,fun _ _ => rfl⟩
    rw [same]
    rcases scans sc mem with old | new
    · exact matched sc old
    · exact new
  cases turned with
  | idle => exact still rfl fun sc mem => Or.inl mem
  | request free =>
    refine still rfl fun sc mem => Or.inl ?_
    rw [memScans] at mem ⊢
    rcases mem with inside | ⟨f,mem,own⟩
    · exact Or.inl inside
    · rw [List.mem_singleton.mp mem] at own
      exact absurd own List.not_mem_nil
  | push top => exact still rfl fun sc mem => Or.inl ((pushScans top).mp mem)
  | started free first =>
    rename_i a rest
    refine still rfl fun sc mem => (popScans first mem).imp id fun own => ?_
    rw [List.mem_singleton.mp own]
    exact ⟨⟨a,rfl⟩,fun d mem => absurd mem List.not_mem_nil,fun x mem => (by cases mem),fun x mem => (by cases mem)⟩
  | unread first =>
    refine still rfl fun sc mem => Or.inl ?_
    refine (scansFrom (v := v) [] ?_ ?_ mem).resolve_right (by simp)
    · intro k later
      rw [first]
      exact List.mem_cons_of_mem _ later
    · exact fun g inside => Or.inl inside
  | compared free first =>
    rename_i c cur rest
    refine still rfl fun sc mem => (popScans first mem).imp id fun own => ?_
    rw [List.mem_singleton.mp own]
    have old := matched _ (firstScan first)
    refine ⟨?_,?_,fun x mem => (by cases mem),?_⟩
    · split <;> exact old.article
    · dsimp only
      split
      · rename_i same
        intro d mem
        rcases List.mem_append.mp mem with inside | last
        · exact old.indexed d inside
        · rw [List.mem_singleton.mp last]
          obtain ⟨hash,bounds⟩ := old.cur cur rfl
          exact ⟨hash.symm.trans same,bounds⟩
      · exact old.indexed
    · split <;> exact old.nextArg
  | bad free first =>
    refine still rfl fun sc mem => (popScans first mem).imp id fun own => ?_
    rw [List.mem_singleton.mp own]
    have old := matched _ (firstScan first)
    exact ⟨old.article,old.indexed,fun x mem => (by cases mem),old.nextArg⟩
  | missing free first =>
    refine still rfl fun sc mem => (popScans first mem).imp id fun own => ?_
    rw [List.mem_singleton.mp own]
    have old := matched _ (firstScan first)
    exact ⟨old.article,old.indexed,fun x mem => (by cases mem),old.nextArg⟩
  | looked top next =>
    rename_i c frames mid ms x
    refine still rfl fun sc mem => (topScans top mem).imp id fun own => ?_
    rw [List.mem_singleton.mp own]
    have old := matched _ (topScan top List.mem_cons_self)
    have found := sorted.shown _ _ (candidateSome sorted.linked next).1
    refine ⟨old.article,old.indexed,fun y mem => ?_,fun y mem => ?_⟩
    · cases mem
      exact found
    · cases mem
      exact found.2.2
  | finished top next =>
    rename_i c frames
    have own := matched _ (topScan top List.mem_cons_self)
    obtain ⟨a,req⟩ := own.article
    refine ⟨kinds t kind v.ei c,⟨finalizeSorted sorted req own.indexed,fun sc mem => ?_⟩,fun n => kindsOld⟩
    have grows : v.ei.eidxDocid ≤ (v.ei.doFinalize t boost c).eidxDocid := by
      rw [(finalizeSpec t boost v.ei req).counter]
      split <;> omega
    exact (matched sc (restScans top mem)).later grows fun n => kindsOld
  | drained top dry =>
    rename_i c cur frames
    refine ⟨kind,⟨blobMissingSorted sorted cur,fun sc mem => ?_⟩,fun _ _ => rfl⟩
    have counter := (blobMissingSpec v.ei cur).2.2.2
    change Matched t kind (v.ei.blobMissing cur).eidxDocid sc
    rw [counter]
    rcases topScans top mem with old | new
    · exact matched sc old
    · rw [List.mem_singleton.mp new]
      have old := matched _ (topScan top List.mem_cons_self)
      exact ⟨old.article,old.indexed,fun x mem => (by cases mem),old.nextArg⟩

end PublicInbox.ExtSearchIdx
