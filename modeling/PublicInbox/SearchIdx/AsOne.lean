import PublicInbox.SearchIdx.Joined

/-! Whole sequences of replacements, lookups and removals on a shard with temporary databases, and the join behind them. -/
namespace PublicInbox.SearchIdx.Splits
open Keyed
variable {D : Type}

def Joins (compact : List (Table Nat D) → Option (Table Nat D)) : Prop :=
  ∀ ts : List (Table Nat D),(ts.flatMap Table.rows).Pairwise (fun a b => a.1 < b.1) →
    ∃ t,compact ts = some t ∧ t.rows = ts.flatMap Table.rows

def Opened (s : Shard D) : List Nat → List (Op D) → Prop
  | _,[] => True
  | offs,op :: ops => (∀ docid ∈ op.sought,s.beyond docid = true → s.off docid ∈ offs) ∧
      Opened s ((op.stored.filter s.beyond).map s.off ++ offs) ops

def AsOne (compact : List (Table Nat D) → Option (Table Nat D)) (s one : Shard D) (ops : List (Op D)) : Prop :=
  List.Forall₂ Agrees (run s ops).2 (run one ops).2 ∧
    idxRelease (commitTxnLazy (run s ops).1) compact = some (run one ops).1.xdb

structure Pair (start : Shard D) (offs : List Nat) (s one : Shard D) : Prop where
  inv : Inv s
  invOne : Inv one
  plain : one.docMax = 0
  docs : docs s = docs one
  beyond : s.beyond = start.beyond
  off : s.off = start.off
  there : ∀ off,off ∈ offs ↔ (s.tmps.get? off).isSome = true

section
variable {start s one : Shard D} {offs : List Nat} {op : Op D}

theorem plainBeyond (plain : one.docMax = 0) (docid : Nat) : one.beyond docid = false := by
  rw [Shard.beyond,plain]
  rfl

theorem Pair.ready (pair : Pair start offs s one) :
    Ready s op ↔ ∀ docid ∈ op.sought,start.beyond docid = true → start.off docid ∈ offs := by
  rw [Ready,pair.beyond,pair.off]
  exact forall₃_congr fun docid _ _ => (pair.there _).symm

theorem Pair.stepOne (pair : Pair start offs s one) (op : Op D) : Agrees (step one op).2 (.ok (apply (Splits.docs one) op).2) ∧
    Steps one (step one op).1 op :=
  stepOk pair.invOne op fun docid _ beyond => absurd ((plainBeyond pair.plain docid).symm.trans beyond) Bool.false_ne_true

theorem Pair.step (pair : Pair start offs s one) (ready : Ready s op) :
    Agrees (step s op).2 (step one op).2 ∧
      Pair start ((op.stored.filter start.beyond).map start.off ++ offs) (step s op).1 (step one op).1 := by
  obtain ⟨agrees,steps⟩ := stepOk pair.inv op ready
  obtain ⟨agreesOne,stepsOne⟩ := pair.stepOne op
  rw [← pair.docs] at agreesOne
  refine ⟨agrees.trans agreesOne,steps.inv,stepsOne.inv,stepsOne.docMax.trans pair.plain,?_,?_,?_,fun off => ?_⟩
  · rw [steps.docs,stepsOne.docs,pair.docs]
  · rw [← pair.beyond]
    funext docid
    rw [Shard.beyond,Shard.beyond,steps.docMax]
  · rw [← pair.off]
    funext docid
    rw [Shard.off,Shard.off,steps.splitAt]
  · rw [steps.there,List.mem_append,pair.there off,Bool.or_eq_true,← pair.beyond,← pair.off,or_comm]
    refine or_congr_right ?_
    simp only [List.mem_map,List.mem_filter,List.any_eq_true,Bool.and_eq_true,beq_iff_eq,and_assoc]
    exact exists_congr fun docid => and_congr_right fun _ => and_congr_right fun _ => eq_comm

theorem runPair {ops : List (Op D)} (pair : Pair start offs s one) :
    (List.Forall₂ Agrees (run s ops).2 (run one ops).2 ↔ Opened start offs ops) ∧
      (Opened start offs ops → ∃ offs',Pair start offs' (run s ops).1 (run one ops).1) := by
  induction ops generalizing s one offs with
  | nil => exact ⟨iff_of_true .nil trivial,fun _ => ⟨offs,pair⟩⟩
  | cons op ops ih =>
    rw [run,run,Opened,List.forall₂_cons]
    by_cases ready : Ready s op
    · obtain ⟨agrees,next⟩ := pair.step ready
      obtain ⟨same,last⟩ := ih next
      refine ⟨?_,fun opened => last opened.2⟩
      rw [and_iff_right agrees,and_iff_right (pair.ready.mp ready)]
      exact same
    · obtain ⟨err,dies⟩ := stepDies pair.inv op ready
      have unopened := fun opened => ready (pair.ready.mpr opened)
      refine ⟨iff_of_false ?_ fun opened => unopened opened.1,fun opened => absurd opened.1 unopened⟩
      rintro ⟨agrees,-⟩
      rw [dies] at agrees
      exact nomatch agrees

end

section
variable {s : Shard D} {xdb : Table Nat D}

theorem tmpsPlaced (inv : Inv s) : Bands.Placed s.off s.tmps := fun off u found k mem => (inv.placed off u found k mem).2

theorem offMono (s : Shard D) (k l : Nat) (less : s.off k < s.off l) : k < l := Nat.lt_of_div_lt_div less

theorem lookBeyond (inv : Inv s) {k : Nat} {d : D} (found : Bands.look s.off s.tmps k = some d) : s.beyond k = true := by
  obtain ⟨u,there,is⟩ := Option.bind_eq_some_iff.mp found
  exact (inv.placed _ u there k (Table.memKeys.mpr ⟨d,is⟩)).1

theorem docsSome (inv : Inv s) {k : Nat} {d : D} :
    docs s k = some d ↔ s.xdb.get? k = some d ∨ Bands.look s.off s.tmps k = some d := by
  rw [docs]
  cases kind : s.beyond k with
  | true =>
    rw [if_pos rfl]
    refine (or_iff_right fun found => ?_).symm
    have low := inv.low k (Table.memKeys.mpr ⟨d,found⟩)
    exact Bool.false_ne_true (low.symm.trans kind)
  | false =>
    rw [if_neg Bool.false_ne_true]
    exact (or_iff_left fun found => Bool.false_ne_true (kind.symm.trans (lookBeyond inv found))).symm

theorem joinRows (inv : Inv s) : (s.xdb.rows ++ Bands.flat s.tmps).Pairwise (fun a b => a.1 < b.1) := by
  refine List.pairwise_append.mpr ⟨s.xdb.sorted,Bands.flatSorted (offMono s) (tmpsPlaced inv),fun x inX y inY => ?_⟩
  have low := inv.low x.1 (List.mem_map_of_mem inX)
  have high := lookBeyond inv ((Bands.memFlat (tmpsPlaced inv)).mp inY)
  simp only [Shard.beyond,Bool.and_eq_true,bne_iff_ne,decide_eq_true_eq,Bool.and_eq_false_imp,decide_eq_false_iff_not] at low high
  exact lt_of_le_of_lt (not_lt.mp (low high.1)) high.2

theorem joined {compact : List (Table Nat D) → Option (Table Nat D)} (joins : Joins compact) (inv : Inv s)
    (same : ∀ k,docs s k = xdb.get? k) : idxRelease (commitTxnLazy s) compact = some xdb := by
  have whole : (s.xdb :: s.tmps.rows.map Prod.snd).flatMap Table.rows = s.xdb.rows ++ Bands.flat s.tmps := by
    rw [List.flatMap_cons,List.flatMap_map,Bands.flat]
  have rows : ∀ t : Table Nat D,t.rows = s.xdb.rows ++ Bands.flat s.tmps → t = xdb := by
    intro t is
    refine Table.ext fun k => ?_
    refine Option.ext fun d => ?_
    rw [← same,← Table.memRows,is,List.mem_append,Table.memRows,Bands.memFlat (tmpsPlaced inv),docsSome inv]
  have alone : s.tmps.rows = [] → s.xdb = xdb := by
    intro none
    refine rows s.xdb ?_
    rw [Bands.flat,none,List.flatMap_nil,List.append_nil]
  rw [idxRelease,commitTxnLazy]
  simp only [List.isEmpty_nil,Bool.not_true,Bool.false_eq_true,if_false]
  split
  · rw [joinSplits]
    split
    next none => rw [alone (List.isEmpty_iff.mp none)]
    · obtain ⟨t,is,all⟩ := joins (s.xdb :: s.tmps.rows.map Prod.snd) (by rw [whole]; exact joinRows inv)
      rw [is,rows t (all.trans whole)]
  next clean =>
    refine congrArg some (alone ?_)
    refine List.eq_nil_iff_forall_not_mem.mpr fun r mem => clean ?_
    have there : (s.tmps.get? r.1).isSome = true := by rw [Table.memRows.mp mem]; rfl
    rcases inv.dirty r.1 there with dirty | opened
    · rw [dirty,Bool.true_or]
    · rw [Bool.or_eq_true]
      refine .inr ?_
      cases xdbTmp : s.xdbTmp with
      | nil => exact absurd xdbTmp opened
      | cons => rfl

end

theorem unsplit {s : Shard D} (tmps : s.tmps = .empty) (xdbTmp : s.xdbTmp = []) (low : ∀ k ∈ s.xdb.keys,s.beyond k = false) : Inv s := by
  have none (off : Nat) : s.tmps.get? off = none := by rw [tmps,Table.getEmpty]
  refine ⟨?_,low,?_,?_⟩
  · rw [xdbTmp]
    exact fun _ mem => absurd mem List.not_mem_nil
  · intro off u there
    rw [none] at there
    cases there
  · intro off there
    rw [none] at there
    cases there

theorem acquired (xdb : Xdb D) (splitAt : Option Nat) : Pair (idxAcquire xdb splitAt) [] (idxAcquire xdb splitAt) (single xdb) := by
  have low : ∀ k ∈ xdb.docs.keys,(idxAcquire xdb splitAt).beyond k = false := by
    intro k mem
    have least := xdb.bounded k mem
    rw [Shard.beyond,Bool.and_eq_false_imp]
    refine fun _ => decide_eq_false (not_lt.mpr ?_)
    change k ≤ if xdb.lastdocid = 0 then splitAt.getD shardSplitAt else xdb.lastdocid
    split <;> omega
  refine ⟨unsplit rfl rfl low,unsplit rfl rfl fun k _ => plainBeyond rfl k,rfl,funext fun k => ?_,rfl,rfl,fun off => ?_⟩
  · rw [docs,docs,plainBeyond (rfl : (single xdb).docMax = 0),if_neg Bool.false_ne_true]
    split
    next beyond =>
      cases found : (single xdb).xdb.get? k with
      | none => rfl
      | some d => exact absurd ((low k (Table.memKeys.mpr ⟨d,found⟩)).symm.trans beyond) Bool.false_ne_true
    · rfl
  · exact iff_of_false List.not_mem_nil Bool.false_ne_true

/- The splits behave as one database if and only if no document is looked for in a split that is not there. -/
theorem splitsAsOne {compact : List (Table Nat D) → Option (Table Nat D)} (joins : Joins compact) (xdb : Xdb D)
    (splitAt : Option Nat) (ops : List (Op D)) :
    AsOne compact (idxAcquire xdb splitAt) (single xdb) ops ↔ Opened (idxAcquire xdb splitAt) [] ops := by
  obtain ⟨agree,last⟩ := @runPair D _ _ _ _ ops (acquired xdb splitAt)
  constructor
  · exact fun asOne => agree.mp asOne.1
  · intro opened
    obtain ⟨offs,pair⟩ := last opened
    refine ⟨agree.mpr opened,joined joins pair.inv fun k => ?_⟩
    rw [pair.docs,docs,plainBeyond pair.plain,if_neg Bool.false_ne_true]

def noRenumber (ts : List (Table Nat D)) : Option (Table Nat D) :=
  if sorted : (ts.flatMap Table.rows).Pairwise (fun a b => a.1 < b.1) then some ⟨ts.flatMap Table.rows,sorted⟩ else none

theorem noRenumberJoins : Joins (@noRenumber D) := fun _ sorted => ⟨⟨_,sorted⟩,dif_pos sorted,rfl⟩

def newXdb : Xdb Char := ⟨.empty,0,fun _ mem => nomatch mem⟩

theorem threeSplits : AsOne noRenumber (idxAcquire newXdb (some 10)) (single newXdb)
    [.replace 25 'b',.replace 8 'a',.commit,.lookup 27,.replace 31 'c',.remove [25,9]] :=
  (splitsAsOne noRenumberJoins newXdb (some 10) _).mpr (by simp [Opened,Op.sought,Op.stored,Shard.beyond,Shard.off,idxAcquire,newXdb])

/- A document that was never indexed: a single database does not have it, the split for it cannot be opened. -/
theorem missingSplit : ¬ AsOne noRenumber (idxAcquire newXdb (some 10)) (single newXdb) [.lookup 25] := by
  rintro ⟨agree,-⟩
  cases agree with
  | cons first _ => exact nomatch first

end PublicInbox.SearchIdx.Splits
