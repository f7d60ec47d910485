import PublicInbox.Library.Stepwise
import PublicInbox.V2Writable

/-! What the parts of V2Writable do to msgmap and over, as one statement each, and the
meaning of a commit: a message is delivered under its first free Message-ID, a removal
forgets every article of its blob. -/
namespace PublicInbox.V2Writable
open Keyed

variable {E M H R : Type}

theorem autoSame {α : Type} {x y : Auto α} (rows : ∀ k, x.rows.get? k = y.rows.get? k)
    (seq : x.seq = y.seq) : x = y := by
  have same := Table.ext rows
  cases x
  cases y
  cases same
  cases seq
  rfl

theorem indexSame {s u : Index E M} (mm : s.mm = u.mm) (ov : s.over = u.over) : s = u := by
  cases s
  cases u
  cases mm
  cases ov
  rfl

def deleteKeys (mm : Auto M) (nums : List Int) : Auto M := nums.foldl Auto.deleteKey mm

theorem deleteKeysSeq (mm : Auto M) (nums : List Int) : (deleteKeys mm nums).seq = mm.seq := by
  unfold deleteKeys
  induction nums generalizing mm with
  | nil => rfl
  | cons n ns ih => exact ih (mm.deleteKey n)

theorem deleteKeyGet (mm : Auto M) (n k : Int) :
    (mm.deleteKey n).rows.get? k = if k = n then none else mm.rows.get? k := by
  unfold Auto.deleteKey Auto.restrict
  simp only [Table.getFilter]
  by_cases same : k = n
  · cases found : mm.rows.get? k <;> simp [same,Option.filter]
  · cases found : mm.rows.get? k <;> simp [same,Option.filter]

theorem deleteKeysGet (mm : Auto M) (nums : List Int) (k : Int) :
    (deleteKeys mm nums).rows.get? k = if k ∈ nums then none else mm.rows.get? k := by
  induction nums generalizing mm with
  | nil => simp [deleteKeys]
  | cons n ns ih =>
    have rest := ih (mm.deleteKey n)
    unfold deleteKeys at rest ⊢
    rw [List.foldl_cons,rest,deleteKeyGet]
    by_cases inside : k ∈ ns
    · simp [inside]
    · by_cases same : k = n
      · simp [same]
      · simp [inside,same]

section numbering
variable [DecidableEq M]

theorem midInsertSome {mm mm' : Auto M} {mid : M} {num : Int}
    (done : midInsert mm mid = some (mm',num)) :
    mm.keyOf mid = none ∧ num = mm.seq + 1 ∧ mm'.seq = mm.seq + 1 ∧
      mm'.rows = mm.rows.insert num mid := by
  unfold midInsert at done
  split at done
  · contradiction
  · rename_i fresh
    cases done
    exact ⟨fresh,rfl,max_eq_right (by omega),rfl⟩

theorem insertFirstSome {mm mm' : Auto M} {mids : List M} {num : Int} {mid : M}
    (done : insertFirst mm mids = some (mm',num,mid)) :
    mid ∈ mids ∧ midInsert mm mid = some (mm',num) := by
  induction mids with
  | nil => contradiction
  | cons x xs ih =>
    unfold insertFirst at done
    split at done
    · rename_i inserted
      cases done
      exact ⟨List.mem_cons_self,inserted⟩
    · obtain ⟨mem,inserted⟩ := ih done
      exact ⟨List.mem_cons_of_mem _ mem,inserted⟩

theorem insertFirstNone {mm : Auto M} {mids : List M} (failed : insertFirst mm mids = none) :
    ∀ mid ∈ mids, midInsert mm mid = none := by
  induction mids with
  | nil => simp
  | cons x xs ih =>
    unfold insertFirst at failed
    split at failed
    · contradiction
    · rename_i first
      intro mid mem
      rcases List.mem_cons.mp mem with rfl | inside
      · exact first
      · exact ih failed mid inside

end numbering

variable [DecidableEq E] [DecidableEq M] (t : Texts E M H R)

def Live (ov : Table Int (Smsg E M)) (oid : E) : Prop := ∃ n x, ov.get? n = some x ∧ x.blob = oid

def deliver (s : Index E M) (oid : E) : Index E M :=
  match t.mids oid with
  | [] => s
  | mid :: rest => match insertFirst s.mm (mid :: rest.reverse) with
    | some (mm',num,mid0) => ⟨mm',doIdx s.over num ⟨oid,mid0⟩⟩
    | none => s

def dropRows (s : Index E M) (p : Smsg E M → Bool) : Index E M :=
  ⟨s.mm.restrict (fun n _ => ! (s.over.get? n).any p),s.over.filter (fun _ x => ! p x)⟩

def forget (s : Index E M) (oid : E) : Index E M := dropRows s (fun x => x.blob = oid)

def applyCommit (s : Index E M) (c : Rec E) : Index E M :=
  match c.file with
  | .m => deliver t s c.blob
  | .d => forget s c.blob

omit [DecidableEq E] in
theorem memNextByMid {ov : Table Int (Smsg E M)} {mid : M} {r : Int × Smsg E M} :
    r ∈ nextByMid t ov mid ↔ ov.get? r.1 = some r.2 ∧ mid ∈ t.midsForIndex r.2.blob := by
  unfold nextByMid
  rw [List.mem_filter,decide_eq_true_eq]
  exact Iff.and Table.memRows Iff.rfl

section
omit [DecidableEq E] [DecidableEq M]

theorem dropRowsOver (s : Index E M) (p : Smsg E M → Bool) (n : Int) (x : Smsg E M) :
    (dropRows s p).over.get? n = some x ↔ s.over.get? n = some x ∧ p x = false := by
  simp only [dropRows,Table.getFilter,Option.filter_eq_some_iff,Bool.not_eq_true']

theorem dropRowsMm (s : Index E M) (p : Smsg E M → Bool) (n : Int) (mid : M) :
    (dropRows s p).mm.rows.get? n = some mid ↔
      s.mm.rows.get? n = some mid ∧ ∀ x, s.over.get? n = some x → p x = false := by
  unfold dropRows
  rw [Auto.restrictFound,Bool.not_eq_true']
  refine and_congr_right (fun _ => ?_)
  cases found : s.over.get? n with
  | none => simp
  | some y => simp

theorem dropRowsNone {s : Index E M} {p : Smsg E M → Bool}
    (absent : ∀ n x, s.over.get? n = some x → p x = false) : dropRows s p = s := by
  refine indexSame (autoSame ?_ rfl) (Table.ext ?_)
  · intro k
    refine Option.ext (fun mid => ?_)
    rw [dropRowsMm]
    exact ⟨And.left,fun found => ⟨found,absent k⟩⟩
  · intro k
    refine Option.ext (fun x => ?_)
    rw [dropRowsOver]
    exact ⟨And.left,fun found => ⟨found,absent k x found⟩⟩

theorem dropRowsCongr {s : Index E M} {p q : Smsg E M → Bool}
    (same : ∀ n x, s.over.get? n = some x → p x = q x) : dropRows s p = dropRows s q := by
  refine indexSame (autoSame ?_ rfl) (Table.ext ?_)
  · intro k
    refine Option.ext (fun mid => ?_)
    rw [dropRowsMm,dropRowsMm]
    exact and_congr_right (fun _ => forall₂_congr (fun x row => by rw [same k x row]))
  · intro k
    refine Option.ext (fun x => ?_)
    rw [dropRowsOver,dropRowsOver]
    exact and_congr_right (fun row => by rw [same k x row])

theorem dropRowsTwice (s : Index E M) (p q : Smsg E M → Bool) :
    dropRows (dropRows s p) q = dropRows s (fun x => p x || q x) := by
  refine indexSame (autoSame ?_ rfl) (Table.ext ?_)
  · intro k
    refine Option.ext (fun mid => ?_)
    simp only [dropRowsMm,dropRowsOver,Bool.or_eq_false_iff]
    constructor
    · rintro ⟨⟨found,first⟩,second⟩
      exact ⟨found,fun x here => ⟨first x here,second x ⟨here,first x here⟩⟩⟩
    · rintro ⟨found,both⟩
      exact ⟨⟨found,fun x here => (both x here).1⟩,fun x here => (both x here.1).2⟩
  · intro k
    refine Option.ext (fun x => ?_)
    simp only [dropRowsOver,Bool.or_eq_false_iff,and_assoc]

end

section
omit [DecidableEq M]

theorem forgetOver (s : Index E M) (oid : E) (n : Int) (x : Smsg E M) :
    (forget s oid).over.get? n = some x ↔ s.over.get? n = some x ∧ x.blob ≠ oid := by
  rw [forget,dropRowsOver,decide_eq_false_iff_not]

theorem forgetMm (s : Index E M) (oid : E) (n : Int) (mid : M) :
    (forget s oid).mm.rows.get? n = some mid ↔
      s.mm.rows.get? n = some mid ∧ ¬ ∃ x, s.over.get? n = some x ∧ x.blob = oid := by
  rw [forget,dropRowsMm]
  simp only [decide_eq_false_iff_not,not_exists,not_and]

theorem forgetAbsent {s : Index E M} {oid : E} (absent : ¬ Live s.over oid) : forget s oid = s :=
  dropRowsNone (fun n x found => decide_eq_false (fun same => absent ⟨n,x,found,same⟩))

theorem forgetNotLive (s : Index E M) (oid : E) : ¬ Live (forget s oid).over oid := by
  rintro ⟨n,x,found,same⟩
  exact ((forgetOver s oid n x).mp found).2 same

end

def numsOf (ov : Table Int (Smsg E M)) (oid : E) : List Int := ov.keysWhere (fun _ x => x.blob = oid)

omit [DecidableEq M] in
theorem memNumsOf {ov : Table Int (Smsg E M)} {oid : E} {n : Int} :
    n ∈ numsOf ov oid ↔ ∃ x, ov.get? n = some x ∧ x.blob = oid := by
  simp only [numsOf,Table.memKeysWhere,decide_eq_true_eq]

theorem goneNums (ov : Table Int (Smsg E M)) {oid : E} {mid : M} (own : mid ∈ t.midsForIndex oid) :
    ((nextByMid t ov mid).filter (fun r => r.2.blob = oid)).map Prod.fst = numsOf ov oid := by
  unfold nextByMid numsOf Table.keysWhere Table.keys Table.filter
  rw [List.filter_filter]
  refine congrArg (List.map Prod.fst) (List.filter_congr ?_)
  intro r _
  by_cases same : r.2.blob = oid
  · simp [same,own]
  · simp [same]

theorem removeOidOwn (s : Index E M) {oid : E} {mid : M} (own : mid ∈ t.midsForIndex oid) :
    removeOid t s.over oid mid = (forget s oid).over := by
  refine Table.ext (fun k => Option.ext (fun x => ?_))
  unfold removeOid
  rw [forgetOver]
  simp only [Table.getFilter,Option.filter_eq_some_iff,decide_eq_true_eq]
  refine and_congr_right (fun _ => not_congr ?_)
  exact ⟨And.left,fun same => ⟨same,same ▸ own⟩⟩

omit [DecidableEq M] in
theorem numsOfNil {ov : Table Int (Smsg E M)} {oid : E} : numsOf ov oid = [] ↔ ¬ Live ov oid := by
  constructor
  · rintro none ⟨n,found⟩
    have mem := memNumsOf.mpr found
    rw [none] at mem
    contradiction
  · intro absent
    refine List.eq_nil_iff_forall_not_mem.mpr (fun n mem => absent ⟨n,memNumsOf.mp mem⟩)

def remembered (inUnindex : Bool) (s : Sync E M) (oid : E) : E → List (Int × Option M) :=
  if inUnindex
    then Function.update s.unindexed oid
      (s.unindexed oid ++ (numsOf s.over oid).map (fun n => (n,s.mm.rows.get? n)))
    else s.unindexed

omit [DecidableEq M] in
theorem unindexNums (u : Bool) (oid : E) (s : Sync E M) (nums : List Int) (distinct : nums.Nodup) :
    nums.foldl (unindexNum u oid) s = { s with
      mm := deleteKeys s.mm nums
      unindexed := if u
        then Function.update s.unindexed oid
          (s.unindexed oid ++ nums.map (fun n => (n,s.mm.rows.get? n)))
        else s.unindexed } := by
  induction nums generalizing s with
  | nil => cases u <;> simp [deleteKeys]
  | cons n ns ih =>
    obtain ⟨fresh,rest⟩ := List.nodup_cons.mp distinct
    rw [List.foldl_cons,ih _ rest]
    cases u with
    | false => rfl
    | true =>
      have later : ns.map (fun k => (k,(s.mm.deleteKey n).rows.get? k)) =
          ns.map (fun k => (k,s.mm.rows.get? k)) := by
        refine List.map_congr_left (fun k mem => ?_)
        have other : k ≠ n := fun same => fresh (same ▸ mem)
        rw [deleteKeyGet,if_neg other]
      simp only [unindexNum,if_true,Function.update_self,Function.update_idem,later,deleteKeys,
        List.foldl_cons,List.map_cons,List.append_assoc,List.singleton_append]

omit [DecidableEq M] in
theorem deleteNumsOf (s : Index E M) (oid : E) :
    deleteKeys s.mm (numsOf s.over oid) = (forget s oid).mm := by
  refine autoSame ?_ (deleteKeysSeq _ _)
  intro k
  refine Option.ext (fun mid => ?_)
  rw [deleteKeysGet,forgetMm,← memNumsOf]
  by_cases mem : k ∈ numsOf s.over oid
  · simp [mem]
  · simp [mem]

theorem unindexMidOwn (u : Bool) (s : Sync E M) {oid : E} {mid : M} (own : mid ∈ t.midsForIndex oid) :
    unindexMid t u oid s mid = ⟨forget s.toIndex oid,s.mmTmp,remembered u s oid⟩ := by
  have nums := goneNums t s.over own
  unfold unindexMid
  split
  · rename_i none
    rw [none] at nums
    have absent : ¬ Live s.over oid := by
      rintro ⟨n,found⟩
      have mem := memNumsOf.mpr found
      rw [← nums] at mem
      contradiction
    have same : remembered u s oid = s.unindexed := by
      unfold remembered
      rw [← nums]
      cases u <;> simp
    rw [forgetAbsent absent,same]
  · have distinct : (numsOf s.over oid).Nodup := Table.keysNodup _
    rw [nums,unindexNums u oid s _ distinct]
    dsimp only
    rw [removeOidOwn t s.toIndex own,deleteNumsOf s.toIndex]
    rfl

theorem unindexMidAbsent (u : Bool) {s : Sync E M} {oid : E} (absent : ¬ Live s.over oid) (mid : M) :
    unindexMid t u oid s mid = s := by
  unfold unindexMid
  split
  · rfl
  · rename_i gone some
    cases shape : (nextByMid t s.over mid).filter (fun r => r.2.blob = oid) with
    | nil => exact absurd shape some
    | cons r rs =>
      have mem : r ∈ (nextByMid t s.over mid).filter (fun r => r.2.blob = oid) :=
        shape ▸ List.mem_cons_self
      obtain ⟨row,same⟩ := List.mem_filter.mp mem
      exact absurd ⟨r.1,r.2,((memNextByMid t).mp row).1,of_decide_eq_true same⟩ absent

theorem unindexOidSpec (u : Bool) (s : Sync E M) {oid : E} (own : t.mids oid ≠ []) :
    unindexOid t u s oid = ⟨forget s.toIndex oid,s.mmTmp,remembered u s oid⟩ := by
  have held : oid ≠ t.purged := fun same => own (same ▸ t.midsPurged)
  unfold unindexOid
  rw [if_neg held]
  cases shape : t.mids oid with
  | nil => exact absurd shape own
  | cons mid rest =>
    have indexed := t.midsIndexed oid mid (shape ▸ List.mem_cons_self)
    rw [List.foldl_cons,unindexMidOwn t u s indexed]
    exact Stepwise.stays (fun x _ => unindexMidAbsent t u (forgetNotLive _ _) x)

theorem unindexOidAbsent (u : Bool) {s : Sync E M} {oid : E} (absent : ¬ Live s.over oid) :
    unindexOid t u s oid = s := by
  unfold unindexOid
  split
  · rfl
  · exact Stepwise.stays (fun mid _ => unindexMidAbsent t u absent mid)

theorem unindexOidNoMids (u : Bool) (s : Sync E M) {oid : E} (none : t.mids oid = []) :
    unindexOid t u s oid = s := by
  unfold unindexOid
  rw [none]
  split <;> rfl

theorem rewriteOver (how : Rewrite) (mid : M) (rows : List (Int × Smsg E M)) (s : Rewriting E M) :
    (rows.foldl (rewriteArticle t how mid) s).over = s.over.filter
      (fun _ x => ¬ (x.blob ∈ rows.map (·.2.blob) ∧ mid ∈ t.midsForIndex x.blob)) := by
  induction rows generalizing s with
  | nil =>
    refine Table.ext (fun k => Option.ext (fun x => ?_))
    simp
  | cons r rs ih =>
    have step : (rewriteArticle t how mid s r).over = removeOid t s.over r.2.blob mid := by
      cases how <;> rfl
    rw [List.foldl_cons,ih,step]
    refine Table.ext (fun k => Option.ext (fun x => ?_))
    unfold removeOid
    simp only [Table.getFilter,Option.filter_eq_some_iff,decide_eq_true_eq,List.map_cons,
      List.mem_cons]
    by_cases first : x.blob = r.2.blob
    · simp only [first,true_and,true_or]
      tauto
    · simp only [first,false_and,not_false_eq_true,and_true,false_or]

theorem rewriteMm (how : Rewrite) (mid : M) (rows : List (Int × Smsg E M)) (s : Rewriting E M) :
    (rows.foldl (rewriteArticle t how mid) s).mm =
      if how = .replace then s.mm else deleteKeys s.mm (rows.map Prod.fst) := by
  induction rows generalizing s with
  | nil => cases how <;> rfl
  | cons r rs ih =>
    rw [List.foldl_cons,ih]
    cases how <;> rfl

theorem insertSame {α : Type} {x : Table Int α} {k : Int} {a : α} (row : x.get? k = some a) :
    x.insert k a = x := by
  refine Table.ext (fun j => ?_)
  rw [Table.getInsert]
  split
  · rename_i same
    rw [same,row]
  · rfl

theorem numMid0Absent {ov : Table Int (Smsg E M)} {oid : E} (absent : ¬ Live ov oid) (mid : M) :
    numMid0ForOid t ov oid mid = none := by
  unfold numMid0ForOid
  rw [Option.map_eq_none_iff,List.find?_eq_none]
  intro r mem same
  have row := Table.memRows.mp (show (r.1,r.2) ∈ ov.rows from mem)
  exact absent ⟨r.1,r.2,row,(of_decide_eq_true same).1⟩

theorem numMid0Found {ov : Table Int (Smsg E M)} {oid : E} {mid : M} (live : Live ov oid)
    (own : mid ∈ t.mids oid) :
    ∃ n x, ov.get? n = some x ∧ x.blob = oid ∧ numMid0ForOid t ov oid mid = some (n,x.mid) := by
  have indexed := t.midsIndexed oid mid own
  unfold numMid0ForOid
  cases first : ov.rows.find? (fun r => r.2.blob = oid ∧ mid ∈ t.midsForIndex r.2.blob) with
  | none =>
    obtain ⟨n,x,row,same⟩ := live
    have here := List.find?_eq_none.mp first (n,x) (Table.memRows.mpr row)
    simp [same,indexed] at here
  | some r =>
    have found := List.find?_some first
    have good := of_decide_eq_true found
    exact ⟨r.1,r.2,Table.memRows.mp (List.mem_of_find?_eq_some first),good.1,rfl⟩

omit [DecidableEq E] [DecidableEq M] in
theorem notPurged {oid : E} {mid : M} {rest : List M} (own : t.mids oid = mid :: rest) :
    oid ≠ t.purged := by
  intro same
  rw [same,t.midsPurged] at own
  contradiction

def SyncMeets (p : Sync E M → Rec E → Prop) (held : Nat → Bool) (v : Inbox E M) : Prop :=
  Stepwise.Along (indexTodo t)
    (fun s unit => Stepwise.Along (indexRecord t) p (unindexTodo t s unit) unit.stack)
    (Sync.start v.toIndex) (syncPrepare held v)

/- The same of a reindex and of the run after it. Its leftovers have no article, or their
rows of msgmap are not brought back by the rollback. -/
def ReindexMeets (p : Sync E M → Rec E → Prop) (held : Nat → Bool) (v : Inbox E M) : Prop :=
  let todo := (reindexPrepare v.last v.git.length (fun _ => 0) []).2
  let oids := leftovers v.last v.git.length (reindexPrepare v.last v.git.length (fun _ => 0) []).1
  let left := oids.foldl (unindexOid t false) (Sync.start v.toIndex)
  let mm := if todo.all (fun unit => unit.stack = []) then left.mm else v.mm
  (todo.all (fun unit => unit.stack = []) = true ∨ ∀ oid ∈ oids, numsOf v.over oid = []) ∧
    Stepwise.Along (indexTodo t)
      (fun s unit => Stepwise.Along (indexRecord t) p (unindexTodo t s unit) unit.stack)
      (Sync.start ⟨mm,left.over⟩) todo ∧
    SyncMeets t p held { v with
      toIndex := processTodo t ⟨mm,left.over⟩ todo
      last := todo.foldl updateLastCommit v.last }

instance (p : Sync E M → Rec E → Prop) [∀ s c, Decidable (p s c)] (held : Nat → Bool)
    (v : Inbox E M) : Decidable (SyncMeets t p held v) := by
  unfold SyncMeets
  infer_instance

instance (p : Sync E M → Rec E → Prop) [∀ s c, Decidable (p s c)] (held : Nat → Bool)
    (v : Inbox E M) : Decidable (ReindexMeets t p held v) := by
  unfold ReindexMeets
  infer_instance

section delivery
variable [DecidableEq H]

omit [DecidableEq E] [DecidableEq H] in
theorem harderDelivers {s : Index E M} {e e' : E} {rands : List R} {mm' : Auto M} {num : Int} {mid0 : M}
    (known : ∀ mid ∈ t.mids e, midInsert s.mm mid = none)
    (done : v2NumForHarder t s.mm e rands = some (mm',num,mid0,e')) :
    deliver t s (t.dropUnwantedHeaders e') =
      ⟨mm',doIdx s.over num ⟨t.dropUnwantedHeaders e',mid0⟩⟩ := by
  unfold v2NumForHarder at done
  split at done
  · contradiction
  · rename_i first
    cases done
    obtain ⟨mem,inserted⟩ := insertFirstSome first
    obtain ⟨salt,_,rfl⟩ := List.mem_map.mp mem
    have fresh : t.digest2mid e salt ∉ t.mids e := by
      intro own
      rw [known _ own] at inserted
      contradiction
    have mids : t.mids (t.dropUnwantedHeaders (t.appendMid e (t.digest2mid e salt))) =
        t.mids e ++ [t.digest2mid e salt] := by
      rw [t.midsDropped,t.midsAppended e salt fresh]
    unfold deliver
    rw [mids]
    cases own : t.mids e with
    | nil => simp only [List.nil_append,insertFirst,inserted]
    | cons mid rest =>
      have head := known mid (own ▸ List.mem_cons_self)
      simp only [List.cons_append,List.reverse_append,List.reverse_cons,List.reverse_nil,
        List.nil_append,insertFirst,head,inserted]

omit [DecidableEq E] in
theorem numberDelivers {s : Index E M} {e e' : E} {rands : List R} {mm' : Auto M} {num : Int} {mid0 : M}
    (done : v2NumFor t s e rands = some (mm',num,mid0,e')) :
    deliver t s (t.dropUnwantedHeaders e') =
      ⟨mm',doIdx s.over num ⟨t.dropUnwantedHeaders e',mid0⟩⟩ := by
  unfold v2NumFor at done
  split at done
  · rename_i none
    exact harderDelivers t (by simp [none]) done
  · rename_i mid rest own
    split at done
    · rename_i inserted
      cases done
      unfold deliver
      rw [t.midsDropped,own]
      simp only [insertFirst,inserted]
    · rename_i head
      split at done
      · contradiction
      · split at done
        · rename_i first
          cases done
          unfold deliver
          rw [t.midsDropped,own]
          simp only [insertFirst,head,first]
        · rename_i failed
          refine harderDelivers t ?_ done
          intro x mem
          rw [own] at mem
          rcases List.mem_cons.mp mem with rfl | inside
          · exact head
          · exact insertFirstNone failed x (List.mem_reverse.mpr inside)

omit [DecidableEq E] in
theorem numberInserts {s : Index E M} {e e' : E} {rands : List R} {mm' : Auto M} {num : Int} {mid0 : M}
    (done : v2NumFor t s e rands = some (mm',num,mid0,e')) : midInsert s.mm mid0 = some (mm',num) := by
  have harder : ∀ done : v2NumForHarder t s.mm e rands = some (mm',num,mid0,e'),
      midInsert s.mm mid0 = some (mm',num) := by
    intro done
    unfold v2NumForHarder at done
    split at done
    · contradiction
    · rename_i first
      cases done
      exact (insertFirstSome first).2
  unfold v2NumFor at done
  split at done
  · exact harder done
  · split at done
    · rename_i inserted
      cases done
      exact inserted
    · split at done
      · contradiction
      · split at done
        · rename_i first
          cases done
          exact (insertFirstSome first).2
        · exact harder done

def goneBy (mid : M) (old : E) (x : Smsg E M) : Bool :=
  mid ∈ t.midsForIndex x.blob ∧ contentMatches t old x

omit [DecidableEq E] in
theorem goneRows {ov : Table Int (Smsg E M)} {mid : M} {old : E} {keys : Shuffle (Int × Smsg E M)}
    {r : Int × Smsg E M} :
    r ∈ keys.val ((nextByMid t ov mid).filter (fun r => contentMatches t old r.2)) ↔
      ov.get? r.1 = some r.2 ∧ goneBy t mid old r.2 = true := by
  rw [(keys.property _).mem_iff,List.mem_filter,memNextByMid,goneBy,decide_eq_true_eq,and_assoc]

omit [DecidableEq E] in
theorem goneBlobs {ov : Table Int (Smsg E M)} {mid : M} {old : E} {keys : Shuffle (Int × Smsg E M)}
    {n : Int} {x : Smsg E M} (row : ov.get? n = some x) :
    x.blob ∈ (keys.val ((nextByMid t ov mid).filter
        (fun r => contentMatches t old r.2))).map (·.2.blob) ∧ mid ∈ t.midsForIndex x.blob ↔
      goneBy t mid old x = true := by
  constructor
  · rintro ⟨mem,indexed⟩
    obtain ⟨r,inside,same⟩ := List.mem_map.mp mem
    have gone := ((goneRows t).mp inside).2
    unfold goneBy contentMatches at gone ⊢
    rw [same] at gone
    exact gone
  · intro gone
    refine ⟨List.mem_map.mpr ⟨(n,x),(goneRows t).mpr ⟨row,gone⟩,rfl⟩,?_⟩
    unfold goneBy at gone
    exact (of_decide_eq_true gone).1

theorem rewriteMidOver (how : Rewrite) (old : E) (keys : Shuffle (Int × Smsg E M))
    (s : Rewriting E M) (mid : M) :
    (rewriteMid t how old keys s mid).over = (dropRows s.toIndex (goneBy t mid old)).over := by
  unfold rewriteMid
  rw [rewriteOver]
  refine Table.ext (fun k => Option.ext (fun x => ?_))
  rw [dropRowsOver,Table.getFilter,Option.filter_eq_some_iff,decide_eq_true_eq]
  refine and_congr_right (fun row => ?_)
  rw [goneBlobs t row,Bool.not_eq_true]

theorem rewriteMidMm {how : Rewrite} (deletes : how ≠ .replace) (old : E)
    (keys : Shuffle (Int × Smsg E M)) (s : Rewriting E M) (mid : M) :
    (rewriteMid t how old keys s mid).mm = (dropRows s.toIndex (goneBy t mid old)).mm := by
  unfold rewriteMid
  rw [rewriteMm,if_neg deletes]
  refine autoSame (fun k => Option.ext (fun a => ?_)) (deleteKeysSeq _ _)
  rw [dropRowsMm,deleteKeysGet]
  have listed : k ∈ (keys.val ((nextByMid t s.over mid).filter
      (fun r => contentMatches t old r.2))).map Prod.fst ↔
      ∃ x, s.over.get? k = some x ∧ goneBy t mid old x = true := by
    constructor
    · intro mem
      obtain ⟨r,inside,rfl⟩ := List.mem_map.mp mem
      exact ⟨r.2,(goneRows t).mp inside⟩
    · rintro ⟨x,gone⟩
      exact List.mem_map.mpr ⟨(k,x),(goneRows t).mpr gone,rfl⟩
  split
  · rename_i mem
    obtain ⟨x,row,gone⟩ := listed.mp mem
    constructor
    · intro absurd
      contradiction
    · rintro ⟨_,none⟩
      rw [none x row] at gone
      contradiction
  · rename_i mem
    refine ⟨fun found => ⟨found,fun x row => ?_⟩,And.left⟩
    by_contra gone
    exact mem (listed.mpr ⟨x,row,by simpa using gone⟩)

theorem rewriteMidIndex {how : Rewrite} (deletes : how ≠ .replace) (old : E)
    (keys : Shuffle (Int × Smsg E M)) (s : Rewriting E M) (mid : M) :
    (rewriteMid t how old keys s mid).toIndex = dropRows s.toIndex (goneBy t mid old) :=
  indexSame (rewriteMidMm t deletes old keys s mid) (rewriteMidOver t how old keys s mid)

end delivery

end PublicInbox.V2Writable
