import PublicInbox.V2Writable.Eml
import PublicInbox.V2Writable.Index

/-! Article numbers of over and of msgmap. Delivery, removal, purging and replacing write
both; index_sync keeps them in step where a number that it takes from elsewhere still has, or
gets back, its row in msgmap. -/
namespace PublicInbox.V2Writable
open Keyed Stepwise

variable {E M H R : Type} [DecidableEq E] [DecidableEq M] [DecidableEq H] (t : Texts E M H R)

def Agree (s : Index E M) : Prop := ∀ n, (s.over.get? n).isSome ↔ (s.mm.rows.get? n).isSome

theorem insertIsSome {α : Type} (x : Table Int α) (k : Int) (a : α) (n : Int) :
    ((x.insert k a).get? n).isSome ↔ n = k ∨ (x.get? n).isSome := by
  rw [Table.getInsert]
  by_cases same : n = k
  · simp [same]
  · simp [same]

omit [DecidableEq E] [DecidableEq M] in
theorem agreeIndex {s : Index E M} (agree : Agree s) {mm : Auto M} {num : Int} (x : Smsg E M)
    (grown : ∀ n, (mm.rows.get? n).isSome ↔ n = num ∨ (s.mm.rows.get? n).isSome) :
    Agree ⟨mm,doIdx s.over num x⟩ := by
  intro n
  unfold doIdx
  rw [insertIsSome,agree n,grown n]

omit [DecidableEq E] in
theorem agreeInserted {s : Index E M} (agree : Agree s) {mm : Auto M} {mid : M} {num : Int}
    (x : Smsg E M) (done : midInsert s.mm mid = some (mm,num)) : Agree ⟨mm,doIdx s.over num x⟩ := by
  obtain ⟨_,_,_,rows⟩ := midInsertSome done
  refine agreeIndex agree x (fun n => ?_)
  rw [rows,insertIsSome]

omit [DecidableEq E] [DecidableEq M] in
theorem agreeKnown {s : Index E M} (agree : Agree s) {num : Int} (x : Smsg E M)
    (known : (s.mm.rows.get? num).isSome) : Agree ⟨s.mm,doIdx s.over num x⟩ := by
  refine agreeIndex agree x (fun n => ?_)
  constructor
  · exact Or.inr
  · rintro (rfl | found)
    · exact known
    · exact found

omit [DecidableEq E] [DecidableEq M] in
theorem agreeDrop {s : Index E M} (agree : Agree s) (p : Smsg E M → Bool) : Agree (dropRows s p) := by
  intro n
  simp only [Option.isSome_iff_exists,dropRowsOver,dropRowsMm]
  have both := agree n
  simp only [Option.isSome_iff_exists] at both
  constructor
  · rintro ⟨x,row,kept⟩
    obtain ⟨mid,found⟩ := both.mp ⟨x,row⟩
    refine ⟨mid,found,fun y other => ?_⟩
    rw [row] at other
    cases other
    exact kept
  · rintro ⟨mid,found,kept⟩
    obtain ⟨x,row⟩ := both.mpr ⟨mid,found⟩
    exact ⟨x,row,kept x row⟩

omit [DecidableEq E] in
theorem agreeAdd {v : Inbox E M} (agree : Agree v.toIndex) (e : E) (rands : List R) (rotate : Bool) :
    Agree (add t v e rands rotate).toIndex := by
  unfold add
  split
  · exact agree
  · rename_i numbered
    exact agreeInserted agree _ (numberInserts t numbered)

theorem agreeRewrite {how : Rewrite} (deletes : how ≠ .replace) {v : Inbox E M}
    (agree : Agree v.toIndex) (old : E) (keys : Shuffle (Int × Smsg E M)) :
    Agree (rewriteInternal t how v old keys).toIndex := by
  unfold rewriteInternal
  refine keepsAll (fun s : Rewriting E M => Agree s.toIndex) ?_ agree
  intro s mid _ sofar
  rw [rewriteMidIndex t deletes]
  exact agreeDrop sofar _

def Waiting (s : Rewriting E M) : Prop :=
  ∀ n, (s.mm.rows.get? n).isSome ↔ (s.over.get? n).isSome ∨ n ∈ s.needReindex.map Prod.fst

omit [DecidableEq H] in
theorem replaceRows (mid : M) (rows : List (Int × Smsg E M)) (s : Rewriting E M) :
    (rows.foldl (rewriteArticle t .replace mid) s).needReindex = s.needReindex ++ rows := by
  induction rows generalizing s with
  | nil => simp
  | cons r rs ih =>
    rw [List.foldl_cons,ih]
    simp only [rewriteArticle,List.append_assoc,List.singleton_append]

theorem waitingMid {s : Rewriting E M} (waiting : Waiting s) (old : E)
    (keys : Shuffle (Int × Smsg E M)) (mid : M) : Waiting (rewriteMid t .replace old keys s mid) := by
  have ov := rewriteMidOver t .replace old keys s mid
  have mm : (rewriteMid t .replace old keys s mid).mm = s.mm := by
    unfold rewriteMid
    rw [rewriteMm]
    rfl
  have need : (rewriteMid t .replace old keys s mid).needReindex = s.needReindex ++
      keys.val ((nextByMid t s.over mid).filter (fun r => contentMatches t old r.2)) :=
    replaceRows t mid _ s
  intro n
  rw [ov,mm,need,waiting n,List.map_append,List.mem_append]
  simp only [Option.isSome_iff_exists,dropRowsOver]
  have taken : n ∈ (keys.val ((nextByMid t s.over mid).filter
      (fun r => contentMatches t old r.2))).map Prod.fst ↔
      ∃ x, s.over.get? n = some x ∧ goneBy t mid old x = true := by
    constructor
    · intro mem
      obtain ⟨r,inside,rfl⟩ := List.mem_map.mp mem
      exact ⟨r.2,(goneRows t).mp inside⟩
    · rintro ⟨x,gone⟩
      exact List.mem_map.mpr ⟨(n,x),(goneRows t).mpr gone,rfl⟩
  rw [taken]
  constructor
  · rintro (⟨x,row⟩ | already)
    · cases gone : goneBy t mid old x with
      | true => exact Or.inr (Or.inr ⟨x,row,gone⟩)
      | false => exact Or.inl ⟨x,row,gone⟩
    · exact Or.inr (Or.inl already)
  · rintro (⟨x,row,_⟩ | already | ⟨x,row,_⟩)
    · exact Or.inl ⟨x,row⟩
    · exact Or.inr already
    · exact Or.inl ⟨x,row⟩

omit [DecidableEq E] [DecidableEq M] in
theorem indexedAgain (raw : E) (rows : List (Int × Smsg E M)) (ov : Table Int (Smsg E M)) (n : Int) :
    ((rows.foldl (fun ov r => doIdx ov r.1 ⟨raw,r.2.mid⟩) ov).get? n).isSome ↔
      (ov.get? n).isSome ∨ n ∈ rows.map Prod.fst := by
  induction rows generalizing ov with
  | nil => simp
  | cons r rs ih =>
    rw [List.foldl_cons,ih,doIdx,insertIsSome,List.map_cons,List.mem_cons]
    tauto

theorem agreeReplace {v : Inbox E M} (agree : Agree v.toIndex) (old new : E)
    (keys : Shuffle (Int × Smsg E M)) : Agree (replace t v old new keys).toIndex := by
  unfold replace
  split
  · have waiting : Waiting (rewriteInternal t .replace v old keys) := by
      unfold rewriteInternal
      refine keepsAll Waiting ?_ ?_
      · intro s mid _ sofar
        exact waitingMid t sofar old keys mid
      · intro n
        simp [agree n]
    intro n
    exact (indexedAgain _ _ _ n).trans (waiting n).symm
  · exact agree

def NumberKept (s : Sync E M) (c : Rec E) : Prop :=
  c.file = .m → match t.mids c.blob with
    | [] => True
    | mid :: rest => match s.unindexed c.blob with
      | (num,some mid0) :: _ => (s.mm.rows.get? num).isSome ∨ s.mm.keyOf mid0 = none
      | (_,none) :: _ => ∀ x ∈ gotBefore s c.blob mid rest, (s.mm.rows.get? x.1).isSome
      | [] => (mid :: rest).findSome? (numMid0ForOid t s.over c.blob) = none →
        ∀ x ∈ gotBefore s c.blob mid rest, (s.mm.rows.get? x.1).isSome

instance (s : Sync E M) (c : Rec E) : Decidable (NumberKept t s c) := by
  unfold NumberKept
  cases t.mids c.blob with
  | nil => infer_instance
  | cons mid rest =>
    cases s.unindexed c.blob with
    | nil => infer_instance
    | cons u us =>
      obtain ⟨num,mid0⟩ := u
      cases mid0 <;> infer_instance

omit [DecidableEq H] in
theorem numMid0Row {ov : Table Int (Smsg E M)} {oid : E} {mid : M} {x : Int × M}
    (found : numMid0ForOid t ov oid mid = some x) : (ov.get? x.1).isSome := by
  unfold numMid0ForOid at found
  obtain ⟨r,first,rfl⟩ := Option.map_eq_some_iff.mp found
  have row := Table.memRows.mp (show (r.1,r.2) ∈ ov.rows from List.mem_of_find?_eq_some first)
  rw [row]
  rfl

omit [DecidableEq E] in
theorem agreeMidSet {s : Index E M} (agree : Agree s) {num : Int} {mid0 : M} (x : Smsg E M)
    (kept : (s.mm.rows.get? num).isSome ∨ s.mm.keyOf mid0 = none) :
    Agree ⟨midSet s.mm num (some mid0),doIdx s.over num x⟩ := by
  refine agreeIndex agree x (fun n => ?_)
  unfold midSet
  simp only
  split
  · exact insertIsSome s.mm.rows num mid0 n
  · rename_i taken
    have known : (s.mm.rows.get? num).isSome := by
      rcases kept with known | fresh
      · exact known
      · cases found : s.mm.rows.get? num with
        | none => exact absurd fresh (taken found)
        | some mid => rfl
    constructor
    · exact Or.inr
    · rintro (rfl | found)
      · exact known
      · exact found

omit [DecidableEq E] in
theorem agreeFirst {s : Sync E M} (agree : Agree s.toIndex) (oid : E) (mids : List M) :
    Agree (match insertFirst s.mm mids with
      | some (mm',num,mid0) => { s with mm := mm', «over» := doIdx s.over num ⟨oid,mid0⟩ }
      | none => s : Sync E M).toIndex := by
  split
  · rename_i first
    exact agreeInserted agree _ (insertFirstSome first).2
  · exact agree

section
omit [DecidableEq H]

theorem agreeIndexOid {s : Sync E M} (agree : Agree s.toIndex) {c : Rec E} (file : c.file = .m)
    (kept : NumberKept t s c) : Agree (indexOid t s c.blob).toIndex := by
  have said := kept file
  unfold indexOid
  split
  · exact agree
  · split
    · exact agree
    · rename_i mid rest own
      rw [own] at said
      cases taken : s.unindexed c.blob with
      | nil =>
        simp only [takeUnindexed,taken,knownNum] at said ⊢
        cases found : (mid :: rest).findSome? (numMid0ForOid t s.over c.blob) with
        | some x =>
          obtain ⟨m,_,here⟩ := List.exists_of_findSome?_eq_some found
          exact agreeKnown agree _ ((agree x.1).mp (numMid0Row t here))
        | none =>
          cases got : gotBefore s c.blob mid rest with
          | some x => exact agreeKnown agree _ (said found x got)
          | none => exact agreeFirst agree _ _
      | cons u us =>
        obtain ⟨num,mid0⟩ := u
        simp only [takeUnindexed,taken] at said ⊢
        cases mid0 with
        | some mid0 =>
          simp only [knownNum]
          exact agreeMidSet agree _ said
        | none =>
          have bumped : Agree ⟨midSet s.mm num none,s.over⟩ := agree
          simp only [knownNum]
          cases got : gotBefore s c.blob mid rest with
          | some x =>
            have same : gotBefore { s with
              mm := midSet s.mm num none
              unindexed := Function.update s.unindexed c.blob us } c.blob mid rest = some x := got
            rw [same]
            exact agreeKnown bumped _ (said x got)
          | none =>
            have same : gotBefore { s with
              mm := midSet s.mm num none
              unindexed := Function.update s.unindexed c.blob us } c.blob mid rest = none := got
            rw [same]
            exact agreeFirst (s := { s with
              mm := midSet s.mm num none
              unindexed := Function.update s.unindexed c.blob us }) bumped _ _

theorem agreeUnindexOid {s : Sync E M} (agree : Agree s.toIndex) (inUnindex : Bool) (oid : E) :
    Agree (unindexOid t inUnindex s oid).toIndex := by
  by_cases own : t.mids oid = []
  · rw [unindexOidNoMids t inUnindex s own]
    exact agree
  · rw [unindexOidSpec t inUnindex s own]
    exact agreeDrop agree _

theorem agreeTodo {s : Sync E M} (agree : Agree s.toIndex) (unit : Todo E)
    (kept : Along (indexRecord t) (NumberKept t) (unindexTodo t s unit) unit.stack) :
    Agree (indexTodo t s unit).toIndex := by
  have unindexed : Agree (unindexTodo t s unit).toIndex := by
    unfold unindexTodo
    refine keepsAll (fun s : Sync E M => Agree s.toIndex) ?_ agree
    intro s c _ sofar
    unfold unindexLine
    split
    · exact agreeUnindexOid t sofar true c.blob
    · exact sofar
  unfold indexTodo
  refine keeps (fun s : Sync E M => Agree s.toIndex) ?_ unindexed kept
  intro s c sofar said
  unfold indexRecord
  split
  · rename_i file
    exact agreeIndexOid t sofar file said
  · exact agreeUnindexOid t sofar false c.blob

end

inductive InboxOp (E M R : Type) where
  | add (e : E) (rands : List R) (rotate : Bool)
  | remove (old : E) (keys : Shuffle (Int × Smsg E M)) (rotate : Bool)
  | done
  | purge (old : E) (keys : Shuffle (Int × Smsg E M))
  | replace (old new : E) (keys : Shuffle (Int × Smsg E M))
  | fetch (git : Epochs E)
  | sync (held : Nat → Bool)
  | reindex (held : Nat → Bool)

/- A fetch leaves whatever history upstream has, rewritten or not. Who calls index_sync has called
`done`: it rolls msgmap back, and would take along what is not committed. -/
def inboxStep (v : Inbox E M) : InboxOp E M R → Inbox E M
  | .add e rands rotate => add t v e rands rotate
  | .remove old keys rotate => remove t v old keys rotate
  | .done => done v
  | .purge old keys => purge t v old keys
  | .replace old new keys => replace t v old new keys
  | .fetch git => { done v with git := git }
  | .sync held => indexSync t held (done v)
  | .reindex held => reindexSync t held (done v)

def OpMeets (v : Inbox E M) : InboxOp E M R → Prop
  | .sync held => SyncMeets t (NumberKept t) held (done v)
  | .reindex held => ReindexMeets t (NumberKept t) held (done v)
  | _ => True

instance (v : Inbox E M) (op : InboxOp E M R) : Decidable (OpMeets t v op) := by
  cases op <;> unfold OpMeets <;> infer_instance

omit [DecidableEq H] in
theorem agreeProcess {s : Index E M} (agree : Agree s) {todo : List (Todo E)}
    (kept : Along (indexTodo t)
      (fun s unit => Along (indexRecord t) (NumberKept t) (unindexTodo t s unit) unit.stack)
      (Sync.start s) todo) : Agree (processTodo t s todo) :=
  keeps (fun s : Sync E M => Agree s.toIndex) (fun _ unit sofar kept => agreeTodo t sofar unit kept)
    agree kept

omit [DecidableEq H] in
theorem agreeReindex {v : Inbox E M} (agree : Agree v.toIndex) {held : Nat → Bool}
    (met : ReindexMeets t (NumberKept t) held v) : Agree (reindexSync t held v).toIndex := by
  obtain ⟨left,records,later⟩ := met
  have start : Agree (⟨if (reindexPrepare v.last v.git.length (fun _ => 0) []).2.all
        (fun unit => unit.stack = [])
      then ((leftovers v.last v.git.length (reindexPrepare v.last v.git.length (fun _ => 0) []).1).foldl
        (unindexOid t false) (Sync.start v.toIndex)).mm else v.mm,
      ((leftovers v.last v.git.length (reindexPrepare v.last v.git.length (fun _ => 0) []).1).foldl
        (unindexOid t false) (Sync.start v.toIndex)).over⟩ : Index E M) := by
    split
    · refine keepsAll (fun s : Sync E M => Agree s.toIndex) ?_ agree
      intro s oid _ sofar
      exact agreeUnindexOid t sofar false oid
    · rename_i some
      rw [stays (s := Sync.start v.toIndex) (fun oid mem => unindexOidAbsent t false
        (numsOfNil.mp (left.resolve_left some oid mem)))]
      exact agree
  exact agreeProcess t (agreeProcess t start records) later

theorem agreeStep (v : Inbox E M) (op : InboxOp E M R) (agree : Agree v.toIndex)
    (met : OpMeets t v op) : Agree (inboxStep t v op).toIndex := by
  cases op with
  | add e rands rotate => exact agreeAdd t agree e rands rotate
  | remove old keys rotate =>
    simp only [inboxStep,remove]
    split
    · exact agree
    · split
      · exact agree
      · exact agreeRewrite t (by decide) agree old keys
  | done => exact agree
  | purge old keys => exact agreeRewrite t (by decide) agree old keys
  | replace old new keys => exact agreeReplace t agree old new keys
  | fetch git => exact agree
  | sync held => exact agreeProcess t (s := (done v).toIndex) agree met
  | reindex held => exact agreeReindex t (v := done v) agree met

theorem numbersAgree (ops : List (InboxOp E M R))
    (met : Along (inboxStep t) (OpMeets t) .empty ops) :
    ∀ n : Int, ((ops.foldl (inboxStep t) .empty).over.get? n).isSome ↔
      ((ops.foldl (inboxStep t) .empty).mm.rows.get? n).isSome :=
  keeps (fun v : Inbox E M => Agree v.toIndex) (agreeStep t) (fun n => by simp [Inbox.empty,Index.empty,Auto.empty])
    met

/- Upstream purges `one` after both messages have been indexed and `three` comes in; the
inbox itself replaces `three` and is indexed anew. -/
def purgedUpstream : List (InboxOp Eml Mid Nat) :=
  [.fetch [[⟨⟨.m,letter ["<a>"] "one"⟩,false⟩,⟨⟨.m,letter ["<b>"] "two"⟩,true⟩]],.sync (fun _ => true),
    .fetch [[⟨⟨.m,letters.purged⟩,false⟩,⟨⟨.m,letter ["<b>"] "two"⟩,true⟩,⟨⟨.m,letter ["<c>"] "three"⟩,true⟩]],
    .sync (fun _ => true),.replace (letter ["<c>"] "three") (letter ["<c>"] "third") keysAsFound,
    .reindex (fun _ => true)]

theorem purgedAgrees :
    ((purgedUpstream.foldl (inboxStep letters) .empty).over.get? 1).isSome ↔
      ((purgedUpstream.foldl (inboxStep letters) .empty).mm.rows.get? 1).isSome :=
  numbersAgree letters purgedUpstream (by decide +kernel) 1

-- An edited message gets its old number back from the clone, and msgmap does not.
theorem editedNotInMsgmap :
    ¬ ∀ (ops : List (InboxOp Eml Mid Nat)) (n : Int), 0 < n →
      (((ops.foldl (inboxStep letters) .empty).over.get? n).isSome ↔
        ((ops.foldl (inboxStep letters) .empty).mm.rows.get? n).isSome) := by
  intro agrees
  have agree := agrees [.fetch [[⟨⟨.m,letter ["<a>"] "one"⟩,false⟩]],.sync (fun _ => true),
    .fetch [[⟨⟨.m,letter ["<a>"] "one, edited"⟩,false⟩]],.sync (fun _ => true)] 1 (by decide)
  revert agree
  decide +kernel

end PublicInbox.V2Writable
