import PublicInbox.V2Writable.Eml
import PublicInbox.V2Writable.Index

/-! A mirror's index against the source's. The history is replayed commit by commit: what a
delivery or a removal does at the source is what the replay does, and index_sync does the
same to every record whose Message-IDs the clone of msgmap does not hold a free number for. -/
namespace PublicInbox.V2Writable
open Keyed Stepwise

variable {E M H R : Type} [DecidableEq E] [DecidableEq M] [DecidableEq H] (t : Texts E M H R)

section history

def liveStep (live : List E) (c : Rec E) : List E :=
  match c.file with
  | .m => c.blob :: live
  | .d => live.filter (fun b => b ≠ c.blob)

def Unrepeated (live : List E) (c : Rec E) : Prop := c.file = .m → c.blob ∉ live

instance (live : List E) (c : Rec E) : Decidable (Unrepeated live c) := by
  unfold Unrepeated
  infer_instance

def history (git : Epochs E) : List (Rec E) := git.flatten.map Commit.toRec

def NoRepeat (git : Epochs E) : Prop := Along liveStep Unrepeated [] (history git)

instance (git : Epochs E) : Decidable (NoRepeat git) := by
  unfold NoRepeat
  infer_instance

def Changes (tree : Tree E) (c : Commit E) : Prop := tree c.file ≠ some c.blob

instance (tree : Tree E) (c : Commit E) : Decidable (Changes tree c) := by
  unfold Changes
  infer_instance

def Shown (git : Epochs E) : Prop := ∀ epoch ∈ git, Along Tree.commit Changes .empty epoch

instance (git : Epochs E) : Decidable (Shown git) := by
  unfold Shown
  infer_instance

def recs (git : Epochs E) : List (Rec E) := git.flatMap (rawLog .empty)

theorem rawLogShown {tree : Tree E} {cs : List (Commit E)} (shown : Along Tree.commit Changes tree cs) :
    rawLog tree cs = cs.map Commit.toRec := by
  induction cs generalizing tree with
  | nil => rfl
  | cons c cs ih => rw [rawLog,if_neg shown.1,ih shown.2,List.map_cons]

theorem recsShown {git : Epochs E} (shown : Shown git) : recs git = history git := by
  induction git with
  | nil => rfl
  | cons epoch rest ih =>
    have first := rawLogShown (shown epoch List.mem_cons_self)
    have later := ih (fun e mem => shown e (List.mem_cons_of_mem _ mem))
    unfold recs history at later ⊢
    rw [List.flatMap_cons,first,later,List.flatten_cons,List.map_append]

end history

section replay

def Covers (live : List E) (s : Index E M) : Prop :=
  ∀ n x, s.over.get? n = some x → x.blob ∈ live ∧ t.mids x.blob ≠ []

omit [DecidableEq E] [DecidableEq H] in
theorem deliverRow {s : Index E M} {oid : E} {n : Int} {x : Smsg E M}
    (found : (deliver t s oid).over.get? n = some x) :
    s.over.get? n = some x ∨ x.blob = oid ∧ t.mids oid ≠ [] := by
  unfold deliver at found
  split at found
  · exact Or.inl found
  · rename_i mid rest own
    split at found
    · simp only [doIdx,Table.getInsert] at found
      split at found
      · cases found
        exact Or.inr ⟨rfl,by rw [own]; exact List.cons_ne_nil _ _⟩
      · exact Or.inl found
    · exact Or.inl found

omit [DecidableEq H] in
theorem coversStep {live : List E} {s : Index E M} (covers : Covers t live s) (c : Rec E) :
    Covers t (liveStep live c) (applyCommit t s c) := by
  intro n x found
  cases file : c.file with
  | m =>
    simp only [applyCommit,file] at found
    simp only [liveStep,file]
    rcases deliverRow t found with old | ⟨same,own⟩
    · exact (covers n x old).imp (List.mem_cons_of_mem _) id
    · exact ⟨same ▸ List.mem_cons_self,same ▸ own⟩
  | d =>
    simp only [applyCommit,file] at found
    simp only [liveStep,file,List.mem_filter,decide_eq_true_eq]
    obtain ⟨old,other⟩ := (forgetOver s c.blob n x).mp found
    exact ⟨⟨(covers n x old).1,other⟩,(covers n x old).2⟩

omit [DecidableEq H] in
theorem coversFold {live : List E} {s : Index E M} (covers : Covers t live s) (cs : List (Rec E)) :
    Covers t (cs.foldl liveStep live) (cs.foldl (applyCommit t) s) := by
  induction cs generalizing live s with
  | nil => exact covers
  | cons c cs ih => exact ih (coversStep t covers c)

omit [DecidableEq E] [DecidableEq M] [DecidableEq H] in
theorem notLive {live : List E} {s : Index E M} (covers : Covers t live s) {oid : E}
    (absent : oid ∉ live) : ¬ Live s.over oid := by
  rintro ⟨n,x,found,same⟩
  exact absent (same ▸ (covers n x found).1)

end replay

section source

inductive SourceOp (E M R : Type) where
  | add (e : E) (rands : List R) (rotate : Bool)
  | remove (old : E) (keys : Shuffle (Int × Smsg E M)) (rotate : Bool)
  | done

def sourceStep (v : Inbox E M) : SourceOp E M R → Inbox E M
  | .add e rands rotate => add t v e rands rotate
  | .remove old keys rotate => remove t v old keys rotate
  | .done => done v

def source (ops : List (SourceOp E M R)) : Inbox E M := ops.foldl (sourceStep t) .empty

omit [DecidableEq E] in
theorem commitHistory (rotate : Bool) (c : Commit E) (git : Epochs E) :
    history (Epochs.commit rotate c git) = history git ++ [c.toRec] := by
  have flat : (Epochs.commit rotate c git).flatten = git.flatten ++ [c] := by
    induction git with
    | nil => rfl
    | cons epoch rest ih =>
      cases rest with
      | nil => cases rotate <;> simp [Epochs.commit]
      | cons e es =>
        unfold Epochs.commit
        rw [List.flatten_cons,ih,← List.append_assoc,← List.flatten_cons]
  unfold history
  rw [flat,List.map_append,List.map_singleton]

def removals (oids : List E) : List (Rec E) := oids.map (Rec.mk .d)

omit [DecidableEq E] in
theorem removeHistory (clean : Bool) (oids : List E) (git : Epochs E) :
    history (removeCommits clean oids git) = history git ++ removals oids := by
  unfold removeCommits
  induction oids generalizing git with
  | nil => simp [removals]
  | cons oid oids ih =>
    rw [List.foldl_cons,ih,commitHistory]
    simp only [removals,List.map_cons,List.append_assoc,List.singleton_append]

omit [DecidableEq H] in
theorem replayRemovals (s : Index E M) (oids : List E) :
    (removals oids).foldl (applyCommit t) s = dropRows s (fun x => x.blob ∈ oids) := by
  induction oids generalizing s with
  | nil => exact (dropRowsNone (fun _ _ _ => by simp)).symm
  | cons oid oids ih =>
    have rest := ih (forget s oid)
    unfold removals at rest ⊢
    simp only [List.map_cons,List.foldl_cons,applyCommit]
    rw [rest,forget,dropRowsTwice]
    refine dropRowsCongr (fun n x _ => ?_)
    simp only [List.mem_cons,Bool.decide_or]

omit [DecidableEq H] in
theorem rewriteRemoved (mid : M) (rows : List (Int × Smsg E M)) (s : Rewriting E M) :
    (rows.foldl (rewriteArticle t .remove mid) s).removed = s.removed ++ rows.map (·.2.blob) := by
  induction rows generalizing s with
  | nil => simp
  | cons r rs ih =>
    rw [List.foldl_cons,ih]
    simp only [rewriteArticle,List.map_cons,List.append_assoc,List.singleton_append]

-- The records appended since `s`, and that they replay to what was done to the databases.
def Replays (s u : Index E M) (git git' : Epochs E) : Prop :=
  ∃ cs, history git' = history git ++ cs ∧ u = cs.foldl (applyCommit t) s

omit [DecidableEq H] in
theorem replaysTrans {s u w : Index E M} {git git' git'' : Epochs E}
    (first : Replays t s u git git') (later : Replays t u w git' git'') :
    Replays t s w git git'' := by
  obtain ⟨cs,added,same⟩ := first
  obtain ⟨ds,more,then'⟩ := later
  refine ⟨cs ++ ds,?_,?_⟩
  · rw [more,added,List.append_assoc]
  · rw [List.foldl_append,← same,then']

def goneRowsOf (s : Rewriting E M) (old : E) (keys : Shuffle (Int × Smsg E M)) (mid : M) :
    List (Int × Smsg E M) :=
  keys.val ((nextByMid t s.over mid).filter (fun r => contentMatches t old r.2))

theorem rewriteMidRemovals (old : E) (keys : Shuffle (Int × Smsg E M)) (s : Rewriting E M) (mid : M) :
    (rewriteMid t .remove old keys s mid).removed =
        s.removed ++ (goneRowsOf t s old keys mid).map (·.2.blob) ∧
      (rewriteMid t .remove old keys s mid).toIndex =
        (removals ((goneRowsOf t s old keys mid).map (·.2.blob))).foldl (applyCommit t) s.toIndex := by
  refine ⟨rewriteRemoved t mid _ s,?_⟩
  rw [replayRemovals,rewriteMidIndex t (by decide)]
  refine dropRowsCongr (fun n x row => ?_)
  rw [Bool.eq_iff_iff,decide_eq_true_eq,← goneBlobs t row]
  refine ⟨And.left,fun mem => ⟨mem,?_⟩⟩
  obtain ⟨r,inside,same⟩ := List.mem_map.mp mem
  have gone := ((goneRows t).mp inside).2
  unfold goneBy at gone
  exact same ▸ (of_decide_eq_true gone).1

theorem rewriteReplays (v : Inbox E M) (old : E) (keys : Shuffle (Int × Smsg E M)) :
    (rewriteInternal t .remove v old keys).toIndex =
      (removals (rewriteInternal t .remove v old keys).removed).foldl (applyCommit t) v.toIndex := by
  unfold rewriteInternal
  refine keepsAll (fun s : Rewriting E M =>
    s.toIndex = (removals s.removed).foldl (applyCommit t) v.toIndex) ?_ rfl
  intro s mid _ sofar
  obtain ⟨removed,index⟩ := rewriteMidRemovals t old keys s mid
  rw [index,removed,sofar]
  unfold removals
  rw [List.map_append,List.foldl_append]

theorem sourceStepReplays (v : Inbox E M) (op : SourceOp E M R) :
    Replays t v.toIndex (sourceStep t v op).toIndex v.git (sourceStep t v op).git := by
  have idle : Replays t v.toIndex v.toIndex v.git v.git := ⟨[],by simp,rfl⟩
  cases op with
  | add e rands rotate =>
    simp only [sourceStep,add]
    split
    · exact idle
    · rename_i numbered
      refine ⟨_,commitHistory _ _ _,?_⟩
      simp only [List.foldl_cons,List.foldl_nil,applyCommit]
      exact (numberDelivers t numbered).symm
  | remove old keys rotate =>
    simp only [sourceStep,remove]
    split
    · exact idle
    · split
      · exact idle
      · exact ⟨_,removeHistory _ _ _,rewriteReplays t v old keys⟩
  | done => exact idle

theorem sourceReplays (ops : List (SourceOp E M R)) :
    (source t ops).toIndex = (history (source t ops).git).foldl (applyCommit t) .empty := by
  have run : Replays t .empty (source t ops).toIndex [] (source t ops).git := by
    unfold source
    refine keepsAll (fun v : Inbox E M => Replays t .empty v.toIndex [] v.git) ?_ ?_
    · intro v op _ sofar
      exact replaysTrans t sofar (sourceStepReplays t v op)
    · exact ⟨[],rfl,rfl⟩
  obtain ⟨cs,commits,same⟩ := run
  rw [commits,same]
  rfl

end source

section fetching

def cut : Nat → Epochs E → Epochs E
  | _, [] => []
  | k, epoch :: rest => epoch.take k :: cut (k - epoch.length) rest

def news (curs tips : Epochs E) : List (Rec E) := (List.zipWith lines curs tips).flatten

theorem rawLogAppend (tree : Tree E) (cs ds : List (Commit E)) :
    rawLog tree (cs ++ ds) = rawLog tree cs ++ rawLog (cs.foldl Tree.commit tree) ds := by
  induction cs generalizing tree with
  | nil => rfl
  | cons c cs ih =>
    rw [List.cons_append,rawLog,rawLog,ih (tree.commit c),List.foldl_cons]
    split
    · rfl
    · rw [List.cons_append]

theorem rawLogLines {cur tip : List (Commit E)} (grown : cur <+: tip) :
    rawLog .empty tip = rawLog .empty cur ++ lines cur tip := by
  obtain ⟨new,rfl⟩ := grown
  rw [rawLogAppend,lines,List.drop_left]

theorem linesSelf (cur : List (Commit E)) : lines cur cur = [] := by
  simp [lines,rawLog]

section
omit [DecidableEq E]

theorem cutHistory (k : Nat) (git : Epochs E) : history (cut k git) = (history git).take k := by
  have flat : (cut k git).flatten = git.flatten.take k := by
    induction git generalizing k with
    | nil => simp [cut]
    | cons epoch rest ih => rw [cut,List.flatten_cons,List.flatten_cons,List.take_append,ih]
  unfold history
  rw [flat,List.map_take]

theorem cutShown {git : Epochs E} (shown : Shown git) (k : Nat) : Shown (cut k git) := by
  induction git generalizing k with
  | nil => exact shown
  | cons epoch rest ih =>
    intro e mem
    rcases List.mem_cons.mp mem with rfl | later
    · have whole := shown epoch List.mem_cons_self
      rw [← List.take_append_drop k epoch,alongAppend] at whole
      exact whole.1
    · exact ih (fun e' mem' => shown e' (List.mem_cons_of_mem _ mem')) (k - epoch.length) e later

theorem cutAll {k : Nat} {git : Epochs E} (all : git.flatten.length ≤ k) : cut k git = git := by
  induction git generalizing k with
  | nil => rfl
  | cons epoch rest ih =>
    rw [List.flatten_cons,List.length_append] at all
    rw [cut,List.take_of_length_le (by omega),ih (by omega)]

end

theorem recsNone (git : Epochs E) : recs (cut 0 git) = [] := by
  induction git with
  | nil => rfl
  | cons epoch rest ih =>
    unfold recs at ih ⊢
    rw [cut,List.flatMap_cons,List.take_zero,Nat.zero_sub,ih]
    rfl

omit [DecidableEq E] in
theorem cutGrown {k l : Nat} (later : k ≤ l) (git : Epochs E) :
    List.Forall₂ (· <+: ·) (cut k git) (cut l git) := by
  induction git generalizing k l with
  | nil => exact .nil
  | cons epoch rest ih =>
    exact .cons (List.take_prefix_take_left later) (ih (Nat.sub_le_sub_right later _))

theorem cutNews {k l : Nat} (later : k ≤ l) (git : Epochs E) :
    recs (cut l git) = recs (cut k git) ++ news (cut k git) (cut l git) := by
  induction git generalizing k l with
  | nil => rfl
  | cons epoch rest ih =>
    have tail := ih (Nat.sub_le_sub_right later epoch.length)
    have head := rawLogLines (List.take_prefix_take_left (l := epoch) later)
    unfold recs news at tail ⊢
    simp only [cut,List.flatMap_cons,List.zipWith_cons_cons,List.flatten_cons]
    rcases Nat.lt_or_ge k epoch.length with inside | past
    · have none := recsNone rest
      unfold recs at none
      rw [Nat.sub_eq_zero_of_le (Nat.le_of_lt inside),none] at tail ⊢
      rw [tail,head,List.append_nil,List.nil_append,List.append_assoc]
    · rw [tail,List.take_of_length_le past,List.take_of_length_le (Nat.le_trans past later),linesSelf,
        List.nil_append,List.append_assoc]

theorem prepareGrown {cur tip : List (Commit E)} (grown : cur <+: tip) (i : Nat) :
    (prepareEpoch true cur i tip = none ∧ cur = tip) ∨
      prepareEpoch true cur i tip =
        some ⟨i,[],lines cur tip,tip.drop cur.length,tip⟩ := by
  unfold prepareEpoch logRange
  by_cases none : tip = []
  · exact Or.inl ⟨if_pos none,by rw [none] at grown ⊢; exact List.prefix_nil.mp grown⟩
  · rw [if_neg none]
    by_cases first : cur = []
    · exact Or.inr (by simp [first])
    · by_cases same : cur = tip
      · exact Or.inl ⟨by simp [same,none],same⟩
      · exact Or.inr (by simp [first,same,grown])

theorem todoGrown {curs tips : Epochs E} (grown : List.Forall₂ (· <+: ·) curs tips) (off : Nat)
    {last : Nat → List (Commit E)} (known : ∀ i, last (off + i) = curs[i]?.getD []) :
    let todo := (tips.zipIdx off).filterMap (fun x => prepareEpoch true (last x.2) x.2 x.1)
    (∀ unit ∈ todo, unit.unindex = []) ∧ todo.flatMap Todo.stack = news curs tips := by
  induction grown generalizing off with
  | nil => simp [news]
  | @cons cur tip curs tips head tail ih =>
    have first : last off = cur := known 0
    have rest := ih (off + 1) (fun i => by rw [Nat.add_assoc,Nat.add_comm 1 i]; exact known (i + 1))
    simp only [List.zipIdx_cons,List.filterMap_cons,first]
    unfold news at rest ⊢
    simp only [List.zipWith_cons_cons,List.flatten_cons]
    rcases prepareGrown head off with ⟨none,same⟩ | some
    · rw [none,same,linesSelf]
      exact rest
    · rw [some]
      simp only [List.mem_cons,List.flatMap_cons,rest.2,and_true]
      rintro unit (rfl | mem)
      · rfl
      · exact rest.1 unit mem

theorem lastGrown {curs tips : Epochs E} (grown : List.Forall₂ (· <+: ·) curs tips) (off : Nat)
    {last new : Nat → List (Commit E)} (known : ∀ i, last (off + i) = curs[i]?.getD [])
    (sofar : ∀ i, new (off + i) = curs[i]?.getD []) :
    let todo := (tips.zipIdx off).filterMap (fun x => prepareEpoch true (last x.2) x.2 x.1)
    (∀ i, todo.foldl updateLastCommit new (off + i) = tips[i]?.getD []) ∧
      ∀ j, j < off → todo.foldl updateLastCommit new j = new j := by
  induction grown generalizing off new with
  | nil => exact ⟨fun i => by simpa using sofar i,fun _ _ => rfl⟩
  | @cons cur tip curs tips head tail ih =>
    have first : last off = cur := known 0
    have shift : ∀ i, off + 1 + i = off + (i + 1) := by omega
    have knownRest : ∀ i, last (off + 1 + i) = curs[i]?.getD [] := by
      intro i
      rw [shift]
      exact known (i + 1)
    -- the unit of the head leaves the later epochs alone and sets its own to the tip
    have rest : ∀ now : Nat → List (Commit E), now off = tip →
        (∀ j, j ≠ off → now j = new j) →
        let todo := (tips.zipIdx (off + 1)).filterMap (fun x => prepareEpoch true (last x.2) x.2 x.1)
        (∀ i, todo.foldl updateLastCommit now (off + i) = (tip :: tips)[i]?.getD []) ∧
          ∀ j, j < off → todo.foldl updateLastCommit now j = new j := by
      intro now here others
      have nowRest : ∀ i, now (off + 1 + i) = curs[i]?.getD [] := by
        intro i
        rw [others _ (by omega),shift]
        exact sofar (i + 1)
      have later := ih (off + 1) knownRest nowRest
      refine ⟨fun i => ?_,fun j below => ?_⟩
      · cases i with
        | zero => exact (later.2 off (Nat.lt_succ_self off)).trans here
        | succ i =>
          have next := later.1 i
          rw [shift] at next
          exact next
      · exact (later.2 j (by omega)).trans (others j (by omega))
    simp only [List.zipIdx_cons,List.filterMap_cons,first]
    rcases prepareGrown head off with ⟨none,same⟩ | some
    · rw [none]
      exact rest new (by rw [← same]; exact sofar 0) (fun _ _ => rfl)
    · rw [some]
      simp only [List.foldl_cons]
      refine rest _ ?_ ?_
      · unfold updateLastCommit
        split
        · rename_i nothing
          have whole := head.eq_of_length_le (List.drop_eq_nil_iff.mp nothing)
          rw [← whole]
          exact sofar 0
        · exact Function.update_self _ _ _
      · intro j other
        unfold updateLastCommit
        split
        · rfl
        · exact Function.update_of_ne other _ _

end fetching

section mirror

/- No Message-ID of a message gives it back a number of the clone: its first one is not in
the clone, or under the number of an article that is there; the others are not in it. -/
def NothingRegained (s : Sync E M) (c : Rec E) : Prop :=
  c.file = .m → match t.mids c.blob with
    | [] => True
    | mid :: rest => (∀ n ∈ s.mmTmp.keyOf mid, (s.over.get? n).isSome) ∧
      ∀ m ∈ rest, s.mmTmp.keyOf m = none

instance (s : Sync E M) (c : Rec E) : Decidable (NothingRegained t s c) :=
  decidable_of_iff (c.file = .m →
      (∀ mid ∈ (t.mids c.blob).head?,∀ n ∈ s.mmTmp.keyOf mid,(s.over.get? n).isSome) ∧
      ∀ m ∈ (t.mids c.blob).tail,s.mmTmp.keyOf m = none) (by
    unfold NothingRegained
    cases t.mids c.blob <;> simp)

theorem gotNothing {s : Sync E M} {oid : E} {mid : M} {rest : List M} (absent : ¬ Live s.over oid)
    (first : ∀ n ∈ s.mmTmp.keyOf mid, (s.over.get? n).isSome)
    (others : ∀ m ∈ rest, s.mmTmp.keyOf m = none) : gotBefore s oid mid rest = none := by
  have head : (numBefore s.mmTmp mid).filter
      (fun x => (s.over.get? x.1).all (fun y => y.blob = oid)) = none := by
    unfold numBefore
    cases found : s.mmTmp.keyOf mid with
    | none => rfl
    | some n =>
      obtain ⟨x,row⟩ := Option.isSome_iff_exists.mp (first n found)
      have other : x.blob ≠ oid := fun same => absent ⟨n,x,row,same⟩
      simp [row,other]
  unfold gotBefore
  rw [head,List.findSome?_eq_none_iff]
  intro m mem
  unfold numBefore
  rw [others m (List.mem_reverse.mp mem)]
  rfl

section
omit [DecidableEq H]

theorem indexDelivers {s : Sync E M} {c : Rec E} (plain : s.unindexed c.blob = [])
    (absent : ¬ Live s.over c.blob) (file : c.file = .m) (new : NothingRegained t s c) :
    indexOid t s c.blob = ⟨deliver t s.toIndex c.blob,s.mmTmp,s.unindexed⟩ := by
  have said := new file
  cases own : t.mids c.blob with
  | nil =>
    simp only [indexOid,deliver,own]
    split <;> rfl
  | cons mid rest =>
    have held : c.blob ≠ t.purged := by
      intro same
      rw [same,t.midsPurged] at own
      contradiction
    rw [own] at said
    have unknown : (mid :: rest).findSome? (numMid0ForOid t s.over c.blob) = none :=
      List.findSome?_eq_none_iff.mpr (fun m _ => numMid0Absent t absent m)
    simp only [indexOid,deliver,own,if_neg held,takeUnindexed,plain,knownNum,unknown,
      gotNothing absent said.1 said.2]
    cases insertFirst s.mm (mid :: rest.reverse) with
    | none => rfl
    | some taken => rfl

theorem indexReplays {s : Sync E M} {live : List E} {cs : List (Rec E)}
    (covers : Covers t live s.toIndex) (plain : ∀ b, s.unindexed b = [])
    (fresh : Along liveStep Unrepeated live cs)
    (met : Along (indexRecord t) (NothingRegained t) s cs) :
    (cs.foldl (indexRecord t) s).toIndex = cs.foldl (applyCommit t) s.toIndex := by
  induction cs generalizing s live with
  | nil => rfl
  | cons c cs ih =>
    have step : indexRecord t s c = ⟨applyCommit t s.toIndex c,s.mmTmp,s.unindexed⟩ := by
      cases file : c.file with
      | m =>
        simp only [indexRecord,applyCommit,file]
        exact indexDelivers t (plain c.blob) (notLive t covers (fresh.1 file)) file met.1
      | d =>
        simp only [indexRecord,applyCommit,file]
        by_cases own : t.mids c.blob = []
        · rw [unindexOidNoMids t false s own,forgetAbsent]
          rintro ⟨n,x,found,same⟩
          exact (covers n x found).2 (same ▸ own)
        · exact unindexOidSpec t false s own
    rw [List.foldl_cons,List.foldl_cons]
    have later := met.2
    rw [step] at later ⊢
    exact ih (coversStep t covers c) plain fresh.2 later

theorem unitsRun {todo : List (Todo E)} (plain : ∀ unit ∈ todo, unit.unindex = []) {s : Sync E M}
    {p : Sync E M → Rec E → Prop}
    (met : Along (indexTodo t) (fun s unit => Along (indexRecord t) p (unindexTodo t s unit) unit.stack)
      s todo) :
    todo.foldl (indexTodo t) s = (todo.flatMap Todo.stack).foldl (indexRecord t) s ∧
      Along (indexRecord t) p s (todo.flatMap Todo.stack) := by
  induction todo generalizing s with
  | nil => exact ⟨rfl,trivial⟩
  | cons unit todo ih =>
    have idle : unindexTodo t s unit = s := by
      unfold unindexTodo
      rw [plain unit List.mem_cons_self]
      rfl
    have step : indexTodo t s unit = unit.stack.foldl (indexRecord t) s := by
      unfold indexTodo
      rw [idle]
    have head : Along (indexRecord t) p (unindexTodo t s unit) unit.stack := met.1
    have later := ih (fun u mem => plain u (List.mem_cons_of_mem _ mem)) met.2
    rw [idle] at head
    rw [step] at later
    rw [List.foldl_cons,List.flatMap_cons,List.foldl_append,alongAppend,step]
    exact ⟨later.1,head,later.2⟩

end

def fetchSync (git : Epochs E) (v : Inbox E M) (k : Nat) : Inbox E M :=
  indexSync t (fun _ => true) { v with git := cut k git }

def mirror (git : Epochs E) (ks : List Nat) : Inbox E M := ks.foldl (fetchSync t git) .empty

def FetchMeets (git : Epochs E) (v : Inbox E M) (k : Nat) : Prop :=
  SyncMeets t (NothingRegained t) (fun _ => true) { v with git := cut k git }

instance (git : Epochs E) (v : Inbox E M) (k : Nat) : Decidable (FetchMeets t git v k) := by
  unfold FetchMeets SyncMeets
  infer_instance

structure Tracks (git : Epochs E) (k : Nat) (v : Inbox E M) : Prop where
  index : v.toIndex = (recs (cut k git)).foldl (applyCommit t) .empty
  last : ∀ i, v.last i = (cut k git)[i]?.getD []

theorem freshCut {git : Epochs E} (fresh : NoRepeat git) (k : Nat) :
    Along liveStep Unrepeated [] (history (cut k git)) := by
  unfold NoRepeat at fresh
  rw [cutHistory]
  rw [← List.take_append_drop k (history git),alongAppend] at fresh
  exact fresh.1

omit [DecidableEq E] [DecidableEq M] [DecidableEq H] in
theorem coversEmpty : Covers t [] (Index.empty : Index E M) := by
  intro n x found
  simp [Index.empty] at found

section
omit [DecidableEq H]

theorem fetchTracks {git : Epochs E} (fresh : NoRepeat git) (shown : Shown git) {k l : Nat} (later : k ≤ l)
    {v : Inbox E M} (tracks : Tracks t git k v) (met : FetchMeets t git v l) :
    Tracks t git l (fetchSync t git v l) := by
  have grown := cutGrown later git
  have known : ∀ i, v.last (0 + i) = (cut k git)[i]?.getD [] := by
    intro i
    rw [Nat.zero_add]
    exact tracks.last i
  have todo := todoGrown grown 0 known
  have tips := (lastGrown grown 0 known known).1
  have run := unitsRun t todo.1 met
  have whole := freshCut fresh l
  rw [← recsShown (cutShown shown l),cutNews later,alongAppend] at whole
  have covers := coversFold t (coversEmpty t) (recs (cut k git))
  rw [← tracks.index] at covers
  constructor
  · show processTodo t v.toIndex _ = _
    have records := run.2
    rw [todo.2] at records
    have replayed := indexReplays t covers (fun _ => rfl) whole.2 records
    rw [processTodo]
    refine (congrArg Sync.toIndex run.1).trans ?_
    rw [todo.2,replayed,cutNews later,List.foldl_append,← tracks.index]
    rfl
  · intro i
    have tip := tips i
    rw [Nat.zero_add] at tip
    exact tip

theorem emptyTracks (git : Epochs E) : Tracks t git 0 (.empty : Inbox E M) := by
  have none := recsNone git
  constructor
  · rw [none]
    rfl
  · intro i
    have empty : ∀ (git : Epochs E) (i : Nat), (cut 0 git)[i]?.getD [] = [] := by
      intro git
      induction git with
      | nil => simp [cut]
      | cons epoch rest ih =>
        intro i
        rw [cut,Nat.zero_sub,List.take_zero]
        cases i with
        | zero => rfl
        | succ i => exact ih i
    exact (empty git i).symm

theorem mirrorTracks {git : Epochs E} (fresh : NoRepeat git) (shown : Shown git) {j : Nat} {v : Inbox E M}
    (tracks : Tracks t git j v) {ks : List Nat} {k : Nat}
    (forward : (j :: (ks ++ [k])).Pairwise (· ≤ ·))
    (met : Along (fetchSync t git) (FetchMeets t git) v (ks ++ [k])) :
    Tracks t git k ((ks ++ [k]).foldl (fetchSync t git) v) := by
  induction ks generalizing j v with
  | nil =>
    have later := (List.pairwise_cons.mp forward).1 k (by simp)
    exact fetchTracks t fresh shown later tracks met.1
  | cons i ks ih =>
    obtain ⟨below,rest⟩ := List.pairwise_cons.mp forward
    have step := fetchTracks t fresh shown (below i (by simp)) tracks met.1
    exact ih step rest met.2

end

theorem mirrorAgrees (ops : List (SourceOp E M R)) (ks : List Nat) (k : Nat)
    (forward : (ks ++ [k]).Pairwise (· ≤ ·)) (whole : (source t ops).git.flatten.length ≤ k)
    (fresh : NoRepeat (source t ops).git) (shown : Shown (source t ops).git)
    (met : Along (fetchSync t (source t ops).git) (FetchMeets t (source t ops).git) .empty (ks ++ [k])) :
    (mirror t (source t ops).git (ks ++ [k])).mm = (source t ops).mm ∧
      (mirror t (source t ops).git (ks ++ [k])).over = (source t ops).over := by
  have first : (0 :: (ks ++ [k])).Pairwise (· ≤ ·) :=
    List.pairwise_cons.mpr ⟨fun i _ => Nat.zero_le i,forward⟩
  have tracks := mirrorTracks t fresh shown (emptyTracks t _) first met
  have same : (mirror t (source t ops).git (ks ++ [k])).toIndex = (source t ops).toIndex := by
    unfold mirror
    rw [tracks.index,cutAll whole,recsShown shown,← sourceReplays]
  exact ⟨congrArg Index.mm same,congrArg Index.over same⟩

/- `a` is reused for other content under `b`, its first message is removed in a second
session, `c` comes in a second epoch. -/
def reused : List (SourceOp Eml Mid Nat) :=
  [.add (letter ["<a>"] "one") [] false,.add (letter ["<a>","<b>"] "two") [] false,.done,
    .remove (letter ["<a>"] "one") keysAsFound false,.add (letter ["<c>"] "three") [] true]

-- The mirror fetches after each of the first two commits.
theorem reuseMirrored :
    (mirror letters (source letters reused).git ([1,2] ++ [4])).mm = (source letters reused).mm ∧
      (mirror letters (source letters reused).git ([1,2] ++ [4])).over = (source letters reused).over :=
  mirrorAgrees letters reused [1,2] 4 (by decide) (by decide +kernel) (by decide +kernel)
    (by decide +kernel) (by decide +kernel)

-- The source gives the second message of `a` number 2, the mirror 1 again.
theorem mirrorReusesNumber :
    ¬ ∀ (ops : List (SourceOp Eml Mid Nat)) (ks : List Nat) (k : Nat), (ks ++ [k]).Pairwise (· ≤ ·) →
      (source letters ops).git.flatten.length ≤ k →
      (mirror letters (source letters ops).git (ks ++ [k])).mm.rows = (source letters ops).mm.rows ∧
        (mirror letters (source letters ops).git (ks ++ [k])).over = (source letters ops).over := by
  intro agrees
  have same := agrees [.add (letter ["<a>"] "one") [] false,.remove (letter ["<a>"] "one") keysAsFound false,
    .add (letter ["<a>"] "two") [] false] [1] 3 (by decide) (by decide +kernel)
  have rows := congrArg Table.rows same.2
  revert rows
  decide +kernel

/- In the first session of an epoch the tree still has `one` when it is added again: git has no
line for that commit. -/
def addRemoveAdd : List (SourceOp Eml Mid Nat) :=
  [.add (letter ["<a>"] "one") [] false,.remove (letter ["<a>"] "one") keysAsFound false,
    .add (letter ["<a>"] "one") [] false]

example : NoRepeat (source letters addRemoveAdd).git ∧ ¬ Shown (source letters addRemoveAdd).git ∧
    (source letters addRemoveAdd).over.rows.length = 1 ∧
    (mirror letters (source letters addRemoveAdd).git [3]).over.rows.length = 0 := by
  decide +kernel

end mirror

end PublicInbox.V2Writable
