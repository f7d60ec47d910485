import Mathlib.Data.List.Induction
import PublicInbox.V2Writable.Mirror

/-! index_sync with {reindex}. Read newest first, each removal cancels the addition it
answers, so what is indexed again are the live messages in the order of their numbers; each
gets its number back unless a Message-ID that is tried earlier belongs to a later article. -/
namespace PublicInbox.V2Writable
open Keyed Stepwise

variable {E M H R : Type} [DecidableEq E] [DecidableEq M] [DecidableEq H] (t : Texts E M H R)

section counting

def bump (D : E → Nat) (b : E) : E → Nat := Function.update D b (D b + 1)

def answer (D : E → Nat) (b : E) : E → Nat := Function.update D b (D b - 1)

theorem bumpAnswer (D : E → Nat) (b : E) : answer (bump D b) b = D := by
  simp [answer,bump]

theorem answerBump {D : E → Nat} {b : E} (pending : 0 < D b) : bump (answer D b) b = D := by
  simp [answer,bump,Nat.sub_add_cancel pending]

theorem bumpComm (D : E → Nat) (b c : E) : bump (bump D b) c = bump (bump D c) b := by
  by_cases same : b = c
  · rw [same]
  · simp only [bump,Function.update_of_ne same,Function.update_of_ne (Ne.symm same)]
    exact Function.update_comm same _ _ _

theorem answerOther {b c : E} (other : c ≠ b) (D : E → Nat) :
    answer (bump D b) c = bump (answer D c) b := by
  simp only [bump,answer,Function.update_of_ne other,Function.update_of_ne other.symm]
  exact Function.update_comm other.symm _ _ _

theorem removalCancels (D : E → Nat) (b : E) (cs : List (Rec E)) :
    log2stack (bump D b) cs = if ⟨.m,b⟩ ∈ (log2stack D cs).2
      then ((log2stack D cs).1,(log2stack D cs).2.erase ⟨.m,b⟩)
      else (bump (log2stack D cs).1 b,(log2stack D cs).2) := by
  induction cs generalizing D with
  | nil => simp [log2stack]
  | cons c cs ih =>
    obtain ⟨file,blob⟩ := c
    cases file with
    | d =>
      have swapped := ih (bump D blob)
      rw [← bumpComm] at swapped
      exact swapped
    | m =>
      by_cases same : blob = b
      · subst same
        have pending : 0 < bump D blob blob := by simp [bump]
        have later : log2stack (bump D blob) (⟨.m,blob⟩ :: cs) = log2stack D cs := by
          simp only [log2stack,if_pos pending]
          exact congrArg (fun f => log2stack f cs) (bumpAnswer D blob)
        rw [later]
        by_cases before : 0 < D blob
        · have shorter := ih (answer D blob)
          rw [answerBump before] at shorter
          simp only [log2stack,if_pos before]
          exact shorter
        · simp [log2stack,before]
      · have count : bump D b blob = D blob := by simp [bump,same]
        by_cases before : 0 < D blob
        · have shorter := ih (answer D blob)
          rw [← answerOther same] at shorter
          have long : log2stack (bump D b) (⟨.m,blob⟩ :: cs) = log2stack (answer (bump D b) blob) cs := by
            simp only [log2stack]
            rw [if_pos (count ▸ before)]
            rfl
          have short : log2stack D (⟨.m,blob⟩ :: cs) = log2stack (answer D blob) cs := by
            simp only [log2stack]
            rw [if_pos before]
            rfl
          rw [long,short]
          exact shorter
        · have different : (⟨.m,b⟩ : Rec E) ≠ ⟨.m,blob⟩ := by
            intro eq
            cases eq
            exact same rfl
          simp only [log2stack,count,if_neg before,ih D,List.mem_cons,different,false_or]
          split
          · rw [List.erase_cons_tail (by simpa using different.symm)]
          · rfl

end counting

section filing

def Effective (s : Index E M) (c : Rec E) : Prop :=
  match c.file with
  | .m => ∃ mm num mid0, midInsert s.mm mid0 = some (mm,num) ∧ mid0 ∈ t.mids c.blob ∧
      deliver t s c.blob = ⟨mm,doIdx s.over num ⟨c.blob,mid0⟩⟩
  | .d => Live s.over c.blob

def messages (s : Index E M) : List (Rec E) := s.over.rows.map (fun r => ⟨.m,r.2.blob⟩)

structure Filed (h : List (Rec E)) (s : Index E M) : Prop where
  kept : log2stack (fun _ => 0) h.reverse = (fun _ => 0,(messages s).reverse)
  distinct : (messages s).Nodup
  named : ∀ n x, s.over.get? n = some x → s.mm.rows.get? n = some x.mid ∧ x.mid ∈ t.mids x.blob
  numbered : ∀ n, (s.mm.rows.get? n).isSome → (s.over.get? n).isSome

omit [DecidableEq E] [DecidableEq M] in
theorem memMessages {s : Index E M} {oid : E} : ⟨.m,oid⟩ ∈ messages s ↔ Live s.over oid := by
  unfold messages Live
  rw [List.mem_map]
  constructor
  · rintro ⟨r,mem,same⟩
    cases same
    exact ⟨r.1,r.2,Table.memRows.mp mem,rfl⟩
  · rintro ⟨n,x,row,rfl⟩
    exact ⟨(n,x),Table.memRows.mpr row,rfl⟩

section
omit [DecidableEq H]

theorem filedMessage {h : List (Rec E)} {s : Index E M} (filed : Filed t h s) {oid : E}
    (absent : ¬ Live s.over oid) (effective : Effective t s ⟨.m,oid⟩) :
    Filed t (h ++ [⟨.m,oid⟩]) (applyCommit t s ⟨.m,oid⟩) := by
  obtain ⟨mm,num,mid0,inserted,own,delivered⟩ := effective
  obtain ⟨fresh,next,seq,rows⟩ := midInsertSome inserted
  have below : ∀ r ∈ s.over.rows, r.1 < num := by
    intro r mem
    have row := Table.memRows.mp (show (r.1,r.2) ∈ s.over.rows from mem)
    have le := s.mm.below _ _ (filed.named r.1 r.2 row).1
    omega
  have last : (doIdx s.over num ⟨oid,mid0⟩).rows = s.over.rows ++ [(num,⟨oid,mid0⟩)] :=
    Table.putLast below
  have after : applyCommit t s ⟨.m,oid⟩ = ⟨mm,doIdx s.over num ⟨oid,mid0⟩⟩ := delivered
  have listed : messages (applyCommit t s ⟨.m,oid⟩) = messages s ++ [⟨.m,oid⟩] := by
    rw [after]
    unfold messages
    rw [last,List.map_append]
    rfl
  refine ⟨?_,?_,?_,?_⟩
  · rw [listed,List.reverse_append,List.reverse_append]
    simp only [List.reverse_cons,List.reverse_nil,List.nil_append,List.singleton_append,log2stack,
      filed.kept,Nat.lt_irrefl,if_false]
  · rw [listed,List.nodup_append]
    refine ⟨filed.distinct,List.nodup_singleton _,?_⟩
    intro c mem d single same
    rw [List.mem_singleton.mp single] at same
    exact absent (memMessages.mp (same ▸ mem))
  · intro n x found
    rw [after] at found ⊢
    simp only [doIdx,Table.getInsert] at found
    simp only [rows,Table.getInsert]
    split at found
    · rename_i same
      cases found
      exact ⟨if_pos same,own⟩
    · rename_i other
      rw [if_neg other]
      exact filed.named n x found
  · intro n some
    rw [after] at some ⊢
    simp only [rows,doIdx,Table.getInsert] at some ⊢
    split at some
    · rename_i same
      rw [if_pos same]
      rfl
    · rename_i other
      rw [if_neg other]
      exact filed.numbered n some

theorem filedRemoval {h : List (Rec E)} {s : Index E M} (filed : Filed t h s) {oid : E}
    (live : Live s.over oid) : Filed t (h ++ [⟨.d,oid⟩]) (applyCommit t s ⟨.d,oid⟩) := by
  have listed : messages (forget s oid) = (messages s).filter (fun c => c ≠ ⟨.m,oid⟩) := by
    unfold messages forget dropRows Table.filter
    rw [List.filter_map]
    refine congrArg (List.map _) (List.filter_congr (fun r _ => ?_))
    simp
  have cancelled := removalCancels (fun _ => 0) oid h.reverse
  refine ⟨?_,?_,?_,?_⟩
  · rw [filed.kept,if_pos (List.mem_reverse.mpr (memMessages.mpr live))] at cancelled
    simp only [List.reverse_append,List.reverse_cons,List.reverse_nil,List.nil_append,
      List.singleton_append,log2stack,applyCommit]
    refine cancelled.trans ?_
    rw [listed,(List.nodup_reverse.mpr filed.distinct).erase_eq_filter,← List.filter_reverse]
    simp [bne,beq_eq_decide]
  · simp only [applyCommit]
    rw [listed]
    exact filed.distinct.filter _
  · intro n x found
    obtain ⟨old,other⟩ := (forgetOver s oid n x).mp found
    have before := filed.named n x old
    refine ⟨(forgetMm s oid n x.mid).mpr ⟨before.1,?_⟩,before.2⟩
    rintro ⟨y,row,same⟩
    rw [old] at row
    cases row
    exact other same
  · intro n some
    obtain ⟨mid,found⟩ := Option.isSome_iff_exists.mp some
    obtain ⟨old,gone⟩ := (forgetMm s oid n mid).mp found
    obtain ⟨x,row⟩ := Option.isSome_iff_exists.mp (filed.numbered n (by rw [old]; rfl))
    exact Option.isSome_iff_exists.mpr ⟨x,(forgetOver s oid n x).mpr ⟨row,fun same => gone ⟨x,row,same⟩⟩⟩

theorem filedRun {h : List (Rec E)} (fresh : Along liveStep Unrepeated [] h)
    (effective : Along (applyCommit t) (Effective t) .empty h) :
    Filed t h (h.foldl (applyCommit t) .empty) := by
  induction h using List.reverseRecOn with
  | nil =>
    refine ⟨rfl,List.nodup_nil,?_,?_⟩
    · intro n x found
      simp [Index.empty] at found
    · intro n some
      simp [Index.empty,Auto.empty] at some
  | append_singleton h c ih =>
    rw [alongAppend] at fresh effective
    have filed := ih fresh.1 effective.1
    have covers := coversFold t (coversEmpty t) h
    rw [List.foldl_append]
    obtain ⟨file,oid⟩ := c
    cases file with
    | m => exact filedMessage t filed (notLive t covers (fresh.2.1 rfl)) effective.2.1
    | d => exact filedRemoval t filed effective.2.1

end

omit [DecidableEq E] [DecidableEq M] in
theorem messagesDrop (s : Index E M) (p : Smsg E M → Bool) :
    (messages (dropRows s p)).Sublist (messages s) :=
  (List.filter_sublist).map _

omit [DecidableEq H] in
theorem messagesFold (s : Index E M) (oids : List E) :
    (messages ((removals oids).foldl (applyCommit t) s)).Sublist (messages s) := by
  rw [replayRemovals]
  exact messagesDrop s _

omit [DecidableEq E] [DecidableEq H] in
theorem deliverCases (s : Index E M) (oid : E) :
    deliver t s oid = s ∨ ∃ mm num mid0, midInsert s.mm mid0 = some (mm,num) ∧ mid0 ∈ t.mids oid ∧
      deliver t s oid = ⟨mm,doIdx s.over num ⟨oid,mid0⟩⟩ := by
  unfold deliver
  split
  · exact Or.inl rfl
  · rename_i mid rest own
    split
    · rename_i mm num mid0 first
      obtain ⟨mem,inserted⟩ := insertFirstSome first
      refine Or.inr ⟨mm,num,mid0,inserted,?_,rfl⟩
      rw [own]
      simpa [List.mem_reverse] using mem
    · exact Or.inl rfl

omit [DecidableEq E] in
theorem addEffective {s : Index E M} {e e' : E} {rands : List R} {mm' : Auto M} {num : Int} {mid0 : M}
    (done : v2NumFor t s e rands = some (mm',num,mid0,e')) :
    Effective t s ⟨.m,t.dropUnwantedHeaders e'⟩ := by
  have delivered := numberDelivers t done
  have grown := (midInsertSome (numberInserts t done)).2.2.1
  rcases deliverCases t s (t.dropUnwantedHeaders e') with same | found
  · rw [same] at delivered
    rw [delivered] at grown
    dsimp only at grown
    omega
  · exact found

omit [DecidableEq H] in
theorem removalsEffective {s : Index E M} {rows : List (Int × Smsg E M)}
    (there : ∀ r ∈ rows, s.over.get? r.1 = some r.2) (distinct : (rows.map (·.2.blob)).Nodup) :
    Along (applyCommit t) (Effective t) s (removals (rows.map (·.2.blob))) := by
  induction rows generalizing s with
  | nil => trivial
  | cons r rs ih =>
    rw [List.map_cons,List.nodup_cons] at distinct
    refine ⟨⟨r.1,r.2,there r List.mem_cons_self,rfl⟩,?_⟩
    refine ih (fun q mem => ?_) distinct.2
    refine (forgetOver s r.2.blob q.1 q.2).mpr ⟨there q (List.mem_cons_of_mem _ mem),?_⟩
    intro same
    exact distinct.1 (List.mem_map.mpr ⟨q,mem,same⟩)

omit [DecidableEq E] in
theorem goneDistinct {s : Rewriting E M} (distinct : (messages s.toIndex).Nodup) (old : E)
    (keys : Shuffle (Int × Smsg E M)) (mid : M) :
    ((goneRowsOf t s old keys mid).map (·.2.blob)).Nodup := by
  have all : (s.over.rows.map (·.2.blob)).Nodup := by
    refine List.Nodup.of_map (fun b => (⟨.m,b⟩ : Rec E)) ?_
    rw [List.map_map]
    exact distinct
  have some : ((nextByMid t s.over mid).filter (fun r => contentMatches t old r.2)).Sublist s.over.rows :=
    List.filter_sublist.trans List.filter_sublist
  exact ((keys.property _).map _).nodup_iff.mpr ((some.map _).nodup all)

theorem rewriteEffective {v : Inbox E M} (distinct : (messages v.toIndex).Nodup) (old : E)
    (keys : Shuffle (Int × Smsg E M)) :
    Along (applyCommit t) (Effective t) v.toIndex
      (removals (rewriteInternal t .remove v old keys).removed) := by
  have loop : (rewriteInternal t .remove v old keys).toIndex =
        (removals (rewriteInternal t .remove v old keys).removed).foldl (applyCommit t) v.toIndex ∧
      (messages (rewriteInternal t .remove v old keys).toIndex).Nodup ∧
      Along (applyCommit t) (Effective t) v.toIndex
        (removals (rewriteInternal t .remove v old keys).removed) := by
    unfold rewriteInternal
    refine keepsAll (fun s : Rewriting E M =>
      s.toIndex = (removals s.removed).foldl (applyCommit t) v.toIndex ∧ (messages s.toIndex).Nodup ∧
      Along (applyCommit t) (Effective t) v.toIndex (removals s.removed)) ?_ ⟨rfl,distinct,trivial⟩
    rintro s mid _ ⟨index,nodup,effective⟩
    obtain ⟨removed,after⟩ := rewriteMidRemovals t old keys s mid
    have there : ∀ r ∈ goneRowsOf t s old keys mid, s.over.get? r.1 = some r.2 :=
      fun r mem => ((goneRows t).mp mem).1
    have now := removalsEffective t there (goneDistinct t nodup old keys mid)
    have both : removals (s.removed ++ (goneRowsOf t s old keys mid).map (·.2.blob)) =
        removals s.removed ++ removals ((goneRowsOf t s old keys mid).map (·.2.blob)) :=
      List.map_append
    rw [removed,both]
    refine ⟨?_,?_,?_⟩
    · rw [List.foldl_append,← index]
      exact after
    · rw [after]
      exact (messagesFold t s.toIndex _).nodup nodup
    · rw [alongAppend,← index]
      exact ⟨effective,now⟩
  exact loop.2.2

theorem sourceEffective (ops : List (SourceOp E M R)) (fresh : NoRepeat (source t ops).git) :
    Along (applyCommit t) (Effective t) .empty (history (source t ops).git) := by
  induction ops using List.reverseRecOn with
  | nil => trivial
  | append_singleton ops op ih =>
    have last : source t (ops ++ [op]) = sourceStep t (source t ops) op := by
      unfold source
      rw [List.foldl_append]
      rfl
    rw [last] at fresh ⊢
    -- the history before the operation is a prefix
    have before : NoRepeat (source t ops).git := by
      obtain ⟨cs,commits,_⟩ := sourceStepReplays t (source t ops) op
      unfold NoRepeat at fresh ⊢
      rw [commits,alongAppend] at fresh
      exact fresh.1
    have sofar := ih before
    have filed := filedRun t before sofar
    rw [← sourceReplays] at filed
    have idle : ∃ cs, history (source t ops).git = history (source t ops).git ++ cs ∧
        Along (applyCommit t) (Effective t) (source t ops).toIndex cs := ⟨[],by simp,trivial⟩
    have more : ∃ cs, history (sourceStep t (source t ops) op).git = history (source t ops).git ++ cs ∧
        Along (applyCommit t) (Effective t) (source t ops).toIndex cs := by
      cases op with
      | add e rands rotate =>
        simp only [sourceStep,add]
        split
        · exact idle
        · rename_i numbered
          exact ⟨_,commitHistory _ _ _,addEffective t numbered,trivial⟩
      | remove old keys rotate =>
        simp only [sourceStep,remove]
        split
        · exact idle
        · split
          · exact idle
          · exact ⟨_,removeHistory _ _ _,rewriteEffective t filed.distinct old keys⟩
      | done => exact idle
    obtain ⟨cs,commits,effective⟩ := more
    rw [commits,alongAppend,← sourceReplays]
    exact ⟨sofar,effective⟩

end filing

section heads

def Touched (git git' : Epochs E) : Prop := ∀ i, i ≠ git'.length - 1 → git'[i]? = git[i]?

omit [DecidableEq E] in
theorem commitTouched (rotate : Bool) (c : Commit E) (git : Epochs E) :
    Touched git (Epochs.commit rotate c git) ∧ Epochs.commit rotate c git ≠ [] := by
  induction git with
  | nil =>
    refine ⟨fun i other => ?_,List.cons_ne_nil _ _⟩
    simp only [Epochs.commit,List.length_singleton] at other ⊢
    rw [List.getElem?_eq_none (by simp; omega)]
    rfl
  | cons epoch rest ih =>
    cases rest with
    | nil =>
      cases rotate with
      | true =>
        refine ⟨fun i other => ?_,by simp [Epochs.commit]⟩
        simp only [Epochs.commit] at other ⊢
        cases i with
        | zero => rfl
        | succ i =>
          cases i with
          | zero => simp at other
          | succ i => rfl
      | false =>
        refine ⟨fun i other => ?_,by simp [Epochs.commit]⟩
        simp only [Epochs.commit] at other ⊢
        cases i with
        | zero => simp at other
        | succ i => rfl
    | cons e es =>
      obtain ⟨same,some⟩ := ih
      have positive : 0 < (Epochs.commit rotate c (e :: es)).length := List.length_pos_iff.mpr some
      refine ⟨fun i other => ?_,List.cons_ne_nil _ _⟩
      rw [Epochs.commit] at other ⊢
      cases i with
      | zero => rfl
      | succ i =>
        rw [List.length_cons] at other
        exact same i (by omega)

omit [DecidableEq E] in
theorem commitLength (c : Commit E) {git : Epochs E} (some : git ≠ []) :
    (Epochs.commit false c git).length = git.length := by
  induction git with
  | nil => contradiction
  | cons epoch rest ih =>
    cases rest with
    | nil => rfl
    | cons e es =>
      rw [Epochs.commit,List.length_cons,ih (List.cons_ne_nil _ _)]
      rfl

def Tips (v : Inbox E M) : Prop := ∀ i, v.last i = v.git[i]?.getD []

omit [DecidableEq E] in
theorem tipsNewest {git git' : Epochs E} (touched : Touched git git') {last : Nat → List (Commit E)}
    (tips : ∀ i, last i = git[i]?.getD []) (i : Nat) : lastNewest git' last i = git'[i]?.getD [] := by
  unfold lastNewest
  by_cases newest : i = git'.length - 1
  · rw [newest,Function.update_self,Epochs.tip,List.getLast?_eq_getElem?]
  · rw [Function.update_of_ne newest,touched i newest,tips i]

omit [DecidableEq E] in
theorem removeTouched (clean : Bool) (oids : List E) {git : Epochs E} (some : git ≠ []) :
    Touched git (removeCommits clean oids git) := by
  have loop : (removeCommits clean oids git).length = git.length ∧
      Touched git (removeCommits clean oids git) := by
    unfold removeCommits
    refine keepsAll (fun g : Epochs E => g.length = git.length ∧ Touched git g) ?_
      ⟨rfl,fun _ _ => rfl⟩
    rintro g oid _ ⟨length,touched⟩
    have full : g ≠ [] := fun none => some (List.length_eq_zero_iff.mp (by rw [← length,none]; rfl))
    refine ⟨(commitLength _ full).trans length,fun i other => ?_⟩
    rw [(commitTouched false ⟨⟨.d,oid⟩,clean⟩ g).1 i other]
    rw [commitLength _ full] at other
    exact touched i other
  exact loop.2

theorem sourceTips (ops : List (SourceOp E M R)) : Tips (source t ops) := by
  unfold source
  refine keepsAll Tips ?_ (fun i => by simp [Inbox.empty])
  intro v op _ tips
  cases op with
  | add e rands rotate =>
    simp only [sourceStep,add]
    split
    · exact tips
    · exact tipsNewest (commitTouched _ _ _).1 tips
  | remove old keys rotate =>
    simp only [sourceStep,remove]
    split
    · exact tips
    · split
      · exact tips
      · rename_i starts
        have some : v.git ≠ [] := by
          intro none
          simp [none,Epochs.tip] at starts
        exact tipsNewest (removeTouched _ _ some) tips
  | done => exact tips

end heads

section layers

theorem log2stackAppend (D : E → Nat) (xs ys : List (Rec E)) :
    log2stack D (xs ++ ys) = ((log2stack (log2stack D xs).1 ys).1,
      (log2stack D xs).2 ++ (log2stack (log2stack D xs).1 ys).2) := by
  induction xs generalizing D with
  | nil => rfl
  | cons c cs ih =>
    obtain ⟨file,blob⟩ := c
    cases file with
    | d => exact ih _
    | m =>
      simp only [List.cons_append,log2stack]
      split
      · exact ih _
      · rw [ih]
        rfl

theorem linesWhole (tip : List (Commit E)) : lines [] tip = rawLog .empty tip := rfl

structure Prepared (last : Nat → List (Commit E)) (todo : List (Todo E)) : Prop where
  plain : ∀ unit ∈ todo, unit.unindex = []
  heads : ∀ unit ∈ todo, unit.tip = last unit.epoch

theorem prepareStacks {git : Epochs E} {last : Nat → List (Commit E)}
    (tips : ∀ i, last i = git[i]?.getD []) {n : Nat} (le : n ≤ git.length) (D : E → Nat)
    {todo : List (Todo E)} (prepared : Prepared last todo) :
    (reindexPrepare last n D todo).1 = (log2stack D (recs (git.take n)).reverse).1 ∧
    (reindexPrepare last n D todo).2.flatMap Todo.stack =
      (log2stack D (recs (git.take n)).reverse).2.reverse ++ todo.flatMap Todo.stack ∧
    Prepared last (reindexPrepare last n D todo).2 := by
  induction n generalizing D todo with
  | zero => simpa [reindexPrepare,recs,log2stack] using prepared
  | succ n ih =>
    have inside : n < git.length := le
    have whole : recs (git.take (n + 1)) = recs (git.take n) ++ rawLog .empty (last n) := by
      rw [tips n,List.getElem?_eq_getElem inside,List.take_succ_eq_append_getElem inside]
      unfold recs
      rw [List.flatMap_append,List.flatMap_singleton]
      rfl
    rw [whole,List.reverse_append,log2stackAppend]
    unfold reindexPrepare
    by_cases new : last n = []
    · rw [if_pos new,new]
      simp only [rawLog,List.reverse_nil,log2stack,List.nil_append]
      exact ih (Nat.le_of_succ_le le) D prepared
    · rw [if_neg new]
      simp only [linesWhole]
      have now : Prepared last (⟨n,[],(log2stack D (rawLog .empty (last n)).reverse).2.reverse,
          last n,last n⟩ :: todo) := by
        constructor
        · rintro unit mem
          rcases List.mem_cons.mp mem with rfl | mem
          · rfl
          · exact prepared.plain unit mem
        · rintro unit mem
          rcases List.mem_cons.mp mem with rfl | mem
          · rfl
          · exact prepared.heads unit mem
      obtain ⟨first,layers,later⟩ := ih (Nat.le_of_succ_le le)
        (log2stack D (rawLog .empty (last n)).reverse).1 now
      refine ⟨first,?_,later⟩
      rw [layers,List.flatMap_cons,List.reverse_append,List.append_assoc]

omit [DecidableEq E] in
theorem headsStay {last : Nat → List (Commit E)} {todo : List (Todo E)} (prepared : Prepared last todo) :
    todo.foldl updateLastCommit last = last := by
  refine stays (fun unit mem => ?_)
  unfold updateLastCommit
  split
  · rfl
  · rw [prepared.heads unit mem]
    exact Function.update_eq_self _ _

omit [DecidableEq H] in
theorem nothingNew (held : Nat → Bool) {v : Inbox E M} (tips : Tips v) : indexSync t held v = v := by
  have none : syncPrepare held v = [] := by
    unfold syncPrepare
    rw [List.filterMap_eq_nil_iff]
    rintro ⟨tip,i⟩ mem
    have here : v.git[i]? = some tip := by simpa using List.mk_mem_zipIdx_iff_getElem?.mp mem
    have same : v.last i = tip := by rw [tips i,here]; rfl
    unfold prepareEpoch
    split
    · rfl
    · rename_i some
      simp [logRange,same,some]
  unfold indexSync
  rw [none]
  rfl

end layers

section again

omit [DecidableEq H] in
theorem indexAgain {s : Sync E M} {oid : E} (plain : s.unindexed oid = []) (live : Live s.over oid)
    (some : t.mids oid ≠ []) : (indexOid t s oid).toIndex = s.toIndex ∧
      (indexOid t s oid).unindexed = s.unindexed := by
  cases own : t.mids oid with
  | nil => contradiction
  | cons mid rest =>
    obtain ⟨n,x,row,same,found⟩ := numMid0Found t live (own ▸ List.mem_cons_self)
    have known : (mid :: rest).findSome? (numMid0ForOid t s.over oid) = .some (n,x.mid) := by
      rw [List.findSome?_cons,found]
    have article : (⟨oid,x.mid⟩ : Smsg E M) = x := by
      rw [← same]
    simp only [indexOid,own,if_neg (notPurged t own),takeUnindexed,plain,knownNum,known,doIdx]
    rw [article,insertSame row]
    exact ⟨rfl,trivial⟩

omit [DecidableEq H] in
theorem againIntact {s : Sync E M} {cs : List (Rec E)} (plain : ∀ b, s.unindexed b = [])
    (live : ∀ c ∈ cs, c.file = .m ∧ Live s.over c.blob ∧ t.mids c.blob ≠ []) :
    (cs.foldl (indexRecord t) s).toIndex = s.toIndex := by
  have run : (cs.foldl (indexRecord t) s).toIndex = s.toIndex ∧
      ∀ b, (cs.foldl (indexRecord t) s).unindexed b = [] := by
    refine keepsAll (fun u : Sync E M => u.toIndex = s.toIndex ∧ ∀ b, u.unindexed b = []) ?_ ⟨rfl,plain⟩
    rintro u c mem ⟨same,none⟩
    obtain ⟨file,here,some⟩ := live c mem
    rw [← congrArg Index.over same] at here
    have again := indexAgain t (none c.blob) here some
    simp only [indexRecord,file]
    exact ⟨again.1.trans same,fun b => by rw [again.2]; exact none b⟩
  exact run.1

/- The Message-IDs that index_oid tries before the one an article is registered under: none
of them is registered to a later article. -/
def EarlierIds (s : Index E M) (n : Int) (x : Smsg E M) : Prop :=
  match t.mids x.blob with
  | [] => True
  | mid :: rest => ∀ m ∈ (mid :: rest.reverse).takeWhile (fun m => m ≠ x.mid),
      ∀ k ∈ s.mm.keyOf m, k < n

def InOrder (s : Index E M) : Prop := ∀ r ∈ s.over.rows, EarlierIds t s r.1 r.2

instance (s : Index E M) (n : Int) (x : Smsg E M) : Decidable (EarlierIds t s n x) := by
  unfold EarlierIds
  cases t.mids x.blob <;> infer_instance

instance (s : Index E M) : Decidable (InOrder t s) := by
  unfold InOrder
  infer_instance

theorem findSomeAfter {α β : Type} [DecidableEq α] {f : α → Option β} {xs : List α} {a : α} {y : β}
    (mem : a ∈ xs) (found : f a = some y) (before : ∀ x ∈ xs.takeWhile (fun x => x ≠ a), f x = none) :
    xs.findSome? f = some y := by
  induction xs with
  | nil => contradiction
  | cons x xs ih =>
    by_cases same : x = a
    · rw [same,List.findSome?_cons,found]
    · have head : f x = none := before x (by simp [same])
      rw [List.findSome?_cons,head]
      refine ih ((List.mem_cons.mp mem).resolve_left (Ne.symm same)) (fun z inside => before z ?_)
      simp only [List.takeWhile_cons,decide_eq_true (show x ≠ a from same),if_true]
      exact List.mem_cons_of_mem _ inside

theorem gotBeforeOpen {s : Sync E M} {oid : E} {mid : M} (rest : List M)
    (clear : ∀ k ∈ s.mmTmp.keyOf mid, s.over.get? k = none) :
    gotBefore s oid mid rest = (mid :: rest.reverse).findSome? (numBefore s.mmTmp) := by
  unfold gotBefore
  rw [List.findSome?_cons]
  unfold numBefore
  cases found : s.mmTmp.keyOf mid with
  | none => rfl
  | some k =>
    have free : s.over.get? k = none := clear k found
    simp [Option.filter,free]

structure Refilling (v : Index E M) (done : List (Int × Smsg E M)) (s : Sync E M) : Prop where
  «over» : s.over.rows = done
  mm : s.mm = v.mm
  tmp : ∀ k mid, s.mmTmp.rows.get? k = some mid ↔ v.mm.rows.get? k = some mid ∧ k ∉ done.map Prod.fst
  plain : ∀ b, s.unindexed b = []

section
omit [DecidableEq H]

theorem refillStep {h : List (Rec E)} {v : Index E M} (filed : Filed t h v) (inOrder : InOrder t v)
    {done rest : List (Int × Smsg E M)} {r : Int × Smsg E M} (split : v.over.rows = done ++ r :: rest)
    {s : Sync E M} (filling : Refilling v done s) :
    Refilling v (done ++ [r]) (indexOid t s r.2.blob) := by
  obtain ⟨n,x⟩ := r
  have mem : (n,x) ∈ v.over.rows := by rw [split]; simp
  have row := Table.memRows.mp mem
  have named := filed.named n x row
  have sorted := v.over.sorted
  rw [split,List.pairwise_append] at sorted
  have above : ∀ q ∈ rest, n < q.1 := (List.pairwise_cons.mp sorted.2.1).1
  have below : ∀ q ∈ done, q.1 < n := fun q inside => sorted.2.2 q inside (n,x) List.mem_cons_self
  have fresh : n ∉ done.map Prod.fst := by
    intro inside
    obtain ⟨q,here,same⟩ := List.mem_map.mp inside
    have less := below q here
    omega
  have absent : ¬ Live s.over x.blob := by
    rintro ⟨k,y,found,same⟩
    have inside := Table.memRows.mpr found
    rw [filling.over] at inside
    have all := filed.distinct
    unfold messages at all
    rw [split,List.map_append,List.nodup_append] at all
    refine all.2.2 ⟨.m,y.blob⟩ (List.mem_map.mpr ⟨(k,y),inside,rfl⟩) ⟨.m,x.blob⟩ (by simp) ?_
    rw [same]
  -- a number that the clone still has is not in over yet, and not below this article's
  have later : ∀ m k, s.mmTmp.keyOf m = some k → s.over.get? k = none ∧ ¬ k < n := by
    intro m k found
    obtain ⟨known,outside⟩ := (filling.tmp k m).mp (Auto.keyOfExact.mp found)
    constructor
    · cases here : s.over.get? k with
      | none => rfl
      | some y =>
        have inside := Table.memRows.mpr here
        rw [filling.over] at inside
        exact absurd (List.mem_map.mpr ⟨(k,y),inside,rfl⟩) outside
    · intro less
      obtain ⟨y,here⟩ := Option.isSome_iff_exists.mp (filed.numbered k (by rw [known]; rfl))
      have inside := Table.memRows.mpr here
      rw [split,List.mem_append,List.mem_cons] at inside
      rcases inside with inside | same | inside
      · exact outside (List.mem_map.mpr ⟨(k,y),inside,rfl⟩)
      · have key := congrArg Prod.fst same
        simp only at key
        omega
      · have greater := above (k,y) inside
        simp only at greater
        omega
  cases own : t.mids x.blob with
  | nil =>
    rw [own] at named
    exact absurd named.2 List.not_mem_nil
  | cons mid ids =>
    have ordered := inOrder (n,x) mem
    unfold EarlierIds at ordered
    rw [own] at ordered
    have mine : numBefore s.mmTmp x.mid = some (n,x.mid) := by
      unfold numBefore
      rw [Auto.keyOfExact.mpr ((filling.tmp n x.mid).mpr ⟨named.1,fresh⟩)]
      rfl
    have inIds : x.mid ∈ mid :: ids.reverse := by
      have listed := named.2
      rw [own] at listed
      simpa [List.mem_reverse] using listed
    have got : gotBefore s x.blob mid ids = some (n,x.mid) := by
      rw [gotBeforeOpen ids (fun k found => (later mid k found).1)]
      refine findSomeAfter inIds mine (fun m early => ?_)
      unfold numBefore
      cases found : s.mmTmp.keyOf m with
      | none => rfl
      | some k =>
        have known := ((filling.tmp k m).mp (Auto.keyOfExact.mp found)).1
        exact absurd (ordered m early k (Auto.keyOfExact.mpr known)) (later m k found).2
    have unknown : (mid :: ids).findSome? (numMid0ForOid t s.over x.blob) = none :=
      List.findSome?_eq_none_iff.mpr (fun m _ => numMid0Absent t absent m)
    simp only [indexOid,own,if_neg (notPurged t own),takeUnindexed,filling.plain x.blob,knownNum,
      unknown,got]
    refine ⟨?_,filling.mm,?_,filling.plain⟩
    · have last : ∀ q ∈ s.over.rows, q.1 < n := by
        rw [filling.over]
        exact below
      refine (Table.putLast last).trans ?_
      rw [filling.over]
    · intro k m
      rw [deleteKeyGet,List.map_append,List.mem_append]
      split
      · rename_i same
        subst same
        simp
      · rename_i other
        rw [filling.tmp k m]
        simp [other]

theorem refill {h : List (Rec E)} {v : Index E M} (filed : Filed t h v) (inOrder : InOrder t v)
    {done rest : List (Int × Smsg E M)} (split : v.over.rows = done ++ rest) {s : Sync E M}
    (filling : Refilling v done s) :
    Refilling v v.over.rows
      ((rest.map (fun r => (⟨.m,r.2.blob⟩ : Rec E))).foldl (indexRecord t) s) := by
  induction rest generalizing done s with
  | nil =>
    rw [List.append_nil] at split
    rw [split]
    exact filling
  | cons r rest ih =>
    have step := refillStep t filed inOrder split filling
    exact ih (by rw [split,List.append_assoc,List.singleton_append]) step

theorem againRemoved {h : List (Rec E)} {v : Index E M} (filed : Filed t h v)
    (inOrder : InOrder t v) :
    ((messages v).foldl (indexRecord t) (Sync.start ⟨v.mm,.empty⟩)).toIndex = v := by
  have start : Refilling v [] (Sync.start ⟨v.mm,.empty⟩) :=
    ⟨rfl,rfl,fun k mid => by simp [Sync.start],fun _ => rfl⟩
  have filled := refill t filed inOrder (List.nil_append v.over.rows).symm start
  refine indexSame filled.mm (Table.ext (fun k => ?_))
  unfold Table.get?
  exact congrArg (Table.find k) filled.over

end

theorem reindexRuns {ops : List (SourceOp E M R)} (fresh : NoRepeat (source t ops).git)
    (shown : Shown (source t ops).git)
    (held : Nat → Bool) (ov : Table Int (Smsg E M))
    (same : ((messages (source t ops).toIndex).foldl (indexRecord t)
      (Sync.start ⟨(source t ops).mm,ov⟩)).toIndex = (source t ops).toIndex) :
    reindexSync t held { source t ops with «over» := ov } = source t ops := by
  have effective := sourceEffective t ops fresh
  have filed := filedRun t fresh effective
  rw [← sourceReplays] at filed
  have tips := sourceTips t ops
  have none : Prepared (source t ops).last ([] : List (Todo E)) := ⟨by simp,by simp⟩
  obtain ⟨counts,layers,prepared⟩ := prepareStacks tips (Nat.le_refl _) (fun _ => 0) none
  rw [List.take_length,recsShown shown,filed.kept] at counts layers
  rw [List.reverse_reverse,List.flatMap_nil,List.append_nil] at layers
  have nothing : leftovers (source t ops).last (source t ops).git.length
      (reindexPrepare (source t ops).last (source t ops).git.length (fun _ => 0) []).1 = [] := by
    unfold leftovers
    rw [counts]
    simp
  have run := unitsRun t prepared.plain (s := Sync.start ⟨(source t ops).mm,ov⟩)
    (p := fun _ _ => True) (alongAll (fun _ _ => alongAll (fun _ _ => trivial) _ _) _ _)
  have processed : processTodo t ⟨(source t ops).mm,ov⟩
      (reindexPrepare (source t ops).last (source t ops).git.length (fun _ => 0) []).2 =
      (source t ops).toIndex := by
    unfold processTodo
    rw [run.1,layers]
    exact same
  have mm : (if (reindexPrepare (source t ops).last (source t ops).git.length (fun _ => 0) []).2.all
      (fun unit => unit.stack = []) then (source t ops).mm else (source t ops).mm) =
      (source t ops).mm := ite_self _
  have whole : reindexSync t held { source t ops with «over» := ov } =
      indexSync t held (source t ops) := by
    unfold reindexSync
    dsimp only
    rw [nothing,List.foldl_nil]
    simp only [Sync.start,mm,processed,headsStay prepared]
  rw [whole,nothingNew t held tips]

theorem reindexIsStable (ops : List (SourceOp E M R)) (held : Nat → Bool)
    (fresh : NoRepeat (source t ops).git) (shown : Shown (source t ops).git) :
    (reindexSync t held (source t ops)).toIndex = (source t ops).toIndex ∧
      (InOrder t (source t ops).toIndex →
        (reindexSync t held { source t ops with «over» := .empty }).toIndex = (source t ops).toIndex) := by
  have filed := filedRun t fresh (sourceEffective t ops fresh)
  rw [← sourceReplays] at filed
  constructor
  · refine congrArg Inbox.toIndex (reindexRuns t fresh shown held (source t ops).over ?_)
    refine againIntact t (fun _ => rfl) ?_
    intro c mem
    obtain ⟨r,inside,rfl⟩ := List.mem_map.mp mem
    have row := Table.memRows.mp (show (r.1,r.2) ∈ (source t ops).over.rows from inside)
    exact ⟨rfl,⟨r.1,r.2,row,rfl⟩,List.ne_nil_of_mem (filed.named r.1 r.2 row).2⟩
  · intro inOrder
    exact congrArg Inbox.toIndex (reindexRuns t fresh shown held .empty (againRemoved t filed inOrder))

-- `reused` leaves a message under its second Message-ID, and a second epoch.
theorem reuseReindexed :
    (reindexSync letters (fun _ => true) (source letters reused)).toIndex =
        (source letters reused).toIndex ∧
      (reindexSync letters (fun _ => true) { source letters reused with «over» := .empty }).toIndex =
        (source letters reused).toIndex :=
  ⟨(reindexIsStable letters reused (fun _ => true) (by decide +kernel) (by decide +kernel)).1,
    (reindexIsStable letters reused (fun _ => true) (by decide +kernel) (by decide +kernel)).2
      (by decide +kernel)⟩

/- `two` is under `b` because `a` was taken; after `three` has got `a`, `two` is given the
number of `three` when over is built anew, and `three` is dropped. -/
def takenBack : List (SourceOp Eml Mid Nat) :=
  [.add (letter ["<a>"] "one") [] false,.add (letter ["<a>","<b>"] "two") [] false,
    .remove (letter ["<a>"] "one") keysAsFound false,.add (letter ["<a>"] "three") [] false]

theorem reindexMovesNumber :
    ¬ ∀ (ops : List (SourceOp Eml Mid Nat)) (held : Nat → Bool) (n : Int) (x : Smsg Eml Mid),
      (source letters ops).over.get? n = some x →
      (((reindexSync letters held (source letters ops)).over.get? n).map Smsg.blob = some x.blob ∧
        (reindexSync letters held (source letters ops)).mm.rows.get? n =
          (source letters ops).mm.rows.get? n) ∧
      (((reindexSync letters held { source letters ops with «over» := .empty }).over.get? n).map
          Smsg.blob = some x.blob ∧
        (reindexSync letters held { source letters ops with «over» := .empty }).mm.rows.get? n =
          (source letters ops).mm.rows.get? n) := by
  intro stable
  have kept := stable takenBack (fun _ => true) 2 ⟨letter ["<a>","<b>"] "two",⟨"b",by decide⟩⟩
    (by decide +kernel)
  revert kept
  decide +kernel

-- The second addition of `one` has no line, so nothing is indexed where over is built anew.
example : (source letters addRemoveAdd).over.rows.length = 1 ∧
    (reindexSync letters (fun _ => true)
      { source letters addRemoveAdd with «over» := .empty }).over.rows.length = 0 := by
  decide +kernel

end again

end PublicInbox.V2Writable
