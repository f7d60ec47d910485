import PublicInbox.ExtSearchIdx.Tables

/-! eidx_dedupe: the documents linked to one Message-ID are read from git, grouped by content
hash, and each group is merged into its first document. -/
namespace PublicInbox.ExtSearchIdx
open Keyed Ei
variable {B M H : Type} [LinearOrder B] [DecidableEq M] [DecidableEq H] (t : Mails B M H)
  (cat : B → Found)

def fetch (ov : Table Nat B) : List Nat → List (Nat × B)
  | [] => []
  | num :: nums => match ov.get? num with
    | none => []
    | some blob => (num,blob) :: fetch ov nums

def smsgs (s : Ei B M) (mid : M) : List (Nat × B) :=
  fetch s.over ((s.linked mid).filter (fun num => 0 < num))

abbrev Groups (B H : Type) := List (H × List (Nat × B))

def collect (x : Nat × B) (chash : H) : Groups B H → Groups B H
  | [] => [(chash,[x])]
  | g :: gs => if g.1 = chash then (chash,g.2 ++ [x]) :: gs else g :: collect x chash gs

def collectAnswer (gs : Groups B H) (x : Nat × B) : Groups B H :=
  if cat x.2 = .blob then collect x (t.contentHash x.2) gs else gs

def mergeGone (keep : Nat) (s : Ei B M) (x : Nat × B) : Ei B M :=
  (s.mergeXref3 keep x.1 x.2).removeDoc x.1

def mergeGroup (dryRun : Bool) (s : Ei B M) : List (Nat × B) → Ei B M
  | [] => s
  | keep :: ary => if dryRun then s else ary.foldl (mergeGone keep.1) s

def mergeGroups (dryRun : Bool) (gs : Groups B H) (s : Ei B M) : Ei B M :=
  gs.foldl (fun s g => mergeGroup dryRun s g.2) s

def Ends (dryRun : Bool) (last : Nat) (x : Nat × B) (v v' : Groups B H × Ei B M) : Prop :=
  if x.1 = last then ∃ gs : Groups B H, gs.Perm v.1 ∧ v' = (v.1,mergeGroups dryRun gs v.2) else v' = v

/- The callbacks of the requests in flight. _blob_missing waits for those sent before it was
called, `front`, and only then drops its rows. -/
inductive DdSmsg (dryRun : Bool) (last : Nat) :
    List (Nat × B) → Groups B H × Ei B M → Groups B H × Ei B M → Prop where
  | nil (v) : DdSmsg dryRun last [] v v
  | read {x xs v v' w} (answer : cat x.2 ≠ .missing)
      (ends : Ends dryRun last x (collectAnswer t cat v.1 x,v.2) v')
      (next : DdSmsg dryRun last xs v' w) : DdSmsg dryRun last (x :: xs) v w
  | missing {x front back v u v' w} (answer : cat x.2 = .missing)
      (waited : DdSmsg dryRun last front v u)
      (ends : Ends dryRun last x (u.1,u.2.blobMissing x) v')
      (next : DdSmsg dryRun last back v' w) : DdSmsg dryRun last (x :: (front ++ back)) v w

inductive Dedupes (dryRun : Bool) (mid : M) (s : Ei B M) : Ei B M → Prop where
  | next (few : (smsgs s mid).length < 2) : Dedupes dryRun mid s s
  | waited {last gs s'} (final : (smsgs s mid).getLast? = some last) (many : 2 ≤ (smsgs s mid).length)
      (run : DdSmsg t cat dryRun last.1 (smsgs s mid) ([],s) (gs,s')) : Dedupes dryRun mid s s'

def culledOf : List (Nat × B) → List (Nat × Nat × B)
  | [] => []
  | keep :: ary => ary.map (fun x => (keep.1,x))

def culled (dryRun : Bool) (gs : Groups B H) : List (Nat × Nat × B) :=
  if dryRun then [] else gs.flatMap (fun g => culledOf g.2)

def Merged (d : List (Nat × Nat × B)) (has : Xref3 B → Prop) (r : Xref3 B) : Prop :=
  (has r ∧ ∀ p ∈ d, ¬ (r.docid = p.2.1 ∧ r.oidbin = p.2.2)) ∨
    ∃ p ∈ d, r.docid = p.1 ∧ r.oidbin = p.2.2 ∧ has { r with docid := p.2.1 }

structure Apart (d : List (Nat × Nat × B)) : Prop where
  dropped : (d.map (fun p => p.2.1)).Nodup
  kept : ∀ p ∈ d, ∀ q ∈ d, p.1 ≠ q.2.1

omit [DecidableEq M] in
theorem mergeGoneHas (s : Ei B M) {keep : Nat} {x : Nat × B} (apart : keep ≠ x.1) (r : Xref3 B) :
    (mergeGone keep s x).xref3.Has r ↔ (s.xref3.Has r ∧ ¬ (r.docid = x.1 ∧ r.oidbin = x.2)) ∨
      (r.docid = keep ∧ r.oidbin = x.2 ∧ s.xref3.Has { r with docid := x.1 }) := mergeHas apart

omit [DecidableEq M] in
theorem mergeFold {d : List (Nat × Nat × B)} (apart : Apart d) (s : Ei B M) (r : Xref3 B) :
    (d.foldl (fun s p => mergeGone p.1 s p.2) s).xref3.Has r ↔ Merged d s.xref3.Has r := by
  induction d generalizing s with
  | nil => simp [Merged]
  | cons p d ih =>
    obtain ⟨dropped,kept⟩ := apart
    simp only [List.map_cons,List.nodup_cons,List.mem_map,not_exists,not_and] at dropped
    have rest : Apart d := ⟨dropped.2,fun p mem q mem' =>
      kept p (List.mem_cons_of_mem _ mem) q (List.mem_cons_of_mem _ mem')⟩
    have step := mergeGoneHas s (kept p List.mem_cons_self p List.mem_cons_self)
    rw [List.foldl_cons,ih rest]
    unfold Merged
    simp only [step,List.mem_cons,forall_eq_or_imp,exists_eq_or_imp]
    have later : (∃ q ∈ d, r.docid = q.1 ∧ r.oidbin = q.2.2 ∧
          (s.xref3.Has { r with docid := q.2.1 } ∧ ¬ (q.2.1 = p.2.1 ∧ r.oidbin = p.2.2) ∨
            q.2.1 = p.1 ∧ r.oidbin = p.2.2 ∧ s.xref3.Has { r with docid := p.2.1 })) ↔
        ∃ q ∈ d, r.docid = q.1 ∧ r.oidbin = q.2.2 ∧ s.xref3.Has { r with docid := q.2.1 } := by
      refine exists_congr fun q => and_congr_right fun mem => ?_
      have other := dropped.1 q mem
      have notKept := kept p List.mem_cons_self q (List.mem_cons_of_mem _ mem)
      simp only [other,false_and,not_false_eq_true,and_true,Ne.symm notKept,or_false]
    have safe : (r.docid = p.1 ∧ r.oidbin = p.2.2 ∧ s.xref3.Has { r with docid := p.2.1 }) ∧
          (∀ q ∈ d, ¬ (r.docid = q.2.1 ∧ r.oidbin = q.2.2)) ↔
        r.docid = p.1 ∧ r.oidbin = p.2.2 ∧ s.xref3.Has { r with docid := p.2.1 } :=
      and_iff_left_of_imp fun moved q mem both =>
        kept p List.mem_cons_self q (List.mem_cons_of_mem _ mem) (moved.1.symm.trans both.1)
    rw [later,or_and_right,and_assoc,or_assoc,safe]

omit [LinearOrder B] in
theorem mergedMem {d e : List (Nat × Nat × B)} (same : ∀ p, p ∈ d ↔ p ∈ e) (has : Xref3 B → Prop)
    (r : Xref3 B) : Merged d has r ↔ Merged e has r := by
  unfold Merged
  simp only [same]

omit [LinearOrder B] in
theorem mergedWithin {d : List (Nat × Nat × B)} {has has' : Xref3 B → Prop} (gone : B → Prop)
    (within : ∀ r, has' r ↔ ¬ gone r.oidbin ∧ has r) (r : Xref3 B) :
    Merged d has' r ↔ ¬ gone r.oidbin ∧ Merged d has r := by
  unfold Merged
  simp only [within]
  constructor
  · rintro (⟨⟨here,old⟩,stays⟩ | ⟨p,mem,docid,oid,here,old⟩)
    · exact ⟨here,Or.inl ⟨old,stays⟩⟩
    · exact ⟨here,Or.inr ⟨p,mem,docid,oid,old⟩⟩
  · rintro ⟨here,⟨old,stays⟩ | ⟨p,mem,docid,oid,old⟩⟩
    · exact Or.inl ⟨⟨here,old⟩,stays⟩
    · exact Or.inr ⟨p,mem,docid,oid,here,old⟩

omit [DecidableEq M] in
theorem mergeGroupFold (dryRun : Bool) (s : Ei B M) (ary : List (Nat × B)) :
    mergeGroup dryRun s ary =
      (if dryRun then [] else culledOf ary).foldl (fun s p => mergeGone p.1 s p.2) s := by
  cases ary with
  | nil => cases dryRun <;> rfl
  | cons keep ary => cases dryRun with
    | true => rfl
    | false => simp only [mergeGroup,Bool.false_eq_true,if_false,culledOf,List.foldl_map]

omit [DecidableEq H] [DecidableEq M] in
theorem mergeGroupsFold (dryRun : Bool) (gs : Groups B H) (s : Ei B M) :
    mergeGroups dryRun gs s = (culled dryRun gs).foldl (fun s p => mergeGone p.1 s p.2) s := by
  unfold mergeGroups culled
  induction gs generalizing s with
  | nil => cases dryRun <;> rfl
  | cons g gs ih =>
    rw [List.foldl_cons,ih,mergeGroupFold]
    cases dryRun with
    | true => rfl
    | false => simp only [Bool.false_eq_true,if_false,List.flatMap_cons,List.foldl_append]

def members (gs : Groups B H) : List (Nat × B) := gs.flatMap Prod.snd

omit [LinearOrder B] in
theorem collectMembers (x : Nat × B) (chash : H) (gs : Groups B H) :
    (members (collect x chash gs)).Perm (x :: members gs) := by
  induction gs with
  | nil => exact .refl _
  | cons g gs ih =>
    unfold collect members
    split
    · rw [List.flatMap_cons,List.flatMap_cons,List.append_assoc]
      exact List.perm_middle
    · rw [List.flatMap_cons,List.flatMap_cons]
      exact (ih.append_left g.2).trans List.perm_middle

omit [LinearOrder B] in
theorem culledOfMem {ary : List (Nat × B)} {p : Nat × Nat × B} (mem : p ∈ culledOf ary) :
    ∃ keep rest, ary = keep :: rest ∧ p.1 = keep.1 ∧ p.2 ∈ rest := by
  cases ary with
  | nil => exact absurd mem (List.not_mem_nil)
  | cons keep rest =>
    obtain ⟨x,inside,rfl⟩ := List.mem_map.mp mem
    exact ⟨keep,rest,rfl,rfl,inside⟩

omit [DecidableEq H] [LinearOrder B] in
theorem culledApart {gs : Groups B H} (nodup : ((members gs).map Prod.fst).Nodup) (dryRun : Bool) :
    Apart (culled dryRun gs) := by
  cases dryRun with
  | true => exact ⟨List.nodup_nil,fun p mem => absurd mem List.not_mem_nil⟩
  | false =>
    simp only [culled,Bool.false_eq_true,if_false]
    induction gs with
    | nil => exact ⟨List.nodup_nil,fun p mem => absurd mem List.not_mem_nil⟩
    | cons g gs ih =>
      have inMembers : ∀ (gs : Groups B H), ∀ p ∈ gs.flatMap (fun g => culledOf g.2),
          p.1 ∈ (members gs).map Prod.fst ∧ p.2.1 ∈ (members gs).map Prod.fst := by
        intro gs p mem
        obtain ⟨g,inside,mem⟩ := List.mem_flatMap.mp mem
        obtain ⟨keep,rest,ary,first,later⟩ := culledOfMem mem
        have all : ∀ x ∈ keep :: rest, x.1 ∈ (members gs).map Prod.fst := fun x mem =>
          List.mem_map_of_mem (List.mem_flatMap.mpr ⟨g,inside,ary ▸ mem⟩)
        exact ⟨first ▸ all keep List.mem_cons_self,all p.2 (List.mem_cons_of_mem _ later)⟩
      rw [members,List.flatMap_cons,List.map_append] at nodup
      obtain ⟨here,rest,apart⟩ := List.nodup_append.mp nodup
      obtain ⟨dropped,kept⟩ := ih rest
      have own : ∀ p ∈ culledOf g.2, p.1 ∈ g.2.map Prod.fst ∧ p.2.1 ∈ g.2.map Prod.fst := by
        intro p mem
        obtain ⟨keep,rest,ary,first,later⟩ := culledOfMem mem
        rw [ary,first]
        exact ⟨List.mem_map_of_mem List.mem_cons_self,List.mem_map_of_mem (List.mem_cons_of_mem _ later)⟩
      rw [List.flatMap_cons]
      refine ⟨?_,?_⟩
      · rw [List.map_append]
        refine List.nodup_append.mpr ⟨?_,dropped,?_⟩
        · cases ary : g.2 with
          | nil => exact List.nodup_nil
          | cons keep rest =>
            rw [ary] at here
            rw [culledOf,List.map_map]
            exact (List.nodup_cons.mp here).2
        · intro a inOwn b inRest
          obtain ⟨p,mem,rfl⟩ := List.mem_map.mp inOwn
          obtain ⟨q,mem',rfl⟩ := List.mem_map.mp inRest
          exact apart _ (own p mem).2 _ (inMembers gs q mem').2
      · intro p mem q mem'
        rcases List.mem_append.mp mem with mine | later
        · rcases List.mem_append.mp mem' with mine' | later'
          · obtain ⟨keep,rest,ary,first,-⟩ := culledOfMem mine
            obtain ⟨keep',rest',ary',-,inside⟩ := culledOfMem mine'
            cases ary.symm.trans ary'
            rw [ary] at here
            rw [first]
            intro same
            exact (List.nodup_cons.mp here).1 (same ▸ List.mem_map_of_mem inside)
          · exact apart _ (own p mine).1 _ (inMembers gs q later').2
        · rcases List.mem_append.mp mem' with mine' | later'
          · exact (apart _ (own q mine').2 _ (inMembers gs p later).1).symm
          · exact kept p later q later'

omit [DecidableEq H] [DecidableEq M] in
theorem mergeGroupsRows {gs gs' : Groups B H} (perm : gs'.Perm gs) {dryRun : Bool}
    (apart : Apart (culled dryRun gs)) (s : Ei B M) (r : Xref3 B) :
    (mergeGroups dryRun gs' s).xref3.Has r ↔ Merged (culled dryRun gs) s.xref3.Has r := by
  have drops : (culled dryRun gs').Perm (culled dryRun gs) := by
    unfold culled
    split
    · exact .refl _
    · exact perm.flatMap_right _
  have apart' : Apart (culled dryRun gs') :=
    ⟨(drops.map _).nodup_iff.mpr apart.dropped,
      fun p mem q mem' => apart.kept p (drops.mem_iff.mp mem) q (drops.mem_iff.mp mem')⟩
  rw [mergeGroupsFold,mergeFold apart']
  exact mergedMem (fun p => drops.mem_iff) _ r

def Gone (xs : List (Nat × B)) (oid : B) : Prop := ∃ x ∈ xs, cat x.2 = .missing ∧ oid = x.2

omit [DecidableEq H] [DecidableEq M] in
theorem endsRows {dryRun : Bool} {last : Nat} {x : Nat × B} {v v' : Groups B H × Ei B M}
    (ends : Ends dryRun last x v v') (apart : x.1 = last → Apart (culled dryRun v.1)) :
    v'.1 = v.1 ∧ ∀ r, v'.2.xref3.Has r ↔
      if x.1 = last then Merged (culled dryRun v.1) v.2.xref3.Has r else v.2.xref3.Has r := by
  unfold Ends at ends
  split at ends
  · rename_i final
    obtain ⟨gs,perm,rfl⟩ := ends
    refine ⟨rfl,fun r => ?_⟩
    rw [if_pos final]
    exact mergeGroupsRows perm (apart final) v.2 r
  · rename_i other
    subst ends
    exact ⟨rfl,fun r => by rw [if_neg other]⟩

theorem goneApart {p q z c : Prop} : ¬ c ∧ ¬ (p ∨ q) ∧ z ↔ ¬ (p ∨ q ∨ c) ∧ z := by
  rw [not_or,not_or,not_or]
  constructor
  · rintro ⟨notC,⟨notP,notQ⟩,holds⟩
    exact ⟨⟨notP,notQ,notC⟩,holds⟩
  · rintro ⟨⟨notP,notQ,notC⟩,holds⟩
    exact ⟨notC,⟨notP,notQ⟩,holds⟩

omit [DecidableEq M] in
theorem runRows {dryRun : Bool} {last : Nat} {xs : List (Nat × B)} {v w : Groups B H × Ei B M}
    (run : DdSmsg t cat dryRun last xs v w)
    (final : ∀ pre x post, xs = pre ++ x :: post → x.1 = last → post = [])
    (apart : last ∈ xs.map Prod.fst → Apart (culled dryRun (xs.foldl (collectAnswer t cat) v.1))) :
    w.1 = xs.foldl (collectAnswer t cat) v.1 ∧ ∀ r, w.2.xref3.Has r ↔ ¬ Gone cat xs r.oidbin ∧
      if last ∈ xs.map Prod.fst then Merged (culled dryRun w.1) v.2.xref3.Has r else v.2.xref3.Has r := by
  induction run with
  | nil v => exact ⟨rfl,fun r => by simp [Gone]⟩
  | @read x xs v v' w answer ends next ih =>
    have gone : ∀ oid, Gone cat (x :: xs) oid ↔ Gone cat xs oid := by
      intro oid
      simp [Gone,answer]
    rw [List.foldl_cons] at apart ⊢
    have later := ih (fun pre y post split same => final (x :: pre) y post (by rw [split]; rfl) same)
    by_cases here : x.1 = last
    · have none : xs = [] := final [] x xs rfl here
      subst none
      have own : last ∈ (x :: ([] : List (Nat × B))).map Prod.fst := here ▸ List.mem_cons_self
      obtain ⟨groups,rows⟩ := endsRows ends (fun _ => apart own)
      cases next
      refine ⟨groups,fun r => ?_⟩
      rw [rows r,if_pos here,if_pos own,groups,gone]
      simp [Gone]
    · obtain ⟨groups,rows⟩ := endsRows ends (fun same => absurd same here)
      have same : (last ∈ (x :: xs).map Prod.fst) = (last ∈ xs.map Prod.fst) := by
        simp [Ne.symm here]
      simp only [same] at apart ⊢
      rw [groups] at later
      obtain ⟨grouped,shown⟩ := later apart
      refine ⟨grouped,fun r => ?_⟩
      have kept : v'.2.xref3.Has = v.2.xref3.Has := funext fun r => propext (by rw [rows r,if_neg here])
      rw [shown r,gone,kept]
  | @missing x front back v u v' w answer waited ends next ihFront ihBack =>
    have gone : ∀ oid, Gone cat (x :: (front ++ back)) oid ↔
        oid = x.2 ∨ Gone cat front oid ∨ Gone cat back oid := by
      intro oid
      simp [Gone,answer,or_and_right,exists_or]
    have unread : ∀ gs : Groups B H, collectAnswer t cat gs x = gs := fun gs => by
      simp [collectAnswer,answer]
    have lost : ∀ r, (u.2.blobMissing x).xref3.Has r ↔ ¬ r.oidbin = x.2 ∧ u.2.xref3.Has r := fun r =>
      blobMissingHas.trans and_comm
    rw [List.foldl_cons,unread,List.foldl_append] at apart ⊢
    have ended : last ∈ front.map Prod.fst → back = [] := by
      intro mem
      obtain ⟨y,inside,same⟩ := List.mem_map.mp mem
      obtain ⟨pre,post,rfl⟩ := List.append_of_mem inside
      exact (List.append_eq_nil_iff.mp (final (x :: pre) y (post ++ back) (by simp) same)).2
    obtain ⟨first,shown⟩ := ihFront
      (fun pre y post split same => (List.append_eq_nil_iff.mp
        (final (x :: pre) y (post ++ back) (by simp [split]) same)).1)
      (fun mem => by
        have all := apart (by simp only [List.map_cons,List.map_append,List.mem_cons,List.mem_append,mem,
          true_or,or_true])
        rwa [ended mem] at all)
    have later := ihBack (fun pre y post split same =>
      final (x :: (front ++ pre)) y post (by simp [split]) same)
    by_cases here : x.1 = last
    · obtain ⟨rfl,rfl⟩ := List.append_eq_nil_iff.mp (final [] x (front ++ back) rfl here)
      have own : last ∈ (x :: ([] ++ [] : List (Nat × B))).map Prod.fst := here ▸ List.mem_cons_self
      cases waited
      cases next
      obtain ⟨groups,rows⟩ := endsRows ends (fun _ => apart own)
      refine ⟨groups,fun r => ?_⟩
      rw [rows r,if_pos here,if_pos own,groups,mergedWithin (fun oid => oid = x.2) lost,gone]
      simp [Gone]
    · obtain ⟨groups,rows⟩ := endsRows ends (fun same => absurd same here)
      have kept : ∀ r, v'.2.xref3.Has r ↔ ¬ r.oidbin = x.2 ∧ u.2.xref3.Has r := fun r => by
        rw [rows r,if_neg here,lost]
      by_cases inFront : last ∈ front.map Prod.fst
      · have none := ended inFront
        subst none
        have own : last ∈ (x :: (front ++ [])).map Prod.fst := by simp [inFront]
        cases next
        refine ⟨groups.trans first,fun r => ?_⟩
        rw [kept,shown,if_pos inFront,if_pos own,gone,groups]
        simp [Gone,and_assoc]
      · rw [groups,first] at later
        have same : (last ∈ (x :: (front ++ back)).map Prod.fst) = (last ∈ back.map Prod.fst) := by
          simp only [List.map_cons,List.map_append,List.mem_cons,List.mem_append,inFront,Ne.symm here,
            false_or]
        simp only [same] at apart ⊢
        obtain ⟨grouped,rest⟩ := later apart
        refine ⟨grouped,fun r => ?_⟩
        have within : ∀ r, v'.2.xref3.Has r ↔
            ¬ (r.oidbin = x.2 ∨ Gone cat front r.oidbin) ∧ v.2.xref3.Has r := fun r => by
          rw [kept,shown,if_neg inFront,not_or,and_assoc]
        rw [rest r,gone,mergedWithin (fun oid => oid = x.2 ∨ Gone cat front oid) within,within]
        split
        · exact goneApart
        · exact goneApart

omit [LinearOrder B] in
theorem fetchMem {ov : Table Nat B} {nums : List Nat} {x : Nat × B} (mem : x ∈ fetch ov nums) :
    x.1 ∈ nums ∧ ov.get? x.1 = some x.2 := by
  induction nums with
  | nil => exact absurd mem List.not_mem_nil
  | cons num nums ih =>
    unfold fetch at mem
    split at mem
    · exact absurd mem List.not_mem_nil
    · rename_i blob found
      rcases List.mem_cons.mp mem with rfl | later
      · exact ⟨List.mem_cons_self,found⟩
      · exact ⟨List.mem_cons_of_mem _ (ih later).1,(ih later).2⟩

omit [LinearOrder B] in
theorem fetchNodup {ov : Table Nat B} {nums : List Nat} (nodup : nums.Nodup) :
    ((fetch ov nums).map Prod.fst).Nodup := by
  induction nums with
  | nil => exact List.nodup_nil
  | cons num nums ih =>
    obtain ⟨fresh,rest⟩ := List.nodup_cons.mp nodup
    unfold fetch
    split
    · exact List.nodup_nil
    · refine List.nodup_cons.mpr ⟨fun mem => ?_,ih rest⟩
      obtain ⟨x,inside,same⟩ := List.mem_map.mp mem
      have listed := (fetchMem inside).1
      rw [same] at listed
      exact fresh listed

theorem smsgsNodup (s : Ei B M) (mid : M) : ((smsgs s mid).map Prod.fst).Nodup :=
  fetchNodup (((Table.keysWhereSorted _ _).imp ne_of_lt).filter _)

omit [DecidableEq M] [LinearOrder B] in
theorem collectNodup (xs : List (Nat × B)) (gs : Groups B H)
    (nodup : ((members gs ++ xs).map Prod.fst).Nodup) :
    ((members (xs.foldl (collectAnswer t cat) gs)).map Prod.fst).Nodup := by
  induction xs generalizing gs with
  | nil => simpa using nodup
  | cons x xs ih =>
    have moved : (members gs ++ x :: xs).Perm (x :: members gs ++ xs) := List.perm_middle
    have shifted := ((moved.map Prod.fst).nodup_iff).mp nodup
    rw [List.foldl_cons]
    refine ih _ ?_
    unfold collectAnswer
    split
    · exact ((((collectMembers x (t.contentHash x.2) gs).append_right xs).map Prod.fst).nodup_iff).mpr shifted
    · exact (List.nodup_cons.mp shifted).2

def groupsOf (s : Ei B M) (mid : M) : Groups B H := (smsgs s mid).foldl (collectAnswer t cat) []

def drops (dryRun : Bool) (s : Ei B M) (mid : M) : List (Nat × Nat × B) :=
  if (smsgs s mid).length < 2 then [] else culled dryRun (groupsOf t cat s mid)

theorem dropsApart (dryRun : Bool) (s : Ei B M) (mid : M) : Apart (drops t cat dryRun s mid) := by
  unfold drops
  split
  · exact ⟨List.nodup_nil,fun p mem => absurd mem List.not_mem_nil⟩
  · exact culledApart (collectNodup t cat _ [] (by simpa [members] using smsgsNodup s mid)) dryRun

def Unread (s : Ei B M) (mid : M) (oid : B) : Prop :=
  2 ≤ (smsgs s mid).length ∧ Gone cat (smsgs s mid) oid

theorem dedupeRows {dryRun : Bool} {s s' : Ei B M} {mid : M} (run : Dedupes t cat dryRun mid s s')
    (r : Xref3 B) : s'.xref3.Has r ↔
      ¬ Unread cat s mid r.oidbin ∧ Merged (drops t cat dryRun s mid) s.xref3.Has r := by
  cases run with
  | next few => simp [Unread,drops,few,Merged,not_le.mpr few]
  | @waited last gs s' final many run =>
    have nodup := smsgsNodup s mid
    have own : last.1 ∈ (smsgs s mid).map Prod.fst := List.mem_map_of_mem (List.mem_of_getLast? final)
    have few : ¬ (smsgs s mid).length < 2 := not_lt.mpr many
    have apart := dropsApart t cat dryRun s mid
    rw [drops,if_neg few] at apart ⊢
    have ended : ∀ pre x post, smsgs s mid = pre ++ x :: post → x.1 = last.1 → post = [] := by
      intro pre x post split same
      rw [split] at final nodup
      rw [List.map_append,List.map_cons] at nodup
      have fresh := (List.nodup_cons.mp (List.nodup_append.mp nodup).2.1).1
      cases post with
      | nil => rfl
      | cons y post =>
        rw [List.getLast?_append,List.getLast?_cons_cons,Option.or_of_isSome (by simp)] at final
        exact absurd (same ▸ List.mem_map_of_mem (List.mem_of_getLast? final)) fresh
    obtain ⟨grouped,rows⟩ := runRows t cat run ended (fun _ => apart)
    rw [rows r,if_pos own,grouped]
    simp only [Unread,many,true_and,groupsOf]

def Lossless (d : List (Nat × Nat × B)) (s s' : Ei B M) : Prop :=
  (∀ p ∈ d, ∀ r, s.xref3.Has r → r.docid = p.2.1 → s'.xref3.Has { r with docid := p.1 }) ∧
  (∀ r, (∀ p ∈ d, r.docid ≠ p.2.1) → s.xref3.Has r → s'.xref3.Has r) ∧
  ∀ r, (∀ p ∈ d, r.docid ≠ p.1 ∧ r.docid ≠ p.2.1) → s'.xref3.Has r → s.xref3.Has r

def Mergeable (dryRun : Bool) (s : Ei B M) (mid : M) : Prop :=
  (∀ r, s.xref3.Has r → ¬ Unread cat s mid r.oidbin) ∧
  ∀ p ∈ drops t cat dryRun s mid, ∀ r, s.xref3.Has r → r.docid = p.2.1 → r.oidbin ≠ p.2.2 →
    s.xref3.Has { r with docid := p.1 } ∨
      ∃ q ∈ drops t cat dryRun s mid, q.1 = p.1 ∧ q.2.2 = r.oidbin ∧ s.xref3.Has { r with docid := q.2.1 }

theorem dedupeKeepsXref3 {dryRun : Bool} {s s' : Ei B M} {mid : M}
    (run : Dedupes t cat dryRun mid s s') :
    Lossless (drops t cat dryRun s mid) s s' ↔ Mergeable t cat dryRun s mid := by
  have rows := dedupeRows t cat run
  have apart := dropsApart t cat dryRun s mid
  constructor
  · rintro ⟨moved,stays,-⟩
    refine ⟨fun r has lost => ?_,fun p mem r has docid other => ?_⟩
    · by_cases dropped : ∃ p ∈ drops t cat dryRun s mid, r.docid = p.2.1
      · obtain ⟨p,mem,docid⟩ := dropped
        exact ((rows _).mp (moved p mem r has docid)).1 lost
      · have kept : ∀ p ∈ drops t cat dryRun s mid, r.docid ≠ p.2.1 := fun p mem docid =>
          dropped ⟨p,mem,docid⟩
        exact ((rows r).mp (stays r kept has)).1 lost
    · rcases ((rows _).mp (moved p mem r has docid)).2 with ⟨there,-⟩ | ⟨q,mem',keep,oid,there⟩
      · exact Or.inl there
      · exact Or.inr ⟨q,mem',keep.symm,oid.symm,there⟩
  · rintro ⟨read,movable⟩
    refine ⟨fun p mem r has docid => ?_,fun r kept has => ?_,fun r other has => ?_⟩
    · refine (rows _).mpr ⟨read r has,?_⟩
      have notDropped : ∀ q ∈ drops t cat dryRun s mid, ¬ (p.1 = q.2.1 ∧ r.oidbin = q.2.2) :=
        fun q mem' both => apart.kept p mem q mem' both.1
      by_cases own : r.oidbin = p.2.2
      · refine Or.inr ⟨p,mem,rfl,own,?_⟩
        rw [← docid]
        exact has
      · rcases movable p mem r has docid own with there | ⟨q,mem',keep,oid,there⟩
        · exact Or.inl ⟨there,notDropped⟩
        · exact Or.inr ⟨q,mem',keep.symm,oid.symm,there⟩
    · exact (rows r).mpr ⟨read r has,Or.inl ⟨has,fun q mem both => kept q mem both.1⟩⟩
    · rcases ((rows r).mp has).2 with ⟨old,-⟩ | ⟨p,mem,keep,-,-⟩
      · exact old
      · exact absurd keep (other p mem).1

omit [DecidableEq M] in
theorem ddRuns (dryRun : Bool) (last : Nat) (xs : List (Nat × B)) (v : Groups B H × Ei B M) :
    ∃ w, DdSmsg t cat dryRun last xs v w := by
  have ended : ∀ (x : Nat × B) (v : Groups B H × Ei B M), ∃ v', Ends dryRun last x v v' := by
    intro x v
    unfold Ends
    split
    · exact ⟨_,v.1,.refl _,rfl⟩
    · exact ⟨v,rfl⟩
  induction xs generalizing v with
  | nil => exact ⟨v,.nil v⟩
  | cons x xs ih =>
    by_cases answer : cat x.2 = .missing
    · obtain ⟨v',ends⟩ := ended x (v.1,v.2.blobMissing x)
      obtain ⟨w,rest⟩ := ih v'
      exact ⟨w,.missing answer (.nil v) ends rest⟩
    · obtain ⟨v',ends⟩ := ended x (collectAnswer t cat v.1 x,v.2)
      obtain ⟨w,rest⟩ := ih v'
      exact ⟨w,.read answer ends rest⟩

theorem dedupeRuns (dryRun : Bool) (mid : M) (s : Ei B M) : ∃ s', Dedupes t cat dryRun mid s s' := by
  by_cases few : (smsgs s mid).length < 2
  · exact ⟨s,.next few⟩
  · have some : (smsgs s mid) ≠ [] := by
      intro none
      simp [none] at few
    obtain ⟨⟨gs,s'⟩,run⟩ := ddRuns t cat dryRun ((smsgs s mid).getLast some).1 (smsgs s mid) ([],s)
    exact ⟨s',.waited (List.getLast?_eq_some_getLast some) (not_lt.mp few) run⟩

def copies : Ei Nat Mid :=
  ((((Ei.empty.addOverview 1 0 [cleanMid "a"]).addXref3 1 1 0 1).addOverview 2 1
    [cleanMid "a",cleanMid "b"]).addXref3 2 2 1 1).addXref3 2 1 2 2

-- Without that second copy nothing is lost.
theorem copyMerged : ∃ s', Dedupes shelved (fun _ => .blob) false (cleanMid "a")
    (copies.unref 2 none none) s' ∧
    Lossless (drops shelved (fun _ => .blob) false (copies.unref 2 none none) (cleanMid "a"))
      (copies.unref 2 none none) s' := by
  obtain ⟨s',run⟩ := dedupeRuns shelved (fun _ => .blob) false (cleanMid "a") (copies.unref 2 none none)
  have dropped : drops shelved (fun _ => .blob) false (copies.unref 2 none none) (cleanMid "a") = [(1,2,1)] := by
    decide +kernel
  refine ⟨s',run,(dedupeKeepsXref3 shelved (fun _ => .blob) run).mpr ⟨?_,?_⟩⟩
  · rintro r - ⟨-,x,-,lost,-⟩
    contradiction
  · intro p mem r has docid other
    rw [dropped,List.mem_singleton] at mem
    subst mem
    have rows : (copies.unref 2 none none).xref3.keys = [⟨1,1,1,0⟩,⟨2,1,2,1⟩] := by decide +kernel
    have listed := Rel.hasKeys.mpr has
    rw [rows] at listed
    rcases List.mem_pair.mp listed with rfl | rfl
    · exact absurd docid (by decide)
    · exact absurd rfl other

theorem copyLeftBehind : ¬ ∀ (cat : Nat → Found) (dryRun : Bool) (mid : Mid) (s s' : Ei Nat Mid),
    Dedupes shelved cat dryRun mid s s' → Lossless (drops shelved cat dryRun s mid) s s' := by
  intro kept
  obtain ⟨s',run⟩ := dedupeRuns shelved (fun _ => .blob) false (cleanMid "a") copies
  have dropped : drops shelved (fun _ => .blob) false copies (cleanMid "a") = [(1,2,1)] := by decide +kernel
  have moved := (kept _ _ _ _ _ run).1 (1,2,1) (by rw [dropped]; exact List.mem_cons_self) ⟨2,2,1,2⟩
    (by decide +kernel) rfl
  have kept := ((dedupeRows shelved _ run _).mp moved).2
  rw [dropped] at kept
  revert kept
  simp [Merged]
  decide +kernel

end PublicInbox.ExtSearchIdx
