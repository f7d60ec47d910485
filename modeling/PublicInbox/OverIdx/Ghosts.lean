import PublicInbox.OverIdx.Cull
import PublicInbox.Library.Handing

/-! Ghosts beside messages. A message with several Message-IDs references its own: add_over may make
ghosts for them while it takes others away. Without a rethread min_tid is 0 and every thread valid. -/
namespace PublicInbox
namespace OverIdx
open Keyed Paging
variable {δ : Type} {s s' s'' : OverIdx δ} {mails : List Mail}

def Ghosted (s : OverIdx δ) (m : Mid) : Prop := ∃ n < 0,s.Linked n m

def Named (mails : List Mail) (m : Mid) : Prop := ∃ y ∈ mails,m ∈ y.mids

theorem Links.lone (links : Links s mails) {m : Mid} : (∀ i,¬ s.Linked i m) ↔ ¬ Ghosted s m ∧ ¬ Named mails m := by
  constructor
  · intro none
    refine ⟨fun ⟨n,_,linked⟩ => none n linked,fun ⟨y,stored,own⟩ => ?_⟩
    exact none y.num ((links.linkedReal y.positive).mpr ⟨y,stored,rfl,own⟩)
  · rintro ⟨noGhost,noMail⟩ i linked
    by_cases positive : 0 < i
    · obtain ⟨y,stored,-,own⟩ := (links.linkedReal positive).mp linked
      exact noMail ⟨y,stored,own⟩
    · exact noGhost ⟨i,links.nonzero linked positive,linked⟩

structure Refers (mails : List Mail) (refs : List Mid) (s s' : OverIdx δ) : Prop where
  links : Links s' mails
  minTid : s'.minTid = 0
  kept : ∀ i m,s.Linked i m → s'.Linked i m
  ghosts : ∀ m,Ghosted s' m ↔ Ghosted s m ∨ (m ∈ refs ∧ ¬ Named mails m)

namespace Refers
variable {refs refs' : List Mid}

theorem trans (first : Refers mails refs s s') (second : Refers mails refs' s' s'') : Refers mails (refs ++ refs') s s'' where
  links := second.links
  minTid := second.minTid
  kept := fun i m linked => second.kept i m (first.kept i m linked)
  ghosts := by
    intro m
    rw [second.ghosts m,first.ghosts m,List.mem_append,or_and_right,or_assoc]

theorem same (links : Links s' mails) (minTid : s'.minTid = 0) (id2num : s'.id2num = s.id2num) : Refers mails [] s s' where
  links := links
  minTid := minTid
  kept := fun i m linked => by rwa [Linked,id2num]
  ghosts := by
    intro m
    simp [Ghosted,Linked,id2num]

theorem merge (links : Links s mails) (minTid : s.minTid = 0) {winner : Nat} (live : 0 < winner ∧ winner ≤ s.thread) (loser : Nat) :
    Refers mails [] s (s.mergeThreads winner loser) :=
  same (links.merge live.1 live.2 loser) ((mergeMinTid ..).trans minTid) (mergeId2num ..)

theorem resolve (links : Links s mails) (minTid : s.minTid = 0) (r : Mid) :
    Refers mails [r] s (s.resolveMidToTid r).1 ∧ s.thread ≤ (s.resolveMidToTid r).1.thread ∧
      0 < (s.resolveMidToTid r).2 ∧ (s.resolveMidToTid r).2 ≤ (s.resolveMidToTid r).1.thread := by
  have bonds : Bonds (fun _ _ => True) mails := ⟨⟨fun _ => trivial,fun _ => trivial,fun _ _ => trivial⟩,fun _ _ _ _ _ _ => trivial⟩
  have made := resolved (c := r) (r := r) links bonds trivial
  have young : ∀ {i t},t ≤ s.minTid → s.tidOf i ≠ some t := by
    intro i t old row
    have := (links.tids i t row).1
    omega
  have kept : ∀ i m,s.Linked i m → (s.resolveMidToTid r).1.Linked i m := by
    intro i m linked
    rcases made.lost i m linked with here | ⟨-,t,old,row⟩
    · exact here
    · exact absurd row (young old)
  obtain ⟨i,here⟩ : ∃ i,(s.resolveMidToTid r).1.Linked i r := by
    rcases made.left with here | ⟨n,-,-,⟨t,old,row⟩,-⟩
    · exact here
    · exact absurd row (young old)
  refine ⟨⟨made.links,made.minTid.trans minTid,kept,fun m => ?_⟩,made.thread,(made.links.tids i _ (made.all i here)).1,made.bound⟩
  rw [List.mem_singleton]
  constructor
  · rintro ⟨n,low,linked⟩
    rcases made.fresh n m linked with before | ⟨rfl,-,none⟩
    · exact Or.inl ⟨n,low,before⟩
    · exact Or.inr ⟨rfl,(links.lone.mp none).2⟩
  · rintro (⟨n,low,linked⟩ | ⟨rfl,unnamed⟩)
    · exact ⟨n,low,kept n m linked⟩
    · by_cases before : Ghosted s m
      · obtain ⟨n,low,linked⟩ := before
        exact ⟨n,low,kept n m linked⟩
      · rcases made.fresh i m here with old | ⟨-,low,-⟩
        · exact absurd old (links.lone.mpr ⟨before,unnamed⟩ i)
        · exact ⟨i,by omega,here⟩

theorem linkRest (made : Refers mails refs s s') {tid : Nat} (live : 0 < tid ∧ tid ≤ s'.thread) (rest : List Mid) :
    Refers mails (refs ++ rest) s
      (rest.foldl (fun t ref => (t.resolveMidToTid ref).1.mergeThreads tid (t.resolveMidToTid ref).2) s') ∧
    tid ≤ (rest.foldl (fun t ref => (t.resolveMidToTid ref).1.mergeThreads tid (t.resolveMidToTid ref).2) s').thread := by
  induction rest generalizing refs s' with
  | nil => exact ⟨(List.append_nil refs).symm ▸ made,live.2⟩
  | cons ref rest ih =>
    obtain ⟨next,thread,-,-⟩ := resolve made.links made.minTid ref
    have bound := live.2.trans thread
    have both := (made.trans next).trans (merge next.links next.minTid ⟨live.1,bound⟩ (s'.resolveMidToTid ref).2)
    rw [List.append_nil] at both
    have whole := ih both ⟨live.1,bound.trans (le_of_eq (mergeThread ..).symm)⟩
    rwa [List.append_assoc] at whole

theorem linkRefs (links : Links s mails) (minTid : s.minTid = 0) (refs : List Mid) {oldTid : Option Nat}
    (live : ∀ tid ∈ oldTid,0 < tid ∧ tid ≤ s.thread) :
    Refers mails refs s (s.linkRefs refs oldTid).1 ∧
      0 < (s.linkRefs refs oldTid).2 ∧ (s.linkRefs refs oldTid).2 ≤ (s.linkRefs refs oldTid).1.thread := by
  cases refs with
  | nil =>
    cases oldTid with
    | some tid => exact ⟨same links minTid rfl,live tid rfl⟩
    | none => exact ⟨same links.nextTid minTid rfl,Nat.succ_pos _,Nat.le_refl _⟩
  | cons r rest =>
    obtain ⟨first,-,positive,bound⟩ := resolve links minTid r
    cases oldTid with
    | none =>
      obtain ⟨whole,bound⟩ := linkRest first ⟨positive,bound⟩ rest
      exact ⟨whole,positive,bound⟩
    | some old =>
      have merged := first.trans (merge first.links first.minTid ⟨positive,bound⟩ old)
      obtain ⟨whole,bound⟩ := linkRest merged ⟨positive,bound.trans (le_of_eq (mergeThread ..).symm)⟩ rest
      exact ⟨whole,positive,bound⟩

end Refers

section
variable {x : Mail} (other : ∀ y ∈ mails,y.num ≠ x.num) {m : Mid} (own : m ∈ x.mids)

theorem rowGhost {n : Int} (ghost : n < 0) {st : OverIdx δ × Adding} (sane : Sane mails st) (minTid : st.1.minTid = 0)
    (linked : st.1.Linked n m) : ∃ st' : OverIdx δ × Adding,eachRow (addOverRow x.references) n st = (st',true) ∧
      st'.1.minTid = 0 ∧ st'.2.vivified = st.2.vivified + 1 ∧
      ∀ k,Ghosted st'.1 k ↔ k ≠ m ∧ (Ghosted st.1 k ∨ (k ∈ x.references ∧ ¬ Named mails k)) := by
  obtain ⟨s,⟨old,vivified⟩⟩ := st
  obtain ⟨links,label⟩ := sane
  have linkedAll : ∀ (t : OverIdx δ) (o : Nat),Refers mails [] s t → 0 < o ∧ o ≤ t.thread → ∃ st' : OverIdx δ × Adding,
      (((t.linkRefs x.references (some o)).1.deleteByNum n,⟨some (t.linkRefs x.references (some o)).2,vivified + 1⟩) : OverIdx δ × Adding) = st' ∧
      st'.1.minTid = 0 ∧ st'.2.vivified = vivified + 1 ∧
      ∀ k,Ghosted st'.1 k ↔ k ≠ m ∧ (Ghosted s k ∨ (k ∈ x.references ∧ ¬ Named mails k)) := by
    intro t o made live
    obtain ⟨refers,-⟩ := Refers.linkRefs made.links made.minTid x.references (fun tid mem => Option.some.inj mem ▸ live)
    have both := made.trans refers
    rw [List.nil_append] at both
    have here := both.kept n m linked
    refine ⟨_,rfl,both.minTid,rfl,fun k => ?_⟩
    rw [← both.ghosts k]
    constructor
    · rintro ⟨i,low,linked'⟩
      obtain ⟨apart,linked'⟩ := linkedDelete.mp linked'
      refine ⟨?_,i,low,linked'⟩
      rintro rfl
      exact apart (both.links.single i n _ low ghost linked' here)
    · rintro ⟨apart,i,low,linked'⟩
      refine ⟨i,low,linkedDelete.mpr ⟨?_,linked'⟩⟩
      rintro rfl
      exact apart (both.links.linkedGhost low linked' here)
  obtain ⟨t,row⟩ := links.linkedRow linked
  obtain ⟨r,found,rfl⟩ := Option.map_eq_some_iff.mp row
  have notReal : ¬ 0 < n := by omega
  have valid : s.minTid < r.tid := minTid ▸ (links.tids n r.tid row).1
  simp only [eachRow,found,addOverRow,notReal,if_false,ghost,if_true,valid]
  cases old with
  | some o =>
    obtain ⟨st',made,rest⟩ := linkedAll s o (.same links minTid rfl) ⟨minTid ▸ (label o rfl).1,(label o rfl).2⟩
    exact ⟨st',congrArg (·,true) made,rest⟩
  | none =>
    obtain ⟨st',made,rest⟩ := linkedAll s r.tid (.same links minTid rfl) (links.tids n r.tid row)
    exact ⟨st',congrArg (·,true) made,rest⟩

theorem rowLinks {k : Int} (positive : 0 < k) {st : OverIdx δ × Adding} (sane : Sane mails st) (linked : st.1.Linked k m) :
    (eachRow (addOverRow x.references) k st).1.1.id2num = st.1.id2num ∧
      (eachRow (addOverRow x.references) k st).1.1.minTid = st.1.minTid ∧
      (eachRow (addOverRow x.references) k st).1.2.vivified = st.2.vivified := by
  obtain ⟨s,⟨old,vivified⟩⟩ := st
  obtain ⟨t,row⟩ := sane.1.linkedRow linked
  rw [Weaving.rowReal row positive]
  dsimp only
  split
  · exact ⟨mergeId2num ..,mergeMinTid ..,rfl⟩
  · cases old with
    | some o => exact ⟨rfl,rfl,rfl⟩
    | none => exact ⟨rfl,rfl,rfl⟩

include other own

theorem visitReals {ks : List Int} {st : OverIdx δ × Adding} (sane : Sane mails st)
    (linked : ∀ k ∈ ks,0 < k ∧ st.1.Linked k m) :
    Sane mails (visit (eachRow (addOverRow x.references)) ks st).1 ∧
      (visit (eachRow (addOverRow x.references)) ks st).1.1.id2num = st.1.id2num ∧
      (visit (eachRow (addOverRow x.references)) ks st).1.1.minTid = st.1.minTid ∧
      (visit (eachRow (addOverRow x.references)) ks st).1.2.vivified = st.2.vivified := by
  induction ks generalizing st with
  | nil => exact ⟨sane,rfl,rfl,rfl⟩
  | cons k ks ih =>
    obtain ⟨positive,here⟩ := linked k List.mem_cons_self
    obtain ⟨more,next,-⟩ := addFramed other own k st sane (memNumsOf.mpr here)
    obtain ⟨id2num,minTid,vivified⟩ := rowLinks (x := x) positive sane here
    cases step : eachRow (addOverRow x.references) k st with
    | mk st' go =>
      rw [step] at more next id2num minTid vivified
      cases more
      simp only [visit,step]
      have still : ∀ j ∈ ks,0 < j ∧ st'.1.Linked j m := by
        intro j mem
        obtain ⟨positive,linked⟩ := linked j (List.mem_cons_of_mem _ mem)
        exact ⟨positive,by rwa [Linked,id2num]⟩
      obtain ⟨sane',id2num',minTid',vivified'⟩ := ih next still
      exact ⟨sane',id2num'.trans id2num,minTid'.trans minTid,vivified'.trans vivified⟩

theorem midHands {st : OverIdx δ × Adding} (sane : Sane mails st) (minTid : st.1.minTid = 0) :
    ∃ st' : OverIdx δ × Adding,eachByMid m (addOverRow x.references) st = st' ∧ Sane mails st' ∧ st'.1.minTid = 0 ∧
      (Ghosted st.1 m → st'.2.vivified = st.2.vivified + 1 ∧
        ∀ k,Ghosted st'.1 k ↔ k ≠ m ∧ (Ghosted st.1 k ∨ (k ∈ x.references ∧ ¬ Named mails k))) ∧
      (¬ Ghosted st.1 m → st'.2.vivified = st.2.vivified ∧ ∀ k,Ghosted st'.1 k ↔ Ghosted st.1 k) := by
  rw [addVisit other own sane]
  have sorted := numsOfSorted st.1 m
  have linked : ∀ k ∈ st.1.numsOf m,st.1.Linked k m := fun k mem => memNumsOf.mp mem
  have whole : ∀ k,st.1.Linked k m → k ∈ st.1.numsOf m := fun k linked => memNumsOf.mpr linked
  cases listed : st.1.numsOf m with
  | nil =>
    rw [listed] at whole
    exact ⟨st,rfl,sane,minTid,fun ⟨n,_,linked⟩ => absurd (whole n linked) List.not_mem_nil,fun _ => ⟨rfl,fun _ => Iff.rfl⟩⟩
  | cons n ks =>
    rw [listed] at sorted linked whole
    obtain ⟨above,-⟩ := List.pairwise_cons.mp sorted
    by_cases positive : 0 < n
    · have reals : ∀ k ∈ n :: ks,0 < k ∧ st.1.Linked k m := by
        intro k mem
        refine ⟨?_,linked k mem⟩
        rcases List.mem_cons.mp mem with rfl | later
        · exact positive
        · exact positive.trans (above k later)
      obtain ⟨sane',id2num,minTid',vivified⟩ := visitReals other own sane reals
      refine ⟨_,rfl,sane',minTid'.trans minTid,fun ⟨k,low,there⟩ => ?_,fun _ => ⟨vivified,fun k => ?_⟩⟩
      · have := (reals k (whole k there)).1
        omega
      · simp only [Ghosted,Linked,id2num]
    · have here := linked n List.mem_cons_self
      have ghost := sane.1.nonzero here positive
      obtain ⟨st₁,run,minTid₁,vivified₁,ghosts₁⟩ := rowGhost ghost sane minTid here
      obtain ⟨-,sane₁,above₁⟩ := addFramed other own n st sane (memNumsOf.mpr here)
      rw [run] at sane₁ above₁
      have reals : ∀ k ∈ ks,0 < k ∧ st₁.1.Linked k m := by
        intro k mem
        have there := linked k (List.mem_cons_of_mem _ mem)
        refine ⟨?_,memNumsOf.mp ((above₁ k (above k mem)).mpr (memNumsOf.mpr there))⟩
        by_contra low
        have same := sane.1.single n k m ghost (sane.1.nonzero there low) here there
        exact absurd (above k mem) (same ▸ lt_irrefl n)
      obtain ⟨sane',id2num,minTid',vivified⟩ := visitReals other own sane₁ reals
      simp only [visit,run]
      refine ⟨_,rfl,sane',minTid'.trans minTid₁,fun _ => ⟨vivified.trans vivified₁,fun k => ?_⟩,fun none => absurd ⟨n,ghost,here⟩ none⟩
      rw [← ghosts₁ k]
      simp only [Ghosted,Linked,id2num]

omit own

theorem midsHand {v : Mid → Bool} (given : ∀ k ∈ x.mids,(v k = true ↔ k ∈ x.references ∧ ¬ Named mails k)) {todo : List Mid}
    (sub : ∀ q ∈ todo,q ∈ x.mids) {st : OverIdx δ × Adding} (sane : Sane mails st) (minTid : st.1.minTid = 0)
    {h : Mid → Bool} (marks : ∀ k ∈ x.mids,(h k = true ↔ Ghosted st.1 k)) :
    ∃ st' : OverIdx δ × Adding,todo.foldl (fun st mid => eachByMid mid (addOverRow x.references) st) st = st' ∧
      Sane mails st' ∧ st'.1.minTid = 0 ∧ (∀ k ∈ x.mids,((todo.foldl (Handing.hand v) h) k = true ↔ Ghosted st'.1 k)) ∧
      (st'.2.vivified = 0 ↔ st.2.vivified = 0 ∧ todo.all (fun q => !h q) = true) := by
  induction todo generalizing st h with
  | nil => exact ⟨st,rfl,sane,minTid,marks,by simp⟩
  | cons q todo ih =>
    have own := sub q List.mem_cons_self
    obtain ⟨st₁,run,sane₁,minTid₁,yes,no⟩ := midHands other own sane minTid
    rw [List.foldl_cons,List.foldl_cons,run]
    have marks₁ : ∀ k ∈ x.mids,(Handing.hand v h q k = true ↔ Ghosted st₁.1 k) := by
      intro k mem
      unfold Handing.hand
      by_cases has : h q = true
      · rw [if_pos has,(yes ((marks q own).mp has)).2 k,Bool.and_eq_true,Bool.or_eq_true,decide_eq_true_eq,marks k mem,given k mem]
      · rw [if_neg has,(no (fun ghosted => has ((marks q own).mpr ghosted))).2 k,marks k mem]
    obtain ⟨st',done,sane',minTid',marks',vivified⟩ := ih (fun p mem => sub p (List.mem_cons_of_mem _ mem)) sane₁ minTid₁ marks₁
    refine ⟨st',done,sane',minTid',marks',vivified.trans ?_⟩
    by_cases has : h q = true
    · rw [(yes ((marks q own).mp has)).1]
      simp [has]
    · have same : Handing.hand v h q = h := by
        funext k
        simp [Handing.hand,has]
      rw [(no (fun ghosted => has ((marks q own).mpr ghosted))).1,same]
      simp [has]

end

def ghosted (s : OverIdx δ) (m : Mid) : Bool := (s.numsOf m).any (· < 0)

def alone (s : OverIdx δ) (x : Mail) (m : Mid) : Bool := m ≠ x.mid && (s.numsOf m).all (fun n => n ≤ 0 || n = x.num)

/- The own Message-ID whose ghost add_over deletes last: from the first that has one on, each that
has one or is alone is vivified in its turn. -/
def lastVivified (s : OverIdx δ) (x : Mail) : Option Mid :=
  ((x.mids.dropWhile (fun m => !s.ghosted m)).filter (fun m => s.ghosted m || s.alone x m)).getLast?

theorem ghostedIff {m : Mid} : s.ghosted m = true ↔ Ghosted s m := by
  simp only [ghosted,List.any_eq_true,memNumsOf,decide_eq_true_eq,Ghosted,and_comm]

theorem aloneIff (links : Links s mails) {x : Mail} {m : Mid} (own : m ∈ x.mids) :
    s.alone x m = true ↔ m ∈ x.references ∧ ¬ Named (mails.filter (fun y => y.num ≠ x.num)) m := by
  rw [alone,Bool.and_eq_true,decide_eq_true_eq]
  refine and_congr ?_ ?_
  · refine ⟨fun apart => Weaving.ownRef x own apart,fun ref => ?_⟩
    exact (memParseReferences.mp ref).1
  · rw [List.all_eq_true]
    constructor
    · rintro all ⟨y,mem,named⟩
      obtain ⟨stored,apart⟩ := List.mem_filter.mp mem
      have linked := (links.linkedReal y.positive).mpr ⟨y,stored,rfl,named⟩
      have positive := y.positive
      have here := all y.num (memNumsOf.mpr linked)
      simp only [Bool.or_eq_true,decide_eq_true_eq] at here apart
      omega
    · intro none n mem
      simp only [Bool.or_eq_true,decide_eq_true_eq]
      by_cases positive : 0 < n
      · right
        by_contra apart
        obtain ⟨y,stored,rfl,named⟩ := (links.linkedReal positive).mp (memNumsOf.mp mem)
        exact none ⟨y,List.mem_filter.mpr ⟨stored,decide_eq_true apart⟩,named⟩
      · left
        omega

theorem addOverGhosts (links : Links s mails) (minTid : s.minTid = 0) (x : Mail) (cols : δ) {u : Mid} (own : u ∈ x.mids) :
    Ghosted (s.addOver x cols) u ↔ s.alone x u = true ∧ s.lastVivified x ≠ some u := by
  have other : ∀ y ∈ mails.filter (fun y => y.num ≠ x.num),y.num ≠ x.num := fun y mem =>
    of_decide_eq_true (List.mem_filter.mp mem).2
  have sane : Sane (mails.filter (fun y => y.num ≠ x.num))
      (s.deleteByNum x.num,⟨(s.tidOf x.num).filter (fun tid => s.minTid < tid),0⟩) := by
    refine ⟨links.deleteReal x.positive,fun l mem => ?_⟩
    obtain ⟨row,valid⟩ := Option.filter_eq_some_iff.mp mem
    exact ⟨of_decide_eq_true valid,(links.tids _ l row).2⟩
  have marks : ∀ k ∈ x.mids,(s.ghosted k = true ↔ Ghosted (s.deleteByNum x.num) k) := by
    intro k _
    rw [ghostedIff]
    have positive := x.positive
    refine exists_congr fun n => and_congr_right fun low => ?_
    rw [linkedDelete]
    exact (and_iff_right (by omega)).symm
  obtain ⟨st,run,sane',minTid',marks',vivified⟩ :=
    midsHand other (fun k mem => aloneIff links mem) (fun _ mem => mem) sane minTid marks
  have ends := Handing.atEnd (v := s.alone x) (h := s.ghosted) x.distinct own
  refine Iff.trans ?_ ends
  obtain ⟨s',tid,out,links',ghosts⟩ : ∃ s' tid,s.addOver x cols = s'.store x ⟨tid,some cols⟩ ∧
      Links s' (mails.filter (fun y => y.num ≠ x.num)) ∧ (Ghosted s' u ↔ (if x.mids.all (fun m => !s.ghosted m) then
        s.ghosted u || s.alone x u else (x.mids.foldl (Handing.hand (s.alone x)) s.ghosted) u) = true) := by
    unfold addOver
    dsimp only
    rw [run]
    obtain ⟨s',⟨old,vivid⟩⟩ := st
    have live : ∀ tid ∈ old,0 < tid ∧ tid ≤ s'.thread := fun tid mem => ⟨minTid' ▸ (sane'.2 tid mem).1,(sane'.2 tid mem).2⟩
    by_cases none : vivid = 0
    · obtain ⟨-,all⟩ := vivified.mp none
      obtain ⟨refers,-⟩ := Refers.linkRefs sane'.1 minTid' x.references live
      refine ⟨(s'.linkRefs x.references old).1,(s'.linkRefs x.references old).2,?_,refers.links,?_⟩
      · simp only [none,if_true]
        rfl
      · have quiet : ∀ m ∈ x.mids,s.ghosted m = false := fun m mem => by simpa using List.all_eq_true.mp all m mem
        have still := marks' u own
        rw [Handing.idle quiet] at still
        rw [if_pos all,refers.ghosts u,Bool.or_eq_true,still,aloneIff links own]
    · have some : ¬ x.mids.all (fun m => !s.ghosted m) = true := fun all => none (vivified.mpr ⟨rfl,all⟩)
      rw [if_neg some,marks' u own]
      cases old with
      | some tid =>
        refine ⟨s',tid,?_,sane'.1,Iff.rfl⟩
        simp only [none,if_false]
        rfl
      | none =>
        refine ⟨s'.nextTid.1,s'.nextTid.2,?_,sane'.1.nextTid,Iff.rfl⟩
        simp only [none,if_false]
        rfl
  rw [out,← ghosts]
  refine exists_congr fun n => and_congr_right fun low => ?_
  have positive := x.positive
  rw [storeLinked (links'.absent other)]
  constructor
  · rintro (⟨same,-⟩ | ⟨-,linked⟩)
    · omega
    · exact linked
  · exact fun linked => Or.inr ⟨by omega,linked⟩

/- The stores that add_over and remove_oid lead to from an empty one, with the messages in them -/
inductive Stored {β : Type} [DecidableEq β] (blob : δ → β) : OverIdx δ → List Mail → Prop where
  | empty : Stored blob .empty []
  | add {s : OverIdx δ} {mails : List Mail} (before : Stored blob s mails) (x : Mail) (cols : δ) :
      Stored blob (s.addOver x cols) (x :: mails.filter (fun y => y.num ≠ x.num))
  | remove {s : OverIdx δ} {mails : List Mail} (before : Stored blob s mails) (oid : Option β) (mid : Mid) :
      Stored blob (removeOid blob s oid mid).1 (mails.filter (fun y => y.num ∉ (removeOid blob s oid mid).2))

theorem Links.deleteAll {nums : List Int} (links : Links s mails) (some : ∀ n ∈ nums,n ≠ 0) :
    Links (nums.foldl deleteByNum s) (mails.filter (fun y => y.num ∉ nums)) := by
  induction nums generalizing s mails with
  | nil => exact links.onMails fun y => by simp
  | cons n nums ih =>
    have later : ∀ k ∈ nums,k ≠ 0 := fun k mem => some k (List.mem_cons_of_mem _ mem)
    have both : ∀ y,y ∈ (mails.filter (fun y => y.num ≠ n)).filter (fun y => y.num ∉ nums) ↔
        y ∈ mails.filter (fun y => y.num ∉ n :: nums) := by
      intro y
      simp only [List.mem_filter,decide_eq_true_eq,List.mem_cons,not_or,and_assoc]
    rw [List.foldl_cons]
    rcases Int.lt_or_gt_of_ne (some n List.mem_cons_self) with ghost | positive
    · refine (ih ((links.deleteGhost ghost).onMails fun y => ?_) later).onMails both
      have := y.positive
      simp only [List.mem_filter,decide_eq_true_eq]
      exact ⟨fun mem => ⟨mem,by omega⟩,And.left⟩
    · exact (ih (links.deleteReal positive) later).onMails both

theorem storedLinks {β : Type} [DecidableEq β] {blob : δ → β} (stored : Stored blob s mails) : Links s mails ∧ s.minTid = 0 := by
  induction stored with
  | empty => exact ⟨emptyLinks,rfl⟩
  | add before x cols ih => exact ⟨addOverLinks ih.1 x cols,(addOverRenews ih.1.floor x cols).1.trans ih.2⟩
  | @remove s mails before oid mid ih =>
    have done : removeOid blob s oid mid = _ := removePages s (Nat.lt_succ_self _)
    rw [done]
    refine ⟨ih.1.deleteAll fun n mem => ?_,(deletedRest _ s).2.2.trans ih.2⟩
    have linked := memNumsOf.mp (List.mem_filter.mp (List.mem_filter.mp mem).1).1
    by_cases positive : 0 < n
    · omega
    · exact (ih.1.nonzero linked positive).ne

/- Each Message-ID has at most one ghost, and id2num and over are in step, in every store. A message
that was just added has no ghost for its Message-IDs but where one that is no other message's, and
not its {mid}, is not the last to be vivified. -/
theorem ghostsMissing {β : Type} [DecidableEq β] {blob : δ → β} (stored : Stored blob s mails) :
    (∀ n k m,n < 0 → k < 0 → s.Linked n m → s.Linked k m → n = k) ∧
    (∀ n m,s.Linked n m → s.over.get? n ≠ none) ∧ (∀ n,s.over.get? n ≠ none → ∃ m,s.Linked n m) ∧
    ∀ (x : Mail) (cols : δ),(∀ m ∈ x.mids,∀ n < 0,¬ (s.addOver x cols).Linked n m) ↔
      ∀ u ∈ x.mids,s.alone x u = true → s.lastVivified x = some u := by
  obtain ⟨links,minTid⟩ := storedLinks stored
  have row : ∀ n,s.over.get? n = none ↔ s.tidOf n = none := fun n => Option.map_eq_none_iff.symm
  refine ⟨links.single,fun n m linked none => ?_,fun n there => ?_,fun x cols => ?_⟩
  · obtain ⟨t,found⟩ := links.linkedRow linked
    rw [(row n).mp none] at found
    cases found
  · obtain ⟨t,found⟩ := Option.ne_none_iff_exists'.mp (mt (row n).mpr there)
    exact links.rowLinked found
  · refine forall₂_congr fun u own => ?_
    have ghosts := addOverGhosts links minTid x cols own
    constructor
    · intro none alone
      by_contra apart
      obtain ⟨n,low,linked⟩ := ghosts.mpr ⟨alone,apart⟩
      exact none n low linked
    · intro vivified n low linked
      obtain ⟨alone,apart⟩ := ghosts.mp ⟨n,low,linked⟩
      exact apart (vivified alone)

def missing : Mail := lone 2 twoPositive (cleanMid "a") []

theorem ghostVivified : ¬ ((empty.addOver replyToMissing "oid").addOver missing "oid2").Linked (-1) (cleanMid "a") :=
  ((ghostsMissing (.add .empty replyToMissing "oid" : Stored id _ _)).2.2.2 missing "oid2").mpr (by decide +kernel) _ List.mem_cons_self _
    (by decide)

def ownReference : Mail :=
  ⟨1,Int.one_pos,[cleanMid "a",cleanMid "b"],by decide,cleanMid "a",List.mem_cons_self,[]⟩

/- link_refs takes the second Message-ID of a first message for a missing one. -/
theorem ghostBesideMessage : cleanMid "b" ∈ ownReference.mids ∧
    (empty.addOver ownReference "oid").Linked (-1) (cleanMid "b") ∧ (empty.addOver ownReference "oid").Linked 1 (cleanMid "b") := by
  refine ⟨by decide,⟨[cleanMid "b"],by decide +kernel,List.mem_singleton_self _⟩,⟨[cleanMid "a",cleanMid "b"],by decide +kernel,by decide⟩⟩

end OverIdx
end PublicInbox
