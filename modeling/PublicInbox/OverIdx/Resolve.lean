import PublicInbox.OverIdx.Links

/-! resolve_mid_to_tid: every row linked to the Message-ID ends in one thread. `conn` is the
relation the threads are to be compared with, `c` a Message-ID all rows of the thread at hand
should be related to. -/
namespace PublicInbox
namespace OverIdx
open Keyed Colouring Paging
variable {δ : Type} {s s' : OverIdx δ} {mails : List Mail} {conn : Mid → Mid → Prop} {c r : Mid}

structure Bonds (conn : Mid → Mid → Prop) (mails : List Mail) : Prop where
  equiv : Equivalence conn
  own : ∀ x ∈ mails, ∀ m ∈ x.mids, ∀ k ∈ x.mids, conn m k

def Near (conn : Mid → Mid → Prop) (s : OverIdx δ) (c : Mid) (t : Nat) : Prop :=
  ∀ i m, s.tidOf i = some t → s.Linked i m → conn m c

def Sound (conn : Mid → Mid → Prop) (s : OverIdx δ) : Prop :=
  ∀ t, s.minTid < t → ∀ i m, s.tidOf i = some t → s.Linked i m → Near conn s m t

theorem Bonds.row (bonds : Bonds conn mails) (links : Links s mails) {i : Int} {m k : Mid}
    (left : s.Linked i m) (right : s.Linked i k) : conn m k := by
  by_cases positive : 0 < i
  · obtain ⟨ms,found,mem⟩ := left
    obtain ⟨ks,found',mem'⟩ := right
    rw [found] at found'
    cases found'
    obtain ⟨x,stored,_,rfl⟩ := (links.real i positive ms).mp found
    exact bonds.own x stored m mem k mem'
  · rw [links.linkedGhost (links.nonzero left positive) left right]
    exact bonds.equiv.refl k

theorem Sound.near (sound : Sound conn s) (bonds : Bonds conn mails) {i : Int} {t : Nat} {m : Mid}
    (live : s.minTid < t) (row : s.tidOf i = some t) (linked : s.Linked i m) (toC : conn m c) :
    Near conn s c t :=
  fun j k row' linked' => bonds.equiv.trans (sound t live i m row linked j k row' linked') toC

theorem eachByMidVisit {σ : Type} {cb : Int → Row δ → OverIdx δ × σ → (OverIdx δ × σ) × Bool}
    {mid : Mid} {P : OverIdx δ × σ → Prop} (shape : ∀ st, P st → Links st.1 mails)
    {st : OverIdx δ × σ} (holds : P st)
    (framed : Framed (fun st : OverIdx δ × σ => st.1.numsOf mid) (eachRow cb) P)
    (again : ∀ k st, P st → k ∈ st.1.numsOf mid → 0 < k →
      eachRow cb k (eachRow cb k st).1 = ((eachRow cb k st).1,true)) :
    eachByMid mid cb st = (visit (eachRow cb) (st.1.numsOf mid) st).1 := by
  have links := shape st holds
  have listed : (st.1.numsOf mid).filter (fun k => -(st.1.ghosts : Int) ≤ k) = st.1.numsOf mid := by
    refine List.filter_eq_self.mpr ?_
    intro k mem
    exact decide_eq_true (links.used (memNumsOf.mp mem))
  have sorted : ∀ st : OverIdx δ × σ, (st.1.numsOf mid).Pairwise (· < ·) :=
    fun st => numsOfSorted st.1 mid
  unfold eachByMid
  refine pagesVisit (by decide) sorted framed again holds listed (Nat.lt_succ_self _) ?_
  intro j left k right below
  by_cases positive : 0 < k
  · exact positive
  · have lowk := links.nonzero (memNumsOf.mp right) positive
    have lowj := links.nonzero (memNumsOf.mp left) (by omega)
    have same := links.single j k mid lowj lowk (memNumsOf.mp left) (memNumsOf.mp right)
    omega

def absorb (tid : Nat) (s : OverIdx δ) (num : Int) : OverIdx δ :=
  match s.tidOf num with
  | none => s
  | some t => s.mergeThreads tid t

theorem eachRowAbsorb (tid : Nat) (ghosts : List Int) (num : Int) :
    eachRow resolveRow num (s,⟨some tid,ghosts⟩) = ((s.absorb tid num,⟨some tid,ghosts⟩),true) := by
  unfold eachRow absorb tidOf
  cases found : s.over.get? num with
  | none => rfl
  | some row => rfl

theorem visitAbsorb (tid : Nat) (ghosts : List Int) (nums : List Int) (s : OverIdx δ) :
    visit (eachRow resolveRow) nums (s,⟨some tid,ghosts⟩) =
      ((nums.foldl (absorb tid) s,⟨some tid,ghosts⟩),true) := by
  induction nums generalizing s with
  | nil => rfl
  | cons num rest ih =>
    rw [visit,eachRowAbsorb]
    exact ih _

theorem absorbSame {tid : Nat} {num : Int} : (s.absorb tid num).absorb tid num = s.absorb tid num := by
  cases found : s.tidOf num with
  | none => simp [absorb,found]
  | some t =>
    have here : (s.mergeThreads tid t).tidOf num = some tid := by simp [found]
    simp only [absorb,found,here]
    exact if_pos rfl

@[simp] theorem absorbRest (tid : Nat) (s : OverIdx δ) (num : Int) :
    (s.absorb tid num).id2num = s.id2num ∧ (s.absorb tid num).ghosts = s.ghosts ∧
      (s.absorb tid num).minTid = s.minTid ∧ (s.absorb tid num).thread = s.thread := by
  unfold absorb
  split
  · exact ⟨rfl,rfl,rfl,rfl⟩
  · simp

structure First (s s' : OverIdx δ) (num : Int) (tid : Nat) (ghosts : List Int) : Prop where
  row : ∀ before, eachRow resolveRow num (s,⟨none,before⟩) = ((s',⟨some tid,before ++ ghosts⟩),true)
  rest : s'.id2num = s.id2num ∧ s'.minTid = s.minTid ∧ s.thread ≤ s'.thread
  live : s.minTid < tid
  bound : tid ≤ s'.thread
  cases : (s' = s ∧ ghosts = [] ∧ s.tidOf num = some tid) ∨
    (0 < num ∧ ghosts = [] ∧ s' = s.nextTid.1.setTid num tid ∧ tid = s.thread + 1 ∧
      ∃ d ≤ s.minTid, s.tidOf num = some d) ∨
    (num < 0 ∧ ghosts = [num] ∧ s' = s.nextTid.1 ∧ tid = s.thread + 1 ∧
      ∃ d ≤ s.minTid, s.tidOf num = some d)

theorem firstRow (links : Links s mails) {num : Int} (linked : s.Linked num r) :
    ∃ s' tid ghosts, First s s' num tid ghosts ∧ Links s' mails := by
  obtain ⟨d,tid⟩ := links.linkedRow linked
  obtain ⟨row,found,rfl⟩ : ∃ row, s.over.get? num = some row ∧ row.tid = d :=
    Option.map_eq_some_iff.mp tid
  by_cases valid : s.minTid < row.tid
  · refine ⟨s,row.tid,[],⟨?_,⟨rfl,rfl,Nat.le_refl _⟩,valid,(links.tids num _ tid).2,Or.inl ⟨rfl,rfl,tid⟩⟩,links⟩
    simp [eachRow,found,resolveRow,valid]
  · have live : s.minTid < s.thread + 1 := Nat.lt_succ_of_le links.floor
    by_cases positive : 0 < num
    · refine ⟨s.nextTid.1.setTid num (s.thread + 1),s.thread + 1,[],
        ⟨?_,⟨rfl,rfl,Nat.le_succ _⟩,live,Nat.le_refl _,Or.inr (Or.inl
          ⟨positive,rfl,rfl,rfl,row.tid,Nat.not_lt.mp valid,tid⟩)⟩,
        links.nextTid.setTid (Nat.succ_pos _) (Nat.le_refl _) num⟩
      simp [eachRow,found,resolveRow,valid,positive,nextTid]
    · have negative := links.nonzero linked positive
      refine ⟨s.nextTid.1,s.thread + 1,[num],
        ⟨?_,⟨rfl,rfl,Nat.le_succ _⟩,live,Nat.le_refl _,Or.inr (Or.inr
          ⟨negative,rfl,rfl,rfl,row.tid,Nat.not_lt.mp valid,tid⟩)⟩,links.nextTid⟩
      simp [eachRow,found,resolveRow,valid,positive,negative,nextTid]

def InStep (mails : List Mail) (st : OverIdx δ × Resolving) : Prop :=
  Links st.1 mails ∧ ∀ t ∈ st.2.tid, 0 < t ∧ t ≤ st.1.thread

theorem linkedOf (same : s'.id2num = s.id2num) {i : Int} {m : Mid} :
    s'.Linked i m ↔ s.Linked i m := by
  unfold Linked
  rw [same]

theorem Links.absorb (links : Links s mails) {tid : Nat} (positive : 0 < tid)
    (bound : tid ≤ s.thread) (num : Int) : Links (s.absorb tid num) mails := by
  unfold OverIdx.absorb
  split
  · exact links
  · exact links.merge positive bound _

theorem resolveFramed (mails : List Mail) (mid : Mid) :
    Framed (fun st : OverIdx δ × Resolving => st.1.numsOf mid) (eachRow resolveRow) (InStep mails) := by
  rintro k ⟨s,⟨tid,ghosts⟩⟩ ⟨links,bounds⟩ mem
  have same : ∀ s' : OverIdx δ, s'.id2num = s.id2num →
      ∀ j, k < j → (j ∈ s'.numsOf mid ↔ j ∈ s.numsOf mid) := by
    intro s' table j _
    rw [memNumsOf,memNumsOf]
    exact linkedOf table
  cases tid with
  | none =>
    obtain ⟨s',tid,more,first,links'⟩ := firstRow links (memNumsOf.mp mem)
    rw [first.row]
    refine ⟨rfl,⟨links',?_⟩,same s' first.rest.1⟩
    intro t here
    cases here
    exact ⟨Nat.lt_of_le_of_lt (Nat.zero_le _) first.live,first.bound⟩
  | some tid =>
    obtain ⟨positive,bound⟩ := bounds tid rfl
    obtain ⟨table,_,_,thread⟩ := absorbRest tid s k
    rw [eachRowAbsorb]
    refine ⟨rfl,⟨links.absorb positive bound k,?_⟩,same _ table⟩
    intro t here
    cases here
    exact ⟨positive,thread.symm ▸ bound⟩

theorem resolveAgain {mid : Mid} (k : Int) (st : OverIdx δ × Resolving) (shape : InStep mails st)
    (mem : k ∈ st.1.numsOf mid) (positive : 0 < k) :
    eachRow resolveRow k (eachRow resolveRow k st).1 = ((eachRow resolveRow k st).1,true) := by
  obtain ⟨s,⟨tid,ghosts⟩⟩ := st
  cases tid with
  | none =>
    obtain ⟨s',tid,more,first,_⟩ := firstRow shape.1 (memNumsOf.mp mem)
    have here : s'.tidOf k = some tid := by
      rcases first.cases with ⟨rfl,_,same⟩ | ⟨_,_,rfl,_,d,_,old⟩ | ⟨negative,_⟩
      · exact same
      · simp [old]
      · omega
    rw [first.row,eachRowAbsorb]
    simp [absorb,here,mergeThreads]
  | some tid => rw [eachRowAbsorb,eachRowAbsorb,absorbSame]

theorem resolveVisit (links : Links s mails) (mid : Mid) :
    eachByMid mid resolveRow (s,⟨none,[]⟩) =
      (visit (eachRow resolveRow) (s.numsOf mid) (s,⟨none,[]⟩)).1 :=
  eachByMidVisit (fun _ shape => shape.1) ⟨links,by simp⟩ (resolveFramed mails mid) resolveAgain

theorem resolveEmpty (links : Links s mails) {mid : Mid} (lone : s.numsOf mid = []) :
    s.resolveMidToTid mid = s.createGhost mid := by
  unfold resolveMidToTid
  rw [resolveVisit links,lone]
  rfl

theorem resolveSome (links : Links s mails) {mid : Mid} {num : Int} {nums : List Int}
    (listed : s.numsOf mid = num :: nums) :
    ∃ s' tid ghosts, First s s' num tid ghosts ∧ Links s' mails ∧
      s.resolveMidToTid mid = (ghosts.foldl deleteByNum (nums.foldl (absorb tid) s'),tid) := by
  have linked : s.Linked num mid := memNumsOf.mp (listed ▸ List.mem_cons_self)
  obtain ⟨s',tid,ghosts,first,links'⟩ := firstRow links linked
  refine ⟨s',tid,ghosts,first,links',?_⟩
  unfold resolveMidToTid
  rw [resolveVisit links,listed,visit,first.row]
  simp only [List.nil_append,visitAbsorb]

theorem mergeNear {winner loser u : Nat} (nearL : Near conn s c loser) (nearU : Near conn s c u) :
    Near conn (s.mergeThreads winner loser) c u := by
  intro i m row linked
  have linked' := linkedMerge.mp linked
  rw [tidMerge] at row
  cases old : s.tidOf i with
  | none => simp [old] at row
  | some v =>
    simp only [old,Option.map_some,Option.some.injEq] at row
    split at row
    · rename_i same
      exact nearL i m (same ▸ old) linked'
    · exact nearU i m (row ▸ old) linked'

structure Absorbed (mails : List Mail) (tid : Nat) (s s' : OverIdx δ) : Prop where
  links : Links s' mails
  id2num : s'.id2num = s.id2num
  minTid : s'.minTid = s.minTid
  thread : s'.thread = s.thread
  absorbs : Absorbs s.minTid (view s) (some tid) (view s') (some tid)

theorem absorbStep (links : Links s mails) {tid : Nat} (live : s.minTid < tid)
    (bound : tid ≤ s.thread) (num : Int) : Absorbed mails tid s (s.absorb tid num) := by
  obtain ⟨table,ghosts,minTid,thread⟩ := absorbRest tid s num
  refine ⟨links.absorb (Nat.zero_lt_of_lt live) bound num,table,minTid,thread,?_⟩
  unfold absorb
  cases found : s.tidOf num with
  | none => exact .refl (by simpa using live)
  | some t =>
    refine .merge live ?_ (fun i => tidMerge s tid t i)
    simp [view]

theorem absorbAll (links : Links s mails) {tid : Nat} (live : s.minTid < tid)
    (bound : tid ≤ s.thread) {nums : List Int} (rows : ∀ k ∈ nums, ∃ m, s.Linked k m) :
    Absorbed mails tid s (nums.foldl (absorb tid) s) ∧
      ∀ k ∈ nums, (nums.foldl (absorb tid) s).tidOf k = some tid := by
  induction nums generalizing s with
  | nil => exact ⟨⟨links,rfl,rfl,rfl,.refl (by simpa using live)⟩,by simp⟩
  | cons num rest ih =>
    have step := absorbStep links live bound num
    have rows' : ∀ k ∈ num :: rest, ∃ m, (s.absorb tid num).Linked k m := by
      intro k mem
      obtain ⟨m,linked⟩ := rows k mem
      exact ⟨m,(linkedOf step.id2num).mpr linked⟩
    obtain ⟨whole,all⟩ := ih step.links (step.minTid.symm ▸ live) (step.thread.symm ▸ bound)
      (fun k mem => rows' k (List.mem_cons_of_mem _ mem))
    refine ⟨⟨whole.links,whole.id2num.trans step.id2num,whole.minTid.trans step.minTid,
      whole.thread.trans step.thread,step.absorbs.trans links.present (step.minTid ▸ whole.absorbs)⟩,?_⟩
    intro k mem
    rcases List.mem_cons.mp mem with rfl | later
    · obtain ⟨m,linked⟩ := rows' k List.mem_cons_self
      obtain ⟨t,row⟩ := links.linkedRow ((linkedOf step.id2num).mp linked)
      have here : (s.absorb tid k).tidOf k = some tid := by simp [absorb,row]
      rcases whole.absorbs.track tid rfl k here with gone | same
      · obtain ⟨u,row'⟩ := whole.links.linkedRow ((linkedOf whole.id2num).mpr linked)
        exact absurd (gone.symm.trans row') (by simp)
      · exact same
    · exact all k later

theorem absorbNear {tid : Nat} {nums : List Int} (near : Near conn s c tid)
    (others : ∀ k ∈ nums, ∀ t, s.tidOf k = some t → Near conn s c t) :
    Near conn (nums.foldl (absorb tid) s) c tid := by
  induction nums generalizing s with
  | nil => exact near
  | cons num rest ih =>
    cases found : s.tidOf num with
    | none =>
      have idle : s.absorb tid num = s := by simp [absorb,found]
      rw [List.foldl_cons,idle]
      exact ih near (fun k mem => others k (List.mem_cons_of_mem _ mem))
    | some t =>
      have move : s.absorb tid num = s.mergeThreads tid t := by simp [absorb,found]
      have nearT := others num List.mem_cons_self t found
      rw [List.foldl_cons,move]
      refine ih (mergeNear nearT near) ?_
      intro k mem u row
      rw [tidMerge] at row
      cases old : s.tidOf k with
      | none => simp [old] at row
      | some v =>
        simp only [old,Option.map_some,Option.some.injEq] at row
        split at row
        · exact row ▸ mergeNear nearT near
        · exact row ▸ mergeNear nearT (others k (List.mem_cons_of_mem _ mem) v old)

theorem First.absorbs {num : Int} {tid : Nat} {ghosts : List Int}
    (first : First s s' num tid ghosts) :
    Absorbs s.minTid (view s) none (view s') (some tid) := by
  rcases first.cases with ⟨rfl,_,_⟩ | ⟨_,_,rfl,_,d,stale,old⟩ | ⟨_,_,rfl,_,_⟩
  · exact .start first.live
  · refine .pick first.live old stale rfl ?_ ?_
    · simp [view,old]
    · intro i other
      simp [view,other]
  · exact .start first.live

theorem First.near {num : Int} {tid : Nat} {ghosts : List Int} (first : First s s' num tid ghosts)
    (links : Links s mails) (bonds : Bonds conn mails) (sound : Sound conn s)
    (linked : s.Linked num r) (toC : conn r c) :
    Near conn s' c tid ∧ ∀ u, Near conn s c u → Near conn s' c u := by
  have fresh : tid = s.thread + 1 → ∀ i, s.tidOf i ≠ some tid := by
    rintro rfl i row
    have := (links.tids i _ row).2
    omega
  rcases first.cases with ⟨rfl,_,row⟩ | ⟨_,_,rfl,new,d,stale,old⟩ | ⟨_,_,rfl,new,_⟩
  · exact ⟨sound.near bonds first.live row linked toC,fun _ near => near⟩
  · have here : ∀ i m, ((s.nextTid.1.setTid num tid).tidOf i = some tid) → s.Linked i m → conn m c := by
      intro i m row linked'
      rw [tidSet] at row
      split at row
      · rename_i same
        subst same
        exact bonds.equiv.trans (bonds.row links linked' linked) toC
      · exact absurd row (fresh new i)
    refine ⟨here,?_⟩
    intro u near i m row linked'
    by_cases same : u = tid
    · exact here i m (same ▸ row) linked'
    · rw [tidSet] at row
      split at row
      · rename_i here
        subst here
        simp only [tidNext,old,Option.map_some,Option.some.injEq] at row
        exact absurd row.symm same
      · exact near i m row linked'
  · exact ⟨fun i _ row _ => absurd row (fresh new i),fun _ near => near⟩

structure Resolved (conn : Mid → Mid → Prop) (c r : Mid) (mails : List Mail) (s s' : OverIdx δ)
    (tid : Nat) : Prop where
  links : Links s' mails
  minTid : s'.minTid = s.minTid
  thread : s.thread ≤ s'.thread
  bound : tid ≤ s'.thread
  absorbs : Absorbs s.minTid (view s) none (view s') (some tid)
  all : ∀ i, s'.Linked i r → s'.tidOf i = some tid
  fresh : ∀ i m, s'.Linked i m → s.Linked i m ∨ (m = r ∧ i < -s.ghosts ∧ ∀ j, ¬ s.Linked j r)
  lost : ∀ i m, s.Linked i m → s'.Linked i m ∨
    (i < 0 ∧ ∃ t ≤ s.minTid, s.tidOf i = some t)
  left : (∃ i, s'.Linked i r) ∨ ∃ n < 0, s.Linked n r ∧ (∃ t ≤ s.minTid, s.tidOf n = some t) ∧
    ∀ i, s.Linked i r → i = n
  near : Sound conn s →
    (∀ k n t, k < n → s.Linked k r → s.Linked n r → s.tidOf n = some t → t ≤ s.minTid →
      Near conn s c t) → Near conn s' c tid

theorem resolveNone (links : Links s mails) (toC : conn r c)
    (lone : s.numsOf r = []) :
    Resolved conn c r mails s (s.createGhost r).1 (s.createGhost r).2 := by
  have none : ∀ i, ¬ s.Linked i r := by
    intro i linked
    have mem := memNumsOf.mpr linked
    rw [lone] at mem
    contradiction
  have new : ¬ (view s).used (-(s.ghosts + 1)) := by
    simp only [view]
    omega
  have made : (s.createGhost r).1.Linked (-(s.ghosts + 1)) r :=
    (ghostLinked links r).mpr (Or.inl ⟨rfl,rfl⟩)
  have live : s.minTid < s.thread + 1 := Nat.lt_succ_of_le links.floor
  refine ⟨links.createGhost none,rfl,Nat.le_succ _,Nat.le_refl _,?_,?_,?_,?_,Or.inl ⟨_,made⟩,?_⟩
  · refine .appear links.present live new ?_ ?_ ?_
    · intro i used
      change -((s.ghosts + 1 : Nat) : Int) ≤ i
      change -(s.ghosts : Int) ≤ i at used
      omega
    · exact (ghostTid s r _).trans (if_pos rfl)
    · intro i other
      exact (ghostTid s r i).trans (if_neg other)
  · intro i linked
    rcases (ghostLinked links r).mp linked with ⟨rfl,_⟩ | old
    · exact (ghostTid s r _).trans (if_pos rfl)
    · exact absurd old (none i)
  · intro i m linked
    rcases (ghostLinked links r).mp linked with ⟨rfl,same⟩ | old
    · exact Or.inr ⟨same,by omega,none⟩
    · exact Or.inl old
  · exact fun i m linked => Or.inl ((ghostLinked links r).mpr (Or.inr linked))
  · intro _ _ i m row linked
    rcases (ghostLinked links r).mp linked with ⟨_,rfl⟩ | old
    · exact toC
    · rw [ghostTid] at row
      split at row
      · rename_i same
        rw [same] at old
        have := links.used old
        omega
      · have := (links.tids i _ row).2
        change s.thread + 1 ≤ s.thread at this
        omega

theorem resolveFirst (links : Links s mails) (bonds : Bonds conn mails) (toC : conn r c)
    {num : Int} {nums : List Int} (listed : s.numsOf r = num :: nums) :
    Resolved conn c r mails s (s.resolveMidToTid r).1 (s.resolveMidToTid r).2 := by
  obtain ⟨s₁,tid,ghosts,first,links₁,out⟩ := resolveSome links listed
  obtain ⟨table,floor,counter⟩ := first.rest
  have order := listed ▸ numsOfSorted s r
  obtain ⟨above,_⟩ := List.pairwise_cons.mp order
  have listing : ∀ i, s.Linked i r ↔ i ∈ num :: nums := fun i => listed ▸ memNumsOf.symm
  have linked : s.Linked num r := (listing num).mpr List.mem_cons_self
  have rest : ∀ k ∈ nums, s.Linked k r := fun k mem => (listing k).mpr (List.mem_cons_of_mem _ mem)
  obtain ⟨whole,all⟩ := absorbAll links₁ (floor.symm ▸ first.live) first.bound
    (fun k mem => ⟨r,(linkedOf table).mpr (rest k mem)⟩)
  have absorbs := first.absorbs.trans links.present (floor ▸ whole.absorbs)
  have same : ∀ i m, (nums.foldl (absorb tid) s₁).Linked i m ↔ s.Linked i m :=
    fun i m => (linkedOf whole.id2num).trans (linkedOf table)
  have near : Sound conn s →
      (∀ k n t, k < n → s.Linked k r → s.Linked n r → s.tidOf n = some t → t ≤ s.minTid →
        Near conn s c t) → Near conn (nums.foldl (absorb tid) s₁) c tid := by
    intro sound stale
    obtain ⟨near,others⟩ := first.near links bonds sound linked toC
    refine absorbNear near ?_
    intro k mem t row
    by_cases label : t = tid
    · exact label ▸ near
    · have row₀ : s.tidOf k = some t :=
        (first.absorbs.moved k t row).resolve_left (fun h => label (Option.some.inj h).symm)
      refine others t ?_
      by_cases valid : s.minTid < t
      · exact sound.near bonds valid row₀ (rest k mem) toC
      · exact stale num k t (above k mem) linked (rest k mem) row₀ (Nat.not_lt.mp valid)
  rw [out]
  have kept : ghosts = [] → s₁.tidOf num = some tid →
      Resolved conn c r mails s (ghosts.foldl deleteByNum (nums.foldl (absorb tid) s₁)) tid := by
    rintro rfl here
    refine ⟨whole.links,whole.minTid.trans floor,whole.thread.symm ▸ counter,whole.thread.symm ▸ first.bound,absorbs,?_,
      fun i m l => Or.inl ((same i m).mp l),fun i m l => Or.inl ((same i m).mpr l),
      Or.inl ⟨num,(same num r).mpr linked⟩,near⟩
    intro i l
    rcases List.mem_cons.mp ((listing i).mp ((same i r).mp l)) with rfl | later
    · rcases whole.absorbs.track tid rfl i here with gone | good
      · obtain ⟨u,row⟩ := whole.links.linkedRow l
        exact absurd (gone.symm.trans row) (by simp)
      · exact good
    · exact all i later
  rcases first.cases with ⟨rfl,none,row⟩ | ⟨_,none,rfl,_,d,_,old⟩ | ⟨negative,one,rfl,_,d,dying,old⟩
  · exact kept none row
  · exact kept none (by simp [old])
  · subst one
    have gone : ∀ i m, ((nums.foldl (absorb tid) s.nextTid.1).deleteByNum num).Linked i m ↔
        i ≠ num ∧ s.Linked i m := fun i m => by rw [linkedDelete,same]
    refine ⟨whole.links.deleteGhost negative,whole.minTid,whole.thread.symm ▸ counter,whole.thread.symm ▸ first.bound,?_,?_,
      fun i m l => Or.inl ((gone i m).mp l).2,?_,?_,?_⟩
    · refine absorbs.trans links.present ?_
      refine .vanish (k := num) (by simpa using first.live) rfl ?_ ?_
      · simp [view]
      · intro i other
        simp [view,other]
    · intro i l
      obtain ⟨other,before⟩ := (gone i r).mp l
      have later := (List.mem_cons.mp ((listing i).mp before)).resolve_left other
      simpa [other] using all i later
    · intro i m l
      by_cases here : i = num
      · exact Or.inr ⟨here ▸ negative,d,dying,here ▸ old⟩
      · exact Or.inl ((gone i m).mpr ⟨here,l⟩)
    · cases nums with
      | nil =>
        refine Or.inr ⟨num,negative,linked,⟨d,dying,old⟩,?_⟩
        intro i l
        exact List.mem_singleton.mp ((listing i).mp l)
      | cons k nums =>
        have other : k ≠ num := fun h => by
          have := above k List.mem_cons_self
          omega
        exact Or.inl ⟨k,(gone k r).mpr ⟨other,rest k List.mem_cons_self⟩⟩
    · intro sound stale i m row l
      rw [List.foldl_cons,List.foldl_nil,tidDelete] at row
      split at row
      · contradiction
      · exact near sound stale i m row ((same i m).mpr ((gone i m).mp l).2)

theorem resolved (links : Links s mails) (bonds : Bonds conn mails) (toC : conn r c) :
    Resolved conn c r mails s (s.resolveMidToTid r).1 (s.resolveMidToTid r).2 := by
  cases listed : s.numsOf r with
  | nil => exact resolveEmpty links listed ▸ resolveNone links toC listed
  | cons num nums => exact resolveFirst links bonds toC listed

end OverIdx
end PublicInbox
