import PublicInbox.Library.Colouring
import PublicInbox.OverIdx

/-! The id2num side of over.sqlite3: which rows are linked to a Message-ID, what the
statements of OverIdx.pm do to thread ids, and the shape every add_over call keeps. -/
namespace PublicInbox
namespace OverIdx
open Keyed Colouring
variable {δ : Type} {s s' : OverIdx δ} {mails : List Mail}

def Linked (s : OverIdx δ) (num : Int) (mid : Mid) : Prop :=
  ∃ ms, s.id2num.get? num = some ms ∧ mid ∈ ms

theorem memNumsOf {num : Int} {mid : Mid} : num ∈ s.numsOf mid ↔ s.Linked num mid := by
  simp [numsOf,Linked,Table.memKeysWhere]

theorem numsOfOne {num : Int} {mid : Mid} (linked : s.Linked num mid)
    (only : ∀ i, s.Linked i mid → i = num) : s.numsOf mid = [num] := by
  have all : ∀ i ∈ s.numsOf mid, i = num := fun i mem => only i (memNumsOf.mp mem)
  have sorted := Table.keysWhereSorted s.id2num (fun _ mids => mid ∈ mids)
  change (s.numsOf mid).Pairwise (· < ·) at sorted
  have mem := memNumsOf.mpr linked
  cases listed : s.numsOf mid with
  | nil => simp [listed] at mem
  | cons a rest =>
    rw [listed] at all sorted
    have first := all a List.mem_cons_self
    cases rest with
    | nil => rw [first]
    | cons b rest =>
      have second := all b (by simp)
      have below := (List.pairwise_cons.mp sorted).1 b List.mem_cons_self
      omega

theorem numsOfSorted (s : OverIdx δ) (mid : Mid) : (s.numsOf mid).Pairwise (· < ·) :=
  Table.keysWhereSorted _ _

@[simp] theorem tidDelete (s : OverIdx δ) (num i : Int) :
    (s.deleteByNum num).tidOf i = if i = num then none else s.tidOf i := by
  unfold tidOf deleteByNum
  rw [Table.getErase]
  split <;> rfl

@[simp] theorem tidMerge (s : OverIdx δ) (winner loser : Nat) (i : Int) :
    (s.mergeThreads winner loser).tidOf i =
      (s.tidOf i).map (fun t => if t = loser then winner else t) := by
  unfold mergeThreads
  split
  · rename_i same
    cases found : s.tidOf i with
    | none => rfl
    | some t =>
      by_cases old : t = loser
      · simp [old,same]
      · simp [old]
  · unfold tidOf
    rw [Table.getMap]
    cases found : s.over.get? i with
    | none => rfl
    | some row =>
      by_cases old : row.tid = loser
      · simp [old]
      · simp [old]

@[simp] theorem tidSet (s : OverIdx δ) (num : Int) (tid : Nat) (i : Int) :
    (s.setTid num tid).tidOf i = if i = num then (s.tidOf i).map (fun _ => tid) else s.tidOf i := by
  unfold tidOf setTid
  rw [Table.getMap]
  cases found : s.over.get? i with
  | none => simp
  | some row =>
    by_cases same : i = num
    · simp [same]
    · simp [same]

@[simp] theorem tidInsert (s : OverIdx δ) (num : Int) (row : Row δ) (i : Int) :
    (s.insertRow num row).tidOf i = if i = num then some row.tid else s.tidOf i := by
  unfold tidOf insertRow
  rw [Table.getInsert]
  split <;> rfl

@[simp] theorem tidNext (s : OverIdx δ) (i : Int) : s.nextTid.1.tidOf i = s.tidOf i := rfl

@[simp] theorem mergeId2num (s : OverIdx δ) (winner loser : Nat) :
    (s.mergeThreads winner loser).id2num = s.id2num := by
  unfold mergeThreads
  split <;> rfl

@[simp] theorem mergeThread (s : OverIdx δ) (winner loser : Nat) :
    (s.mergeThreads winner loser).thread = s.thread := by
  unfold mergeThreads
  split <;> rfl

@[simp] theorem mergeGhosts (s : OverIdx δ) (winner loser : Nat) :
    (s.mergeThreads winner loser).ghosts = s.ghosts := by
  unfold mergeThreads
  split <;> rfl

@[simp] theorem mergeMinTid (s : OverIdx δ) (winner loser : Nat) :
    (s.mergeThreads winner loser).minTid = s.minTid := by
  unfold mergeThreads
  split <;> rfl

@[simp] theorem linkedMerge {winner loser : Nat} {i : Int} {mid : Mid} :
    (s.mergeThreads winner loser).Linked i mid ↔ s.Linked i mid := by
  simp [Linked]

theorem linkedDelete {num i : Int} {mid : Mid} :
    (s.deleteByNum num).Linked i mid ↔ i ≠ num ∧ s.Linked i mid := by
  unfold Linked deleteByNum
  rw [Table.getErase]
  by_cases same : i = num
  · simp [same]
  · simp [same]

/- `mails` are the stored messages. A ghost stands for one Message-ID, has none beside it for
that Message-ID, and never stands for the Message-ID chosen for a stored message. -/
structure Links (s : OverIdx δ) (mails : List Mail) : Prop where
  rows : ∀ n, s.tidOf n = none ↔ s.id2num.get? n = none
  real : ∀ n, 0 < n → ∀ ms, s.id2num.get? n = some ms ↔ ∃ x ∈ mails, x.num = n ∧ x.mids = ms
  ghost : ∀ n ms, n ≤ 0 → s.id2num.get? n = some ms → n < 0 ∧ -s.ghosts ≤ n ∧ ∃ m, ms = [m]
  single : ∀ n k m, n < 0 → k < 0 → s.Linked n m → s.Linked k m → n = k
  chosen : ∀ x ∈ mails, ∀ n < 0, ¬ s.Linked n x.mid
  tids : ∀ n t, s.tidOf n = some t → 0 < t ∧ t ≤ s.thread
  floor : s.minTid ≤ s.thread

def view (s : OverIdx δ) : Colouring.State Int := ⟨s.tidOf,fun i => -s.ghosts ≤ i⟩

namespace Links

theorem linkedRow (links : Links s mails) {i : Int} {m : Mid} (linked : s.Linked i m) :
    ∃ t, s.tidOf i = some t := by
  obtain ⟨ms,found,_⟩ := linked
  cases row : s.tidOf i with
  | none =>
    rw [(links.rows i).mp row] at found
    contradiction
  | some t => exact ⟨t,rfl⟩

theorem rowLinked (links : Links s mails) {i : Int} {t : Nat} (row : s.tidOf i = some t) :
    ∃ m, s.Linked i m := by
  cases found : s.id2num.get? i with
  | none =>
    rw [(links.rows i).mpr found] at row
    contradiction
  | some ms =>
    by_cases positive : 0 < i
    · obtain ⟨x,_,_,same⟩ := (links.real i positive ms).mp found
      exact ⟨x.mid,ms,found,same ▸ x.own⟩
    · obtain ⟨_,_,m,same⟩ := links.ghost i ms (by omega) found
      exact ⟨m,ms,found,by simp [same]⟩

theorem linkedReal (links : Links s mails) {i : Int} {m : Mid} (positive : 0 < i) :
    s.Linked i m ↔ ∃ x ∈ mails, x.num = i ∧ m ∈ x.mids := by
  constructor
  · rintro ⟨ms,found,mem⟩
    obtain ⟨x,stored,same,rfl⟩ := (links.real i positive ms).mp found
    exact ⟨x,stored,same,mem⟩
  · rintro ⟨x,stored,same,mem⟩
    exact ⟨x.mids,(links.real i positive x.mids).mpr ⟨x,stored,same,rfl⟩,mem⟩

theorem linkedGhost (links : Links s mails) {i : Int} {m k : Mid} (negative : i < 0)
    (left : s.Linked i m) (right : s.Linked i k) : m = k := by
  obtain ⟨ms,found,mem⟩ := left
  obtain ⟨ks,found',mem'⟩ := right
  rw [found] at found'
  cases found'
  obtain ⟨_,_,g,rfl⟩ := links.ghost i ms (by omega) found
  exact (List.mem_singleton.mp mem).trans (List.mem_singleton.mp mem').symm

theorem nonzero (links : Links s mails) {i : Int} {m : Mid} (linked : s.Linked i m)
    (notReal : ¬ 0 < i) : i < 0 := by
  obtain ⟨ms,found,_⟩ := linked
  exact (links.ghost i ms (by omega) found).1

theorem used (links : Links s mails) {i : Int} {m : Mid} (linked : s.Linked i m) :
    -s.ghosts ≤ i := by
  by_cases positive : 0 < i
  · omega
  · obtain ⟨ms,found,_⟩ := linked
    exact (links.ghost i ms (by omega) found).2.1

theorem present (links : Links s mails) : ∀ i t, (view s).colour i = some t → (view s).used i := by
  intro i t row
  obtain ⟨m,linked⟩ := links.rowLinked row
  exact links.used linked

theorem recolour (links : Links s mails) (id2num : s'.id2num = s.id2num)
    (ghosts : s'.ghosts = s.ghosts) (minTid : s'.minTid = s.minTid)
    (rows : ∀ n, s'.tidOf n = none ↔ s.tidOf n = none)
    (tids : ∀ n t, s'.tidOf n = some t → 0 < t ∧ t ≤ s'.thread) (grown : s.thread ≤ s'.thread) :
    Links s' mails where
  rows := fun n => by rw [rows n,id2num]; exact links.rows n
  real := by rw [id2num]; exact links.real
  ghost := by rw [id2num,ghosts]; exact links.ghost
  single := by unfold Linked; rw [id2num]; exact links.single
  chosen := by unfold Linked; rw [id2num]; exact links.chosen
  tids := tids
  floor := by rw [minTid]; exact Nat.le_trans links.floor grown

theorem nextTid (links : Links s mails) : Links s.nextTid.1 mails :=
  links.recolour rfl rfl rfl (fun _ => Iff.rfl)
    (fun n t row => ⟨(links.tids n t row).1,Nat.le_succ_of_le (links.tids n t row).2⟩)
    (Nat.le_succ _)

theorem merge (links : Links s mails) {winner : Nat} (positive : 0 < winner)
    (bound : winner ≤ s.thread) (loser : Nat) : Links (s.mergeThreads winner loser) mails := by
  refine links.recolour (mergeId2num ..) (mergeGhosts ..) (mergeMinTid ..) ?_ ?_ (by simp)
  · intro n
    rw [tidMerge]
    cases s.tidOf n <;> simp
  · intro n t row
    rw [tidMerge] at row
    cases old : s.tidOf n with
    | none => simp [old] at row
    | some u =>
      simp only [old,Option.map_some,Option.some.injEq] at row
      rw [mergeThread]
      split at row
      · exact row ▸ ⟨positive,bound⟩
      · exact row ▸ links.tids n u old

theorem setTid (links : Links s mails) {tid : Nat} (positive : 0 < tid)
    (bound : tid ≤ s.thread) (num : Int) : Links (s.setTid num tid) mails := by
  refine links.recolour rfl rfl rfl ?_ ?_ (Nat.le_refl _)
  · intro n
    rw [tidSet]
    split
    · cases s.tidOf n <;> simp
    · rfl
  · intro n t row
    rw [tidSet] at row
    split at row
    · cases old : s.tidOf n with
      | none => simp [old] at row
      | some u =>
        simp only [old,Option.map_some,Option.some.injEq] at row
        exact row ▸ ⟨positive,bound⟩
    · exact links.tids n t row

theorem deleteGhost (links : Links s mails) {num : Int} (negative : num < 0) :
    Links (s.deleteByNum num) mails where
  rows := by
    intro n
    rw [tidDelete]
    change _ ↔ (s.id2num.erase num).get? n = none
    rw [Table.getErase]
    split
    · simp
    · exact links.rows n
  real := by
    intro n positive ms
    change (s.id2num.erase num).get? n = some ms ↔ _
    rw [Table.getErase,if_neg (by omega)]
    exact links.real n positive ms
  ghost := by
    intro n ms low found
    change (s.id2num.erase num).get? n = some ms at found
    rw [Table.getErase] at found
    split at found
    · contradiction
    · exact links.ghost n ms low found
  single := fun n k m lown lowk left right =>
    links.single n k m lown lowk (linkedDelete.mp left).2 (linkedDelete.mp right).2
  chosen := fun x mem n low linked => links.chosen x mem n low (linkedDelete.mp linked).2
  tids := by
    intro n t row
    rw [tidDelete] at row
    split at row
    · contradiction
    · exact links.tids n t row
  floor := links.floor

theorem onMails (links : Links s mails) {mails' : List Mail} (same : ∀ y, y ∈ mails ↔ y ∈ mails') :
    Links s mails' :=
  { links with
    real := by simpa only [← same] using links.real
    chosen := by simpa only [← same] using links.chosen }

theorem deleteReal (links : Links s mails) {num : Int} (positive : 0 < num) :
    Links (s.deleteByNum num) (mails.filter (fun y => y.num ≠ num)) where
  rows := by
    intro n
    rw [tidDelete]
    change _ ↔ (s.id2num.erase num).get? n = none
    rw [Table.getErase]
    split
    · simp
    · exact links.rows n
  real := by
    intro n positive ms
    change (s.id2num.erase num).get? n = some ms ↔ _
    rw [Table.getErase]
    simp only [List.mem_filter,decide_eq_true_eq]
    by_cases same : n = num
    · rw [if_pos same]
      constructor
      · intro found
        contradiction
      · rintro ⟨x,⟨_,other⟩,here,_⟩
        exact absurd (here.trans same) other
    · rw [if_neg same,links.real n positive ms]
      constructor
      · rintro ⟨x,stored,here,mids⟩
        exact ⟨x,⟨stored,fun h => same (here.symm.trans h)⟩,here,mids⟩
      · rintro ⟨x,⟨stored,_⟩,here,mids⟩
        exact ⟨x,stored,here,mids⟩
  ghost := by
    intro n ms low found
    change (s.id2num.erase num).get? n = some ms at found
    rw [Table.getErase,if_neg (by omega)] at found
    exact links.ghost n ms low found
  single := fun n k m lown lowk left right =>
    links.single n k m lown lowk (linkedDelete.mp left).2 (linkedDelete.mp right).2
  chosen := fun x mem n low linked =>
    links.chosen x (List.mem_filter.mp mem).1 n low (linkedDelete.mp linked).2
  tids := by
    intro n t row
    rw [tidDelete] at row
    split at row
    · contradiction
    · exact links.tids n t row
  floor := links.floor

end Links

theorem foldLink (num : Int) (mids : List Mid) (s : OverIdx δ) :
    mids.foldl (fun s mid => s.link num mid) s =
      if mids = [] then s
      else { s with id2num := s.id2num.insert num ((s.id2num.get? num).getD [] ++ mids) } := by
  induction mids generalizing s with
  | nil => rfl
  | cons m rest ih =>
    rw [List.foldl_cons,ih]
    cases rest with
    | nil => simp [link]
    | cons k rest =>
      simp only [link,Table.getInsert]
      simp only [if_true,Option.getD_some,List.append_assoc,List.singleton_append,if_neg,
        reduceCtorEq,not_false_eq_true]
      congr 1
      refine Table.ext ?_
      intro j
      simp only [Table.getInsert]
      split <;> rfl

def store (s : OverIdx δ) (x : Mail) (row : Row δ) : OverIdx δ :=
  x.mids.foldl (fun s mid => s.link x.num mid) (s.insertRow x.num row)

theorem storeTid (s : OverIdx δ) (x : Mail) (row : Row δ) (i : Int) :
    (s.store x row).tidOf i = if i = x.num then some row.tid else s.tidOf i := by
  unfold store
  rw [foldLink,if_neg (List.ne_nil_of_mem x.own)]
  exact tidInsert s x.num row i

theorem storeId2num (s : OverIdx δ) (x : Mail) (row : Row δ)
    (fresh : s.id2num.get? x.num = none) (i : Int) :
    (s.store x row).id2num.get? i = if i = x.num then some x.mids else s.id2num.get? i := by
  unfold store
  rw [foldLink,if_neg (List.ne_nil_of_mem x.own)]
  simp only [Table.getInsert,insertRow,fresh,Option.getD_none,List.nil_append]

theorem storeLinked {x : Mail} {row : Row δ} (fresh : s.id2num.get? x.num = none)
    {i : Int} {m : Mid} :
    (s.store x row).Linked i m ↔ (i = x.num ∧ m ∈ x.mids) ∨ (i ≠ x.num ∧ s.Linked i m) := by
  unfold Linked
  rw [storeId2num s x row fresh]
  by_cases same : i = x.num
  · simp [same]
  · simp [same]

theorem storeRest (s : OverIdx δ) (x : Mail) (row : Row δ) :
    (s.store x row).thread = s.thread ∧ (s.store x row).ghosts = s.ghosts ∧
      (s.store x row).minTid = s.minTid := by
  unfold store
  rw [foldLink,if_neg (List.ne_nil_of_mem x.own)]
  exact ⟨rfl,rfl,rfl⟩

theorem Links.absent (links : Links s mails) {x : Mail} (fresh : ∀ y ∈ mails, y.num ≠ x.num) :
    s.id2num.get? x.num = none := by
  cases found : s.id2num.get? x.num with
  | none => rfl
  | some ms =>
    obtain ⟨y,stored,same,_⟩ := (links.real x.num x.positive ms).mp found
    exact absurd same (fresh y stored)

theorem Links.store (links : Links s mails) {x : Mail} {row : Row δ}
    (fresh : ∀ y ∈ mails, y.num ≠ x.num) (own : ∀ n < 0, ¬ s.Linked n x.mid)
    (positive : 0 < row.tid) (bound : row.tid ≤ s.thread) :
    Links (s.store x row) (x :: mails) := by
  have absent := links.absent fresh
  obtain ⟨thread,ghosts,minTid⟩ := storeRest s x row
  have below : ∀ n, n ≤ 0 → n ≠ x.num := fun n low same => by
    have := x.positive
    omega
  have old : ∀ n < 0, ∀ m, (s.store x row).Linked n m → s.Linked n m := by
    intro n low m linked
    rcases (storeLinked absent).mp linked with ⟨same,_⟩ | ⟨_,here⟩
    · exact absurd same (below n (by omega))
    · exact here
  refine ⟨?_,?_,?_,?_,?_,?_,?_⟩
  · intro n
    rw [storeTid,storeId2num s x row absent]
    split
    · simp
    · exact links.rows n
  · intro n pos ms
    rw [storeId2num s x row absent]
    by_cases same : n = x.num
    · rw [if_pos same]
      constructor
      · intro found
        exact ⟨x,List.mem_cons_self,same.symm,Option.some.inj found⟩
      · rintro ⟨y,stored,here,mids⟩
        rcases List.mem_cons.mp stored with rfl | before
        · rw [mids]
        · exact absurd (here.trans same) (fresh y before)
    · rw [if_neg same,links.real n pos ms]
      constructor
      · rintro ⟨y,stored,rest⟩
        exact ⟨y,List.mem_cons_of_mem _ stored,rest⟩
      · rintro ⟨y,stored,here,mids⟩
        rcases List.mem_cons.mp stored with rfl | before
        · exact absurd here.symm same
        · exact ⟨y,before,here,mids⟩
  · intro n ms low found
    rw [storeId2num s x row absent,if_neg (below n low)] at found
    rw [ghosts]
    exact links.ghost n ms low found
  · exact fun n k m lown lowk left right =>
      links.single n k m lown lowk (old n lown m left) (old k lowk m right)
  · intro y stored n low linked
    rcases List.mem_cons.mp stored with rfl | before
    · exact own n low (old n low _ linked)
    · exact links.chosen y before n low (old n low _ linked)
  · intro n t found
    rw [storeTid] at found
    rw [thread]
    split at found
    · cases found
      exact ⟨positive,bound⟩
    · exact links.tids n t found
  · rw [thread,minTid]
    exact links.floor

theorem ghostTid (s : OverIdx δ) (mid : Mid) (i : Int) :
    (s.createGhost mid).1.tidOf i =
      if i = -(s.ghosts + 1) then some (s.thread + 1) else s.tidOf i := by
  change Option.map Row.tid ((s.over.insert _ _).get? i) = _
  rw [Table.getInsert]
  split <;> rfl

theorem Links.ghostFree (links : Links s mails) : s.id2num.get? (-(s.ghosts + 1)) = none := by
  cases found : s.id2num.get? (-(s.ghosts + 1)) with
  | none => rfl
  | some ms =>
    have := (links.ghost _ ms (by omega) found).2.1
    omega

theorem ghostId2num (links : Links s mails) (mid : Mid) (i : Int) :
    (s.createGhost mid).1.id2num.get? i =
      if i = -(s.ghosts + 1) then some [mid] else s.id2num.get? i := by
  change (s.id2num.insert (-(s.ghosts + 1))
    ((s.id2num.get? (-(s.ghosts + 1))).getD [] ++ [mid])).get? i = _
  rw [Table.getInsert,links.ghostFree]
  rfl

theorem ghostLinked (links : Links s mails) (mid : Mid) {i : Int} {m : Mid} :
    (s.createGhost mid).1.Linked i m ↔ (i = -(s.ghosts + 1) ∧ m = mid) ∨ s.Linked i m := by
  unfold Linked
  rw [ghostId2num links]
  by_cases same : i = -(s.ghosts + 1)
  · have free : s.id2num.get? i = none := same ▸ links.ghostFree
    rw [if_pos same,free]
    simp only [same,Option.some.injEq,exists_eq_left',List.mem_singleton,true_and,
      reduceCtorEq,false_and,exists_false,or_false]
  · rw [if_neg same]
    simp only [same,false_and,false_or]

theorem Links.createGhost (links : Links s mails) {mid : Mid} (lone : ∀ i, ¬ s.Linked i mid) :
    Links (s.createGhost mid).1 mails := by
  have table := ghostId2num links mid
  refine ⟨?_,?_,?_,?_,?_,?_,Nat.le_succ_of_le links.floor⟩
  · intro n
    rw [ghostTid,table]
    split
    · simp
    · exact links.rows n
  · intro n positive ms
    rw [table,if_neg (by omega)]
    exact links.real n positive ms
  · intro n ms low found
    change n < 0 ∧ -((s.ghosts + 1 : Nat) : Int) ≤ n ∧ _
    rw [table] at found
    split at found
    · cases found
      exact ⟨by omega,by omega,mid,rfl⟩
    · obtain ⟨negative,bound,one⟩ := links.ghost n ms low found
      exact ⟨negative,by omega,one⟩
  · intro n k m lown lowk left right
    rcases (ghostLinked links mid).mp left with ⟨rfl,rfl⟩ | old
    · rcases (ghostLinked links m).mp right with ⟨rfl,_⟩ | old'
      · rfl
      · exact absurd old' (lone k)
    · rcases (ghostLinked links mid).mp right with ⟨rfl,rfl⟩ | old'
      · exact absurd old (lone n)
      · exact links.single n k m lown lowk old old'
  · intro x stored n low linked
    rcases (ghostLinked links mid).mp linked with ⟨_,rfl⟩ | old
    · exact lone x.num ((links.linkedReal x.positive).mpr ⟨x,stored,rfl,x.own⟩)
    · exact links.chosen x stored n low old
  · intro n t row
    change 0 < t ∧ t ≤ s.thread + 1
    rw [ghostTid] at row
    split at row
    · cases row
      exact ⟨Nat.succ_pos _,Nat.le_refl _⟩
    · exact ⟨(links.tids n t row).1,Nat.le_succ_of_le (links.tids n t row).2⟩

end OverIdx
end PublicInbox
