import PublicInbox.Xapcmd
import Mathlib.Data.List.Induction
import Mathlib.Data.List.Sort

/-! query_one_mset of LeiXSearch.pm for a saved search of one local external without --threads: the pages of
the mset in descending docid order, and the mark external.<dir>.maxuid that one run leaves for the next. The
articles of the external only grow. Keywords of the messages, progress and the check that the
mark in the config is one number are left out. -/
namespace PublicInbox.LeiXSearch
open Keyed
open Isearch (mdocid)
open Xapcmd (num2docid msetToArtnums)

structure State (M : Type) where
  docs : Table Nat M
  maxuid : Option Nat
  -- What each run passed to $each_smsg
  passed : List (List Nat)

inductive Event (M : Type) where
  -- A message with the article number that is `gap` behind the next one
  | grow (gap : Nat) (m : M)
  -- lei q or lei up with {total}
  | up (total : Nat)

variable {M : Type}

def State.start : State M := ⟨.empty,none,[]⟩

def pageLimit (total : Nat) : Nat := if 10000 < total then 10000 else total

theorem pageGrows {size offset total : Nat} (more : pageLimit total ≤ size ∧ offset + size < total) :
    total - (offset + size) < total - offset := by
  have := more.1
  unfold pageLimit at this
  split at this <;> omega

section
variable (nshard : Nat) (bytes : M → Nat) (docs : Table Nat M) (found : List Nat) (total least : Nat)

def page (offset : Nat) : List Nat := (found.drop offset).take (if pageLimit total = 0 then 50 else pageLimit total)

def passes (ids : List Nat) : List Nat :=
  ids.filter fun n => decide (least < n) && (docs.get? n).any fun m => bytes m ≠ 0

def queryLoop (offset : Nat) : List Nat × List Nat :=
  let mset := page found total offset
  let ids := msetToArtnums nshard mset
  if _more : pageLimit total ≤ mset.length ∧ offset + mset.length < total then
    let (later,firstIds) := queryLoop (offset + mset.length)
    (passes bytes docs least ids ++ later,firstIds)
  else (passes bytes docs least ids,ids)
termination_by total - offset
decreasing_by exact pageGrows (by assumption)

end

def matching (p : M → Bool) (docs : Table Nat M) : List Nat := docs.keysWhere fun _ m => p m

section
variable (nshard : Nat) (p : M → Bool) (bytes : M → Nat)

def enquire (docs : Table Nat M) : List Nat := ((matching p docs).map (num2docid nshard)).insertionSort (· ≥ ·)

def queryOneMset (s : State M) (total : Nat) : State M :=
  let (passed,firstIds) := queryLoop nshard bytes s.docs (enquire nshard p s.docs) total (s.maxuid.getD 0) 0
  { s with
    maxuid := firstIds.head? <|> s.maxuid
    passed := s.passed ++ [passed] }

def step (s : State M) : Event M → State M
  | .grow gap m => { s with docs := s.docs.insert (s.docs.keys.getLast?.getD 0 + 1 + gap) m }
  | .up total => queryOneMset nshard p bytes s total

def runs (events : List (Event M)) : State M := events.foldl (step nshard p bytes) .start

end

section
variable {nshard : Nat} {bytes : M → Nat} {docs : Table Nat M} {found : List Nat} {total least : Nat}

theorem pageIds (offset : Nat) :
    msetToArtnums nshard (page found total offset) = page (msetToArtnums nshard found) total offset := by
  simp only [msetToArtnums,page,List.map_take,List.map_drop]

theorem idsLength : (msetToArtnums nshard found).length = found.length := List.length_map _

theorem pageFull {offset : Nat} (short : found.length ≤ total)
    (last : ¬ (pageLimit total ≤ (page found total offset).length ∧ offset + (page found total offset).length < total)) :
    page found total offset = found.drop offset := by
  refine List.take_of_length_le ?_
  rw [page,List.length_take,List.length_drop] at last
  rw [List.length_drop]
  have limit : pageLimit total = if 10000 < total then 10000 else total := rfl
  generalize pageLimit total = n at last limit ⊢
  split at limit <;> split at last <;> split <;> omega

theorem pageThen {offset : Nat} (more : pageLimit total ≤ (page found total offset).length ∧
      offset + (page found total offset).length < total) :
    (page found total offset).length = pageLimit total ∧ 0 < pageLimit total ∧
      found.drop offset = page found total offset ++ found.drop (offset + (page found total offset).length) := by
  have some : pageLimit total ≠ 0 := by
    unfold pageLimit
    split <;> omega
  have length : (page found total offset).length = pageLimit total := by
    refine Nat.le_antisymm ?_ more.1
    rw [page,if_neg some]
    exact List.length_take_le _ _
  refine ⟨length,Nat.pos_of_ne_zero some,?_⟩
  rw [length,← List.drop_drop,page,if_neg some,List.take_append_drop]

theorem loopPassed (short : found.length ≤ total) (offset : Nat) :
    (queryLoop nshard bytes docs found total least offset).1 = passes bytes docs least ((msetToArtnums nshard found).drop offset) := by
  rw [queryLoop]
  split
  · rename_i more
    have later := loopPassed short (offset + (page found total offset).length)
    obtain ⟨-,-,parts⟩ := pageThen more
    dsimp only
    rw [later,msetToArtnums,msetToArtnums,passes,passes,passes,← List.filter_append,← List.map_drop,← List.map_drop,
      ← List.map_append,← parts]
  · rename_i last
    dsimp only
    rw [pageFull short last,msetToArtnums,msetToArtnums,List.map_drop]
termination_by total - offset
decreasing_by exact pageGrows (by assumption)

theorem loopLast (offset : Nat) :
    (queryLoop nshard bytes docs found total least offset).2 ⊆ (msetToArtnums nshard found).drop offset := by
  rw [queryLoop]
  split
  · rename_i more
    refine List.Subset.trans (loopLast (offset + (page found total offset).length)) ?_
    rw [← List.drop_drop]
    exact List.drop_subset _ _
  · rw [pageIds]
    exact List.take_subset _ _
termination_by total - offset
decreasing_by exact pageGrows (by assumption)

theorem loopEmpty (large : 10000 < total) (short : found.length ≤ total) {offset : Nat} (inside : offset ≤ found.length)
    (before : offset < total) : (queryLoop nshard bytes docs found total least offset).2 = [] ↔
      (found.length - offset) % 10000 = 0 ∧ found.length < total := by
  have limit : pageLimit total = 10000 := if_pos large
  have size : (page found total offset).length = Nat.min 10000 (found.length - offset) := by
    rw [page,List.length_take,List.length_drop,limit]
    rfl
  rw [queryLoop]
  split
  · rename_i more
    obtain ⟨length,-,-⟩ := pageThen more
    rw [limit] at length
    have enough : 10000 ≤ found.length - offset := by
      have : Nat.min 10000 (found.length - offset) ≤ found.length - offset := Nat.min_le_right _ _
      omega
    refine (loopEmpty large short (by omega) more.2).trans ?_
    rw [length]
    have : (found.length - (offset + 10000)) % 10000 = (found.length - offset) % 10000 := by omega
    rw [this]
  · rename_i last
    dsimp only
    rw [← List.length_eq_zero_iff,idsLength,size]
    rw [limit,size] at last
    rw [show Nat.min 10000 (found.length - offset) = min 10000 (found.length - offset) from rfl] at last ⊢
    omega
termination_by total - offset
decreasing_by exact pageGrows (by assumption)

end

def Numbered (docs : Table Nat M) : Prop := ∀ num ∈ docs.keys,0 < num

theorem enquired {nshard : Nat} (some : 0 < nshard) (p : M → Bool) {docs : Table Nat M} (numbered : Numbered docs) :
    msetToArtnums nshard (enquire nshard p docs) = (matching p docs).reverse := by
  have own : ∀ n,Xapcmd.idxShard nshard n < nshard := fun n => Nat.mod_lt n some
  have positive : ∀ n ∈ matching p docs,0 < n := fun n mem => by
    obtain ⟨m,there,-⟩ := Table.memKeysWhere.mp mem
    exact numbered n (Table.memKeys.mpr ⟨m,there⟩)
  have ascending : ((matching p docs).map (num2docid nshard)).Pairwise (· < ·) := by
    refine List.pairwise_map.mpr ((Table.keysWhereSorted docs _).imp_of_mem fun mem _ less => ?_)
    exact Xapcmd.combinedLess (own _) (positive _ mem) less
  have sorted : enquire nshard p docs = ((matching p docs).map (num2docid nshard)).reverse := by
    refine ((List.perm_insertionSort _ _).trans (List.reverse_perm _).symm).eq_of_pairwise' (List.pairwise_insertionSort _ _) ?_
    exact List.pairwise_reverse.mpr (ascending.imp le_of_lt)
  have back : ∀ n ∈ matching p docs,mdocid nshard (num2docid nshard n) = n := fun n mem =>
    Xapcmd.combinedNum (own n) (positive n mem)
  rw [sorted,msetToArtnums,List.map_reverse,List.map_map]
  exact congrArg List.reverse ((List.map_congr_left back).trans (List.map_id _))

variable {nshard : Nat} {p : M → Bool} {bytes : M → Nat}

theorem grown {docs : Table Nat M} (gap : Nat) : ∀ num ∈ docs.keys,num < docs.keys.getLast?.getD 0 + 1 + gap := by
  intro num mem
  cases last : docs.keys.getLast? with
  | none => rw [List.getLast?_eq_none_iff.mp last] at mem; cases mem
  | some top =>
    obtain ⟨front,keys⟩ := List.getLast?_eq_some_iff.mp last
    have sorted := docs.keysSorted
    rw [keys] at mem sorted
    rcases List.mem_append.mp mem with inside | same
    · have := (List.pairwise_append.mp sorted).2.2 num inside top List.mem_cons_self
      rw [Option.getD_some]
      omega
    · rw [List.mem_singleton.mp same,Option.getD_some]
      omega

theorem growKeys (docs : Table Nat M) (gap : Nat) (m : M) :
    (docs.insert (docs.keys.getLast?.getD 0 + 1 + gap) m).keys = docs.keys ++ [docs.keys.getLast?.getD 0 + 1 + gap] := by
  have above : ∀ r ∈ docs.rows,r.1 < docs.keys.getLast?.getD 0 + 1 + gap := fun r mem => grown gap r.1 (List.mem_map_of_mem mem)
  have last := Table.putLast (a := m) above
  exact (congrArg (List.map Prod.fst) last).trans List.map_append

theorem stepNumbered {s : State M} (numbered : Numbered s.docs) (e : Event M) : Numbered (step nshard p bytes s e).docs := by
  cases e with
  | grow gap m =>
    intro num mem
    obtain ⟨m',there⟩ := Table.memKeys.mp mem
    rw [step,Table.getInsert] at there
    split at there
    · rename_i same
      omega
    · exact numbered num (Table.memKeys.mpr ⟨m',there⟩)
  | up total => exact numbered

theorem runsNumbered (events : List (Event M)) : Numbered (runs nshard p bytes events).docs := by
  induction events using List.reverseRecOn with
  | nil => intro num mem; cases mem
  | append_singleton events e ih =>
    rw [runs,List.foldl_append]
    exact stepNumbered ih e

theorem runsSnoc (events : List (Event M)) (e : Event M) :
    runs nshard p bytes (events ++ [e]) = step nshard p bytes (runs nshard p bytes events) e := by
  rw [runs,List.foldl_append]
  rfl

def Largest (p : M → Bool) (docs : Table Nat M) (mark : Option Nat) : Prop :=
  ∃ n,mark = some n ∧ n ∈ matching p docs ∧ ∀ k ∈ matching p docs,k ≤ n

structure Right (p : M → Bool) (bytes : M → Nat) (s : State M) : Prop where
  once : ∀ num m,s.docs.get? num = some m → p m = true → bytes m ≠ 0 → s.passed.flatten.count num = 1
  mark : matching p s.docs ≠ [] → Largest p s.docs s.maxuid

def Fits (p : M → Bool) (s : State M) (total : Nat) : Prop :=
  total ≤ 10000 ∨ (matching p s.docs).length < 10000 ∨
    ((matching p s.docs).length % 10000 = 0 ∧ (matching p s.docs).length < total ∧ Largest p s.docs s.maxuid)

def Ups (events : List (Event M)) (holds : List (Event M) → Nat → Prop) : Prop :=
  ∀ before total after,events = before ++ .up total :: after → holds before total

section
variable {s : State M} {total : Nat} (some : 0 < nshard) (numbered : Numbered s.docs)
include some numbered

theorem enquireLength : (enquire nshard p s.docs).length = (matching p s.docs).length := by
  rw [← @idsLength nshard,enquired some p numbered,List.length_reverse]

theorem upPassed (short : (matching p s.docs).length ≤ total) : (queryOneMset nshard p bytes s total).passed =
    s.passed ++ [passes bytes s.docs (s.maxuid.getD 0) (matching p s.docs).reverse] := by
  have passed := @loopPassed _ nshard bytes s.docs _ total (s.maxuid.getD 0)
    (by rwa [enquireLength (p := p) some numbered]) 0
  rw [List.drop_zero,enquired some p numbered] at passed
  exact congrArg (fun l => s.passed ++ [l]) passed

theorem upSingle (short : (matching p s.docs).length ≤ total) (single : total ≤ 10000 ∨ (matching p s.docs).length < 10000) :
    (queryLoop nshard bytes s.docs (enquire nshard p s.docs) total (s.maxuid.getD 0) 0).2 = (matching p s.docs).reverse := by
  have length := enquireLength (p := p) some numbered
  have last : ¬ (pageLimit total ≤ (page (enquire nshard p s.docs) total 0).length ∧
      0 + (page (enquire nshard p s.docs) total 0).length < total) := by
    have size : (page (enquire nshard p s.docs) total 0).length ≤ (matching p s.docs).length := by
      rw [page,List.length_take,List.length_drop,length]
      omega
    have limit : pageLimit total = if 10000 < total then 10000 else total := rfl
    split at limit <;> omega
  rw [queryLoop,dif_neg last]
  dsimp only
  rw [pageFull (by rwa [length]) last,List.drop_zero,enquired some p numbered]

theorem upSeveral (large : 10000 < total) (many : 10000 ≤ (matching p s.docs).length) :
    (queryLoop nshard bytes s.docs (enquire nshard p s.docs) total (s.maxuid.getD 0) 0).2 ⊆
      (matching p s.docs).reverse.drop 10000 := by
  have limit : pageLimit total = 10000 := if_pos large
  have size : (page (enquire nshard p s.docs) total 0).length = 10000 := by
    rw [page,limit,if_neg (by decide),List.length_take,List.length_drop,enquireLength (p := p) some numbered,Nat.sub_zero]
    exact Nat.min_eq_left many
  have more : pageLimit total ≤ (page (enquire nshard p s.docs) total 0).length ∧
      0 + (page (enquire nshard p s.docs) total 0).length < total := ⟨by rw [limit,size],by rwa [size,Nat.zero_add]⟩
  have later := @loopLast _ nshard bytes s.docs (enquire nshard p s.docs) total (s.maxuid.getD 0)
    (0 + (page (enquire nshard p s.docs) total 0).length)
  rw [enquired some p numbered] at later
  rw [queryLoop,dif_pos more]
  dsimp only
  rwa [size,Nat.zero_add] at later ⊢

end

theorem largestTop {docs : Table Nat M} {top : Nat} {rest : List Nat} (whole : (matching p docs).reverse = top :: rest)
    (mark : Option Nat) : Largest p docs mark ↔ mark = some top := by
  have descending : (top :: rest).Pairwise (· > ·) := by
    rw [← whole]
    exact List.pairwise_reverse.mpr (Table.keysWhereSorted docs _)
  have mem : ∀ k,k ∈ matching p docs ↔ k = top ∨ k ∈ rest := fun k => by
    rw [← List.mem_reverse,whole,List.mem_cons]
  have above : ∀ k ∈ matching p docs,k ≤ top := fun k inside => by
    rcases (mem k).mp inside with rfl | later
    · exact le_rfl
    · exact ((List.pairwise_cons.mp descending).1 k later).le
  constructor
  · rintro ⟨n,rfl,inside,all⟩
    exact congrArg some (Nat.le_antisymm (above n inside) (all top ((mem top).mpr (.inl rfl))))
  · rintro rfl
    exact ⟨top,rfl,(mem top).mpr (.inl rfl),above⟩

theorem upMark {s : State M} {total : Nat} (some' : 0 < nshard) (numbered : Numbered s.docs)
    (short : (matching p s.docs).length ≤ total) (any : matching p s.docs ≠ []) :
    Largest p s.docs (queryOneMset nshard p bytes s total).maxuid ↔ Fits p s total := by
  obtain ⟨top,rest,whole⟩ := List.exists_cons_of_ne_nil (fun none => any (List.reverse_eq_nil_iff.mp none))
  have stored : (queryOneMset nshard p bytes s total).maxuid =
    ((queryLoop nshard bytes s.docs (enquire nshard p s.docs) total (s.maxuid.getD 0) 0).2.head? <|> s.maxuid) := rfl
  rw [largestTop whole,stored]
  by_cases single : total ≤ 10000 ∨ (matching p s.docs).length < 10000
  · rw [upSingle some' numbered short single,whole]
    exact iff_of_true rfl (single.elim .inl fun few => .inr (.inl few))
  · obtain ⟨large,many⟩ := not_or.mp single
    have later := @upSeveral _ nshard p bytes s total some' numbered (Nat.lt_of_not_le large) (Nat.le_of_not_lt many)
    have empty := @loopEmpty _ nshard bytes s.docs (enquire nshard p s.docs) total (s.maxuid.getD 0) (Nat.lt_of_not_le large)
      (by rwa [enquireLength (p := p) some' numbered]) 0 (Nat.zero_le _) (by omega)
    rw [enquireLength (p := p) some' numbered,Nat.sub_zero] at empty
    generalize (queryLoop nshard bytes s.docs (enquire nshard p s.docs) total (s.maxuid.getD 0) 0).2 = firstIds at later empty ⊢
    cases firstIds with
    | nil =>
      obtain ⟨whole',under⟩ := empty.mp rfl
      have fits : Fits p s total ↔ Largest p s.docs s.maxuid :=
        ⟨fun fits => (fits.resolve_left large).elim (fun few => absurd few many) fun last => last.2.2,
          fun mark => .inr (.inr ⟨whole',under,mark⟩)⟩
      rw [fits,largestTop whole]
      simp
    | cons id ids =>
      refine iff_of_false (fun same => ?_) fun fits => ?_
      · have top' : id = top := by simpa using same
        have inside : top ∈ rest.drop 9999 := by
          have mem := later List.mem_cons_self
          rwa [whole,top'] at mem
        have descending : (top :: rest).Pairwise (· > ·) := by
          rw [← whole]
          exact List.pairwise_reverse.mpr (Table.keysWhereSorted s.docs _)
        exact absurd ((List.pairwise_cons.mp descending).1 top (List.mem_of_mem_drop inside)) (lt_irrefl top)
      · rcases fits with small | few | ⟨whole',under,-⟩
        · exact large small
        · exact many few
        · cases empty.mpr ⟨whole',under⟩

structure Kept (p : M → Bool) (bytes : M → Nat) (s : State M) : Prop where
  mark : ∀ n,s.maxuid = some n → n ∈ s.docs.keys
  counts : ∀ num,s.passed.flatten.count num =
    if num ∈ matching p s.docs ∧ num ≤ s.maxuid.getD 0 ∧ (s.docs.get? num).any (fun m => bytes m ≠ 0) then 1 else 0

theorem matchingKeys {docs : Table Nat M} {num : Nat} (mem : num ∈ matching p docs) : num ∈ docs.keys := by
  obtain ⟨m,there,-⟩ := Table.memKeysWhere.mp mem
  exact Table.memKeys.mpr ⟨m,there⟩

theorem keptGrow {s : State M} (kept : Kept p bytes s) (gap : Nat) (m : M) :
    Kept p bytes (step nshard p bytes s (.grow gap m)) := by
  have above := @grown _ s.docs gap
  have low : s.maxuid.getD 0 < s.docs.keys.getLast?.getD 0 + 1 + gap := by
    cases mark : s.maxuid with
    | none => rw [Option.getD_none]; omega
    | some n => exact above n (kept.mark n mark)
  refine ⟨fun n mark => ?_,fun num => (kept.counts num).trans ?_⟩
  · obtain ⟨m',there⟩ := Table.memKeys.mp (kept.mark n mark)
    refine Table.memKeys.mpr ⟨m',?_⟩
    rw [step,Table.getInsert,if_neg (Nat.ne_of_lt (above n (kept.mark n mark))),there]
  · by_cases new : num = s.docs.keys.getLast?.getD 0 + 1 + gap
    · rw [if_neg fun is => absurd (matchingKeys is.1) fun mem => Nat.ne_of_lt (above num mem) new,
        if_neg fun is => absurd is.2.1 (by rw [new]; exact Nat.not_le_of_lt low)]
    · have same : (step nshard p bytes s (.grow gap m)).docs.get? num = s.docs.get? num := by
        rw [step,Table.getInsert,if_neg new]
      have still : num ∈ matching p (step nshard p bytes s (.grow gap m)).docs ↔ num ∈ matching p s.docs := by
        rw [matching,matching,Table.memKeysWhere,Table.memKeysWhere,same]
      rw [same]
      simp only [still]
      rfl

theorem countPasses {docs : Table Nat M} {least num : Nat} :
    (passes bytes docs least (matching p docs).reverse).count num =
      if num ∈ matching p docs ∧ least < num ∧ (docs.get? num).any (fun m => bytes m ≠ 0) then 1 else 0 := by
  have nodup : (matching p docs).reverse.Nodup :=
    List.nodup_reverse.mpr ((Table.keysWhereSorted docs _).imp ne_of_lt)
  rw [passes,(nodup.filter _).count]
  simp only [List.mem_filter,List.mem_reverse,Bool.and_eq_true,decide_eq_true_eq]

theorem keptUp {s : State M} {total : Nat} (some' : 0 < nshard) (numbered : Numbered s.docs)
    (short : (matching p s.docs).length ≤ total) (fits : matching p s.docs ≠ [] → Fits p s total) (kept : Kept p bytes s) :
    Kept p bytes (queryOneMset nshard p bytes s total) := by
  have docs : (queryOneMset nshard p bytes s total).docs = s.docs := rfl
  have counts : ∀ num,(queryOneMset nshard p bytes s total).passed.flatten.count num = s.passed.flatten.count num +
      (passes bytes s.docs (s.maxuid.getD 0) (matching p s.docs).reverse).count num := fun num => by
    rw [upPassed some' numbered short,List.flatten_append,List.count_append,List.flatten_singleton]
  by_cases any : matching p s.docs = []
  · have none : (queryLoop nshard bytes s.docs (enquire nshard p s.docs) total (s.maxuid.getD 0) 0).2 = [] := by
      have sub := @loopLast _ nshard bytes s.docs (enquire nshard p s.docs) total (s.maxuid.getD 0) 0
      rw [enquired some' p numbered,any] at sub
      exact List.subset_nil.mp sub
    have mark : (queryOneMset nshard p bytes s total).maxuid = s.maxuid := by
      rw [queryOneMset]
      dsimp only
      rw [none]
      rfl
    refine ⟨fun n is => kept.mark n (mark.symm.trans is),fun num => ?_⟩
    rw [counts,kept.counts,countPasses,docs]
    simp only [any,List.not_mem_nil,false_and,if_false]
  · obtain ⟨n,mark,mem,above⟩ := (@upMark _ nshard p bytes _ _ some' numbered short any).mpr (fits any)
    refine ⟨fun k is => ?_,fun num => ?_⟩
    · rw [mark] at is
      cases is
      exact matchingKeys mem
    · rw [counts,kept.counts,countPasses,mark,docs,Option.getD_some]
      by_cases own : num ∈ matching p s.docs ∧ (s.docs.get? num).any (fun m => bytes m ≠ 0) = true
      · have most := above num own.1
        rcases Nat.lt_or_ge (s.maxuid.getD 0) num with later | earlier
        · rw [if_neg fun is => absurd is.2.1 (Nat.not_le_of_lt later),if_pos ⟨own.1,later,own.2⟩,if_pos ⟨own.1,most,own.2⟩]
        · rw [if_pos ⟨own.1,earlier,own.2⟩,if_neg fun is => absurd is.2.1 (Nat.not_lt_of_le earlier),if_pos ⟨own.1,most,own.2⟩]
      · rw [if_neg fun is => own ⟨is.1,is.2.2⟩,if_neg fun is => own ⟨is.1,is.2.2⟩,if_neg fun is => own ⟨is.1,is.2.2⟩]

def Limited (nshard : Nat) (p : M → Bool) (bytes : M → Nat) (events : List (Event M)) : Prop :=
  Ups events fun before total => (matching p (runs nshard p bytes before).docs).length ≤ total

theorem Ups.front {events after : List (Event M)} {holds : List (Event M) → Nat → Prop} (all : Ups (events ++ after) holds) :
    Ups events holds := by
  intro before total rest is
  exact all before total (rest ++ after) (by rw [is,List.append_assoc]; rfl)

theorem keptRuns (some' : 0 < nshard) {events : List (Event M)} (limited : Limited nshard p bytes events)
    (fits : Ups events fun before total =>
      matching p (runs nshard p bytes before).docs ≠ [] → Fits p (runs nshard p bytes before) total) :
    Kept p bytes (runs nshard p bytes events) := by
  induction events using List.reverseRecOn with
  | nil =>
    refine ⟨fun n is => ?_,fun num => ?_⟩
    · cases is
    · rw [if_neg]
      · rfl
      · exact fun is => absurd is.1 List.not_mem_nil
  | append_singleton events e ih =>
    have before := ih limited.front fits.front
    rw [runsSnoc]
    cases e with
    | grow gap m => exact keptGrow before gap m
    | up total => exact keptUp some' (runsNumbered events) (limited events total [] rfl) (fits events total [] rfl) before

/- Every match is passed in one run and the mark is always the largest match found, exactly where the results of
every run fit. -/
theorem savedSearchExact (some' : 0 < nshard) (events : List (Event M)) (limited : Limited nshard p bytes events) :
    (Ups events fun before total => Right p bytes (runs nshard p bytes (before ++ [.up total]))) ↔
      Ups events fun before total =>
        matching p (runs nshard p bytes before).docs ≠ [] → Fits p (runs nshard p bytes before) total := by
  constructor
  · intro right before total after is any
    have mark := (right before total after is).mark
    rw [runsSnoc] at mark
    exact (upMark some' (runsNumbered before) (limited before total after is) any).mp (mark any)
  · intro fits before total after is
    have parts : events = (before ++ [.up total]) ++ after := by rw [is,List.append_assoc]; rfl
    rw [parts] at limited fits
    have kept := keptRuns some' limited.front fits.front
    have short := limited before total after (by rw [List.append_assoc]; rfl)
    have largest : matching p (runs nshard p bytes (before ++ [.up total])).docs ≠ [] →
        Largest p (runs nshard p bytes (before ++ [.up total])).docs (runs nshard p bytes (before ++ [.up total])).maxuid := by
      intro any
      rw [runsSnoc] at any ⊢
      exact (upMark some' (runsNumbered before) short any).mpr
        (fits before total after (by rw [List.append_assoc]; rfl) any)
    refine ⟨fun num m there yes sized => ?_,largest⟩
    have mem : num ∈ matching p (runs nshard p bytes (before ++ [.up total])).docs := Table.memKeysWhere.mpr ⟨m,there,yes⟩
    obtain ⟨n,mark,-,above⟩ := largest (List.ne_nil_of_mem mem)
    rw [kept.counts,if_pos]
    refine ⟨mem,?_,?_⟩
    · rw [mark]
      exact above num mem
    · rw [there]
      simpa using sized

theorem upsNone {events : List (Event M)} {holds : List (Event M) → Nat → Prop} (only : ∀ e ∈ events,∀ t,e ≠ .up t) : Ups events holds := by
  intro before total after is
  exact absurd rfl (only (.up total) (is ▸ List.mem_append_right _ List.mem_cons_self) total)

theorem Ups.snoc {events : List (Event M)} {e : Event M} {holds : List (Event M) → Nat → Prop} (front : Ups events holds)
    (last : ∀ total,e = .up total → holds events total) : Ups (events ++ [e]) holds := by
  intro before total after is
  rcases List.eq_nil_or_concat after with rfl | ⟨rest,x,rfl⟩
  · obtain ⟨rfl,same⟩ := List.append_inj' is rfl
    exact last total (List.head_eq_of_cons_eq same)
  · rw [List.concat_eq_append,← List.cons_append,← List.append_assoc] at is
    exact front before total rest (List.append_inj_left' is rfl)

def twoRuns : List (Event Unit) := [.grow 0 (),.up 5,.grow 1 (),.up 5]

theorem upsTwoRuns {holds : List (Event Unit) → Nat → Prop} (first : holds [.grow 0 ()] 5) (second : holds [.grow 0 (),.up 5,.grow 1 ()] 5) :
    Ups twoRuns holds := by
  have none : Ups [.grow 0 ()] holds := upsNone (by simp)
  have one : Ups [.grow 0 (),.up 5] holds := none.snoc fun total is => by
    cases is
    exact first
  have grown : Ups [.grow 0 (),.up 5,.grow 1 ()] holds := one.snoc fun total is => by cases is
  refine grown.snoc fun total is => ?_
  cases is
  exact second

theorem twoRunsRight : Right (fun _ => true) (fun _ => 1) (runs 3 (fun _ => true) (fun _ => 1) [.grow 0 (),.up 5]) ∧
    Right (fun _ => true) (fun _ => 1) (runs 3 (fun _ => true) (fun _ => 1) twoRuns) := by
  have limited : Limited 3 (fun _ => true) (fun _ => 1) twoRuns := upsTwoRuns (by decide) (by decide)
  have right := (savedSearchExact (by decide) twoRuns limited).mpr (upsTwoRuns (fun _ => .inl (by decide)) fun _ => .inl (by decide))
  exact ⟨right [.grow 0 ()] 5 [.grow 1 (),.up 5] rfl,right [.grow 0 (),.up 5,.grow 1 ()] 5 [] rfl⟩

def grows (n : Nat) : List (Event Unit) := List.replicate n (.grow 0 ())

theorem growsLength (n : Nat) : (matching (fun _ => true) (runs 1 (fun _ => true) (fun _ => 1) (grows n)).docs).length = n := by
  have all : ∀ docs : Table Nat Unit,matching (fun _ => true) docs = docs.keys := fun docs =>
    congrArg (List.map Prod.fst) (List.filter_eq_self.mpr fun _ _ => rfl)
  rw [all]
  induction n with
  | zero => rfl
  | succ n ih =>
    rw [grows,List.replicate_succ',runsSnoc,step,growKeys,List.length_append]
    exact congrArg (· + 1) ih

theorem growsMark (n : Nat) : (runs 1 (fun _ => true) (fun _ => 1) (grows n)).maxuid = none := by
  induction n with
  | zero => rfl
  | succ n ih => rwa [grows,List.replicate_succ',runsSnoc]

theorem pageEmpty {g : List (Event M)} (some' : 0 < nshard) (length : (matching p (runs nshard p bytes g).docs).length = 10000)
    (mark : (runs nshard p bytes g).maxuid = none) {total : Nat} (large : 10000 < total) :
    ¬ Right p bytes (runs nshard p bytes (g ++ [.up total])) := by
  intro right
  have any : matching p (runs nshard p bytes g).docs ≠ [] := fun none => by
    rw [none] at length
    cases length
  have largest := right.mark
  rw [runsSnoc] at largest
  have fits := (upMark some' (runsNumbered g) (by omega) any).mp (largest any)
  rcases fits with small | few | ⟨-,-,n,stored,-⟩
  · omega
  · omega
  · rw [mark] at stored
    cases stored

/- With 10000 matches and a limit of 20000 the second page is empty: nothing is stored. -/
theorem markLost : Limited 1 (fun _ => true) (fun _ => 1) (grows 10000 ++ [.up 20000]) ∧
    ¬ Ups (grows 10000 ++ [.up 20000]) fun before total =>
      Right (fun _ => true) (fun _ => 1) (runs 1 (fun _ => true) (fun _ => 1) (before ++ [.up total])) := by
  have length := growsLength 10000
  have only : ∀ e ∈ grows 10000,∀ t,e ≠ .up t := by
    intro e mem t
    rw [List.eq_of_mem_replicate mem]
    simp
  have limited : Limited 1 (fun _ => true) (fun _ => 1) (grows 10000 ++ [.up 20000]) := (upsNone only).snoc fun total is => by
    cases is
    rw [length]
    omega
  refine ⟨limited,fun right => ?_⟩
  exact pageEmpty (by decide) length (growsMark 10000) (by omega) (right (grows 10000) 20000 [] rfl)

end PublicInbox.LeiXSearch
