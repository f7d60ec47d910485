import PublicInbox.Mbox

/-! What the mbox of the results has: the inbox thread of each article that the collapsed results are mapped to. -/
namespace PublicInbox
open Keyed
open Isearch (Es mdocid xapianDocid)

namespace Search.Srch
variable {B C δ : Type} [LinearOrder B] (s : Srch B C)

def Attaches (d n : Nat) : Prop := match s.isearch with
  | none => n = d ∧ d ∈ s.es.docs.keys
  | some own => ∃ r,s.es.xref3.Has r ∧ r.ibxId = own.ibxId ∧ r.docid = d ∧ r.xnum = n

def hits (p : Indexed C → Bool) : List Nat := s.es.hits p (s.isearch.map ViaExtindex.eidxKey) none

structure Serves (s : Srch B C) (o : OverIdx δ) : Prop where
  whole : Isearch.Consistent s.es
  known : ∀ own,s.isearch = some own → s.es.ibxId own.eidxKey = some own.ibxId
  articles : ∀ d n,s.Attaches d n → 0 < n ∧ ∃ tid,o.tidOf n = some tid
  together : ∀ d n m,s.Attaches d n → s.Attaches d m → o.tidOf n = o.tidOf m

variable {s} {o : OverIdx δ} {p : Indexed C → Bool}

theorem rankedHits (serves : s.Serves o) : s.ranked p = (s.hits p).reverse.map (xapianDocid s.es.nshard) := by
  rw [ranked,Isearch.hitsItems serves.whole,List.map_reverse]
  rfl

theorem hitsDocids (serves : s.Serves o) :
    ((s.hits p).reverse.map (xapianDocid s.es.nshard)).map (mdocid s.es.nshard) = (s.hits p).reverse :=
  Isearch.hitsBack serves.whole fun _ mem => List.mem_reverse.mp mem

theorem hitsSorted : (s.hits p).Pairwise (· < ·) := Table.keysWhereSorted _ _

theorem rankedSorted (serves : s.Serves o) : (s.ranked p).Pairwise (fun x y => y < x) := by
  rw [rankedHits serves,List.pairwise_map,List.pairwise_reverse]
  refine hitsSorted.imp_of_mem fun {a b} mem _ less => ?_
  exact Isearch.xapianMono serves.whole.shards less (serves.whole.positive a (Isearch.hitsKeys mem))

theorem hitBack (serves : s.Serves o) {d : Nat} (mem : d ∈ s.hits p) : mdocid s.es.nshard (xapianDocid s.es.nshard d) = d :=
  Isearch.mdocidXapian serves.whole.shards (serves.whole.positive d (Isearch.hitsKeys mem))

theorem collapsedSublist (threads : Bool) : (s.collapsed p threads).Sublist (s.ranked p) := by
  unfold collapsed
  split
  · exact Listing.firstsSublist _ _
  · exact .refl _

theorem collapsedDocids (serves : s.Serves o) (threads : Bool) :
    ((s.collapsed p threads).map (mdocid s.es.nshard)).Sublist (s.hits p).reverse := by
  have sub := (collapsedSublist (s := s) (p := p) threads).map (mdocid s.es.nshard)
  rwa [rankedHits serves,hitsDocids serves] at sub

theorem memCollapsed (serves : s.Serves o) {d : Nat} :
    d ∈ (s.collapsed p true).map (mdocid s.es.nshard) ↔ d ∈ s.hits p ∧
      (s.hasThreadidMetadata = true → ∀ e ∈ s.hits p,s.threadid e = s.threadid d → e ≤ d) := by
  have items : ∀ x,x ∈ s.ranked p ↔ ∃ d ∈ s.hits p,xapianDocid s.es.nshard d = x := by
    intro x
    rw [rankedHits serves,List.mem_map]
    simp only [List.mem_reverse]
  have mono : ∀ {a b},a ∈ s.hits p → b ∈ s.hits p →
      (xapianDocid s.es.nshard a < xapianDocid s.es.nshard b ↔ a < b) := by
    intro a b ha hb
    constructor
    · intro less
      by_contra no
      rcases Nat.lt_or_eq_of_le (Nat.le_of_not_lt no) with more | same
      · exact absurd (Isearch.xapianMono serves.whole.shards more (serves.whole.positive b (Isearch.hitsKeys hb))) (by omega)
      · rw [same] at less
        exact absurd less (lt_irrefl _)
    · intro less
      exact Isearch.xapianMono serves.whole.shards less (serves.whole.positive a (Isearch.hitsKeys ha))
  unfold collapsed
  by_cases has : s.hasThreadidMetadata = true
  · rw [if_pos (by simpa using has)]
    simp only [List.mem_map,Listing.memFirsts (r := fun x y => y < x) (fun a b less => by omega) _ (rankedSorted serves)]
    constructor
    · rintro ⟨x,⟨mem,first⟩,rfl⟩
      obtain ⟨d,hit,rfl⟩ := (items x).mp mem
      rw [hitBack serves hit]
      refine ⟨hit,fun _ e other same => Nat.le_of_not_lt fun later => ?_⟩
      refine first _ ((items _).mpr ⟨e,other,rfl⟩) ?_ ((mono hit other).mpr later)
      rw [hitBack serves hit,hitBack serves other]
      exact same
    · rintro ⟨hit,first⟩
      refine ⟨_,⟨(items _).mpr ⟨d,hit,rfl⟩,fun y mem same later => ?_⟩,hitBack serves hit⟩
      obtain ⟨e,other,rfl⟩ := (items y).mp mem
      rw [hitBack serves hit,hitBack serves other] at same
      exact absurd ((mono hit other).mp later) (Nat.not_lt.mpr (first has e other same))
  · rw [if_neg (by simpa using has),rankedHits serves,hitsDocids serves,List.mem_reverse]
    exact ⟨fun hit => ⟨hit,fun yes => absurd yes has⟩,And.left⟩

theorem artnumsAttach (serves : s.Serves o) (order : List (ExtSearchIdx.Xref3 B) → List (ExtSearchIdx.Xref3 B))
    (orders : ∀ rows,(order rows).Perm rows) {m : List Nat} (inside : (m.map (mdocid s.es.nshard)).Sublist (s.hits p).reverse) :
    List.Forall₂ s.Attaches (m.map (mdocid s.es.nshard)) (s.msetToArtnums order m) := by
  have hit : ∀ d ∈ m.map (mdocid s.es.nshard),d ∈ s.hits p := fun d mem => List.mem_reverse.mp (inside.subset mem)
  have nodup : (m.map (mdocid s.es.nshard)).Nodup :=
    inside.nodup (List.nodup_reverse.mpr (hitsSorted.imp ne_of_lt))
  unfold msetToArtnums
  cases via : s.isearch with
  | none =>
    rw [List.forall₂_same]
    intro d mem
    rw [Attaches,via]
    exact ⟨rfl,Isearch.hitsKeys (hit d mem)⟩
  | some own =>
    refine (Isearch.msetOrder (i := own.ibxId) order orders (by simp) nodup fun d mem => ?_).imp fun d n lists => ?_
    · obtain ⟨doc,found,taken⟩ := Table.memKeysWhere.mp (hit d mem)
      simp only [via,Option.map_some,Option.all_some,Option.all_none,Bool.and_eq_true,decide_eq_true_eq] at taken
      exact serves.whole.rowed d doc found _ taken.1.2 _ (serves.known own via)
    · rw [Attaches,via]
      exact lists

end Search.Srch

namespace Mbox
open Search (Srch Indexed)
variable {B C δ : Type} [LinearOrder B] {o : OverIdx δ} {s : Srch B C} {order : List (ExtSearchIdx.Xref3 B) → List (ExtSearchIdx.Xref3 B)}
  {p : Indexed C → Bool} {ctx next : Ctx} {out : List Int}

def Streams (o : OverIdx δ) (s : Srch B C) (order : List (ExtSearchIdx.Xref3 B) → List (ExtSearchIdx.Xref3 B)) (p : Indexed C → Bool)
    (ctx : Ctx) (out : List Int) : Prop :=
  ∃ enough,∀ fuel,enough ≤ fuel → stream o s order p true fuel ctx = some out

theorem streamsTurn (same : resultsCb o s order p true ctx = resultsCb o s order p true next) (rest : Streams o s order p next out) :
    Streams o s order p ctx out := by
  obtain ⟨enough,runs⟩ := rest
  refine ⟨enough + 1,fun fuel more => ?_⟩
  obtain ⟨fuel,rfl⟩ : ∃ k,fuel = k + 1 := ⟨fuel - 1,by omega⟩
  have run := runs (fuel + 1) (by omega)
  simp only [stream] at run ⊢
  rw [same]
  exact run

theorem streamsNext {c : Ctx} (turn : resultsCb o s order p true ctx = .next c) (rest : Streams o s order p c out) :
    Streams o s order p ctx out := by
  obtain ⟨enough,runs⟩ := rest
  refine ⟨enough + 1,fun fuel more => ?_⟩
  obtain ⟨fuel,rfl⟩ : ∃ k,fuel = k + 1 := ⟨fuel - 1,by omega⟩
  simp only [stream,turn]
  exact runs fuel (by omega)

theorem streamsSmsg {num : Int} (turn : resultsCb o s order p true ctx = .smsg num next) (rest : Streams o s order p next out) :
    Streams o s order p ctx (num :: out) := by
  obtain ⟨enough,runs⟩ := rest
  refine ⟨enough + 1,fun fuel more => ?_⟩
  obtain ⟨fuel,rfl⟩ : ∃ k,fuel = k + 1 := ⟨fuel - 1,by omega⟩
  simp only [stream,turn,runs fuel (by omega),Option.map_some]

theorem streamsDone (turn : resultsCb o s order p true ctx = .done) : Streams o s order p ctx [] := by
  refine ⟨1,fun fuel more => ?_⟩
  obtain ⟨fuel,rfl⟩ : ∃ k,fuel = k + 1 := ⟨fuel - 1,by omega⟩
  simp only [stream,turn]

theorem xidsStream {ids xids : List Int} {prev : Int} {offset : Nat} (there : ∀ num ∈ xids,(o.over.get? num).isSome)
    (rest : Streams o s order p ⟨ids,some [],prev,offset⟩ out) : Streams o s order p ⟨ids,some xids,prev,offset⟩ (xids ++ out) := by
  induction xids with
  | nil => exact rest
  | cons num xids ih =>
    refine streamsSmsg ?_ (ih fun n mem => there n (List.mem_cons_of_mem _ mem))
    simp only [resultsCb,if_pos (there num List.mem_cons_self)]

theorem memThread {tid : Nat} {prev num : Int} : num ∈ threadAfter o tid prev ↔ o.tidOf num = some tid ∧ prev < num := by
  simp only [threadAfter,Table.memKeysWhere,OverIdx.tidOf,Option.map_eq_some_iff,Bool.and_eq_true,decide_eq_true_eq]
  constructor
  · rintro ⟨row,found,same,less⟩
    exact ⟨⟨row,found,same⟩,less⟩
  · rintro ⟨⟨row,found,same⟩,less⟩
    exact ⟨row,found,same,less⟩

theorem threadSorted (o : OverIdx δ) (tid : Nat) (prev : Int) : (threadAfter o tid prev).Pairwise (· < ·) :=
  Table.keysWhereSorted _ _

theorem threadNext {tid : Nat} {prev last : Int} {limit : Nat} (ends : ((threadAfter o tid prev).take limit).getLast? = some last) :
    threadAfter o tid last = (threadAfter o tid prev).drop limit := by
  rw [← Listing.afterPage (threadSorted o tid prev) ends]
  refine Paging.sortedFilter (threadSorted o tid last) ((threadSorted o tid prev).filter _) fun num => ?_
  have above : prev < last := (memThread.mp (List.mem_of_mem_take (List.mem_of_getLast? ends))).2
  rw [List.mem_filter,memThread,memThread,decide_eq_true_eq]
  exact ⟨fun ⟨own,less⟩ => ⟨⟨own,above.trans less⟩,less⟩,fun ⟨⟨own,_⟩,less⟩ => ⟨own,less⟩⟩

theorem threadStreams {tid : Nat} {num : Int} {ids : List Int} {offset : Nat} (own : o.tidOf num = some tid)
    (rest : Streams o s order p ⟨ids,some [],0,offset⟩ out) : (size : Nat) → (prev : Int) → (threadAfter o tid prev).length ≤ size →
      Streams o s order p ⟨num :: ids,some [],prev,offset⟩ (threadAfter o tid prev ++ out)
  | size,prev,few => by
    cases ends : ((threadAfter o tid prev).take 1000).getLast? with
    | none =>
      have empty : threadAfter o tid prev = [] := by
        have page := List.getLast?_eq_none_iff.mp ends
        exact (List.take_eq_nil_iff.mp page).resolve_left (by omega)
      rw [empty,List.nil_append]
      refine streamsTurn ?_ rest
      have skip : expandThread o (num :: ids) prev = expandThread o ids 0 := by
        simp only [expandThread,own,ends]
      simp only [resultsCb,skip]
    | some last =>
      have page : expandThread o (num :: ids) prev = (num :: ids,last,some ((threadAfter o tid prev).take 1000)) := by
        simp only [expandThread,own,ends]
      have mem := List.mem_of_getLast? ends
      have shorter : (threadAfter o tid last).length < size := by
        rw [threadNext ends,List.length_drop]
        have := List.length_pos_of_mem (List.mem_of_mem_take mem)
        omega
      refine streamsNext (c := ⟨num :: ids,some ((threadAfter o tid prev).take 1000),last,offset⟩) ?_ ?_
      · simp only [resultsCb,page]
      · have later := threadStreams own rest (size - 1) last (by omega)
        have whole : threadAfter o tid prev ++ out = (threadAfter o tid prev).take 1000 ++ (threadAfter o tid last ++ out) := by
          rw [threadNext ends,← List.append_assoc,List.take_append_drop]
        rw [whole]
        refine xidsStream (fun n inside => ?_) later
        have known := (memThread.mp (List.mem_of_mem_take inside)).1
        simp only [OverIdx.tidOf,Option.map_eq_some_iff] at known
        obtain ⟨row,found,-⟩ := known
        rw [found]
        rfl
  termination_by size => size
  decreasing_by omega

def threadOf (o : OverIdx δ) (n : Nat) : List Int := ((o.tidOf n).map fun tid => threadAfter o tid 0).getD []

theorem idsStream {ids : List Nat} {offset : Nat} (known : ∀ n ∈ ids,∃ tid,o.tidOf n = some tid)
    (rest : Streams o s order p ⟨[],some [],0,offset⟩ out) :
    Streams o s order p ⟨ids.map Int.ofNat,some [],0,offset⟩ (ids.flatMap (threadOf o) ++ out) := by
  induction ids with
  | nil => exact rest
  | cons n ids ih =>
    obtain ⟨tid,own⟩ := known n List.mem_cons_self
    have later := ih fun m mem => known m (List.mem_cons_of_mem _ mem)
    rw [List.flatMap_cons,List.append_assoc,List.map_cons]
    have thread : threadOf o n = threadAfter o tid 0 := by rw [threadOf,own]; rfl
    rw [thread]
    exact threadStreams own later _ 0 le_rfl

theorem pagesStream (serves : s.Serves o) (orders : ∀ rows,(order rows).Perm rows) : (size offset : Nat) →
    ((s.collapsed p true).drop offset).length ≤ size →
      ∃ ids,List.Forall₂ s.Attaches (((s.collapsed p true).drop offset).map (mdocid s.es.nshard)) ids ∧
        Streams o s order p ⟨[],some [],0,offset⟩ (ids.flatMap (threadOf o))
  | size,offset,few => by
    have nothing : expandThread o [] 0 = ([],0,none) := rfl
    cases page : s.mset p true offset with
    | nil =>
      have empty : (s.collapsed p true).drop offset = [] :=
        (List.take_eq_nil_iff.mp page).resolve_left (by omega)
      refine ⟨[],by rw [empty]; exact .nil,streamsDone ?_⟩
      simp only [resultsCb,nothing,refillIds,page]
    | cons x xs =>
      have length : (x :: xs).length = min 50 ((s.collapsed p true).drop offset).length := by rw [← page,Srch.mset,List.length_take]
      have left : (s.collapsed p true).drop (offset + (x :: xs).length) = ((s.collapsed p true).drop offset).drop 50 := by
        rw [← List.drop_drop]
        rcases Nat.le_total 50 ((s.collapsed p true).drop offset).length with full | short
        · rw [length,Nat.min_eq_left full]
        · rw [length,Nat.min_eq_right short,List.drop_length,List.drop_eq_nil_of_le short]
      have nonempty : 0 < ((s.collapsed p true).drop offset).length := by
        rw [List.length_cons] at length
        omega
      obtain ⟨ids,lists,later⟩ := pagesStream serves orders (size - 1) (offset + (x :: xs).length) (by
        rw [left,List.length_drop]
        omega)
      have attach := Srch.artnumsAttach (p := p) serves order orders (m := x :: xs) (by
        have sub := ((List.take_sublist 50 _).trans (List.drop_sublist offset (s.collapsed p true))).map (mdocid s.es.nshard)
        rw [← Srch.mset,page] at sub
        exact sub.trans (Srch.collapsedDocids serves true))
      refine ⟨s.msetToArtnums order (x :: xs) ++ ids,?_,?_⟩
      · rw [← List.take_append_drop 50 ((s.collapsed p true).drop offset),List.map_append,← left]
        rw [← Srch.mset,page]
        exact List.rel_append attach lists
      · rw [List.flatMap_append]
        refine streamsNext (c := ⟨(s.msetToArtnums order (x :: xs)).map Int.ofNat,some [],0,offset + (x :: xs).length⟩) ?_ ?_
        · simp only [resultsCb,nothing,refillIds,page]
        · refine idsStream (fun n mem => ?_) later
          obtain ⟨d,-,has⟩ := Listing.madeFrom attach mem
          exact (serves.articles d n has).2
  termination_by size => size
  decreasing_by omega

def InThread (o : OverIdx δ) (s : Srch B C) (p : Indexed C → Bool) (num : Int) : Prop :=
  0 < num ∧ ∃ d ∈ s.hits p,∃ n : Nat,s.Attaches d n ∧ ∃ tid,o.tidOf n = some tid ∧ o.tidOf num = some tid

def Kept (s : Srch B C) (p : Indexed C → Bool) (d : Nat) : Prop := d ∈ s.hits p ∧
  (s.hasThreadidMetadata = true → ∀ e ∈ s.hits p,s.threadid e = s.threadid d → e ≤ d)

def KeptOnce (o : OverIdx δ) (s : Srch B C) (p : Indexed C → Bool) : Prop := ∀ num,InThread o s p num →
  ∃! d,Kept s p d ∧ ∃ m : Nat,s.Attaches d m ∧ o.tidOf m = o.tidOf num

omit [LinearOrder B] in
theorem countThreads {num : Int} (positive : 0 < num) {tid : Nat} (own : o.tidOf num = some tid) (ids : List Nat) :
    (ids.flatMap (threadOf o)).count num = ids.countP fun n : Nat => decide (o.tidOf n = o.tidOf num) := by
  induction ids with
  | nil => rfl
  | cons n ids ih =>
    rw [List.flatMap_cons,List.count_append,List.countP_cons,ih,Nat.add_comm]
    congr 1
    have thread : threadOf o n = if o.tidOf n = o.tidOf num then threadAfter o tid 0 else threadOf o n := by
      split
      · rename_i same
        rw [threadOf,same,own]
        rfl
      · rfl
    rw [thread]
    by_cases same : o.tidOf n = o.tidOf num
    · rw [if_pos same,if_pos (decide_eq_true same)]
      exact List.count_eq_one_of_mem ((threadSorted o tid 0).imp ne_of_lt) (memThread.mpr ⟨own,positive⟩)
    · rw [if_neg same,if_neg (by simpa using same)]
      refine List.count_eq_zero.mpr fun mem => ?_
      cases its : o.tidOf n with
      | none =>
        rw [threadOf,its] at mem
        exact absurd mem List.not_mem_nil
      | some tid' =>
        rw [threadOf,its] at mem
        exact same (its.trans (memThread.mp mem).1.symm)

theorem streamedOnce (serves : s.Serves o) {ids : List Nat}
    (lists : List.Forall₂ s.Attaches ((s.collapsed p true).map (mdocid s.es.nshard)) ids) {num : Int} (inThread : InThread o s p num) :
    (ids.flatMap (threadOf o)).count num = 1 ↔ ∃! d,Kept s p d ∧ ∃ m : Nat,s.Attaches d m ∧ o.tidOf m = o.tidOf num := by
  classical
  obtain ⟨positive,-,-,-,-,tid,-,own⟩ := inThread
  have nodup : ((s.collapsed p true).map (mdocid s.es.nshard)).Nodup :=
    (Srch.collapsedDocids serves true).nodup (List.nodup_reverse.mpr (Srch.hitsSorted.imp ne_of_lt))
  rw [countThreads positive own,
    ← Listing.countMade lists (p := fun d => decide (∃ m : Nat,s.Attaches d m ∧ o.tidOf m = o.tidOf num)) (fun d n has => ?_),
    Listing.countOne nodup]
  · simp only [Srch.memCollapsed serves,decide_eq_true_eq,Kept]
  · refine decide_eq_decide.mpr ⟨?_,fun same => ⟨n,has,same⟩⟩
    rintro ⟨m,also,same⟩
    exact (serves.together d n m has also).trans same

theorem streamedInThread (serves : s.Serves o) {ids : List Nat}
    (lists : List.Forall₂ s.Attaches ((s.collapsed p true).map (mdocid s.es.nshard)) ids) {num : Int}
    (mem : num ∈ ids.flatMap (threadOf o)) : InThread o s p num := by
  obtain ⟨n,listed,inside⟩ := List.mem_flatMap.mp mem
  obtain ⟨d,kept,has⟩ := Listing.madeFrom lists listed
  obtain ⟨tid,own⟩ := (serves.articles d n has).2
  rw [threadOf,own] at inside
  obtain ⟨same,positive⟩ := memThread.mp inside
  exact ⟨positive,d,((Srch.memCollapsed serves).mp kept).1,n,has,tid,own,same⟩

/- Results with threads, from the inbox's own index or an external one: the mbox has messages of the threads of the
matches only, and it has all of them once if and only if each thread has one of the documents that are kept. -/
theorem resultsComplete (serves : s.Serves o) (orders : ∀ rows,(order rows).Perm rows) (expands : s.hasThreadid = true) :
    ∃ out enough,(∀ fuel,enough ≤ fuel → mboxAll o s order p true fuel = some out) ∧ (∀ num ∈ out,InThread o s p num) ∧
      ((∀ num,InThread o s p num → out.count num = 1) ↔ KeptOnce o s p) := by
  obtain ⟨ids,lists,enough,runs⟩ := pagesStream (p := p) serves orders _ 0 le_rfl
  rw [List.drop_zero] at lists
  refine ⟨ids.flatMap (threadOf o),enough + 1,fun fuel more => ?_,fun num => streamedInThread serves lists,
    forall₂_congr fun num inThread => streamedOnce serves lists inThread⟩
  have run := runs (fuel + 1) (by omega)
  have nothing : expandThread o [] 0 = ([],0,none) := rfl
  simp only [stream,resultsCb,nothing,refillIds] at run
  simp only [mboxAll,expands]
  cases page : s.mset p true 0 with
  | nil =>
    rw [page] at run
    exact run
  | cons x xs =>
    rw [page] at run
    simpa using run

def twoThreads : OverIdx Unit := ⟨⟨[(1,⟨1,some ()⟩),(2,⟨2,some ()⟩)],by decide⟩,.empty,2,0,0⟩

def crossThread : Srch Nat Nat where
  es := {
    docs := ⟨[(1,⟨["a"],⟨1,1⟩⟩),(2,⟨["a"],⟨1,2⟩⟩),(3,⟨["b"],⟨1,3⟩⟩)],by decide⟩
    nshard := 1
    xref3 := ⟨[(⟨1,1,1,0⟩,()),(⟨2,1,2,0⟩,()),(⟨3,2,1,0⟩,())],by decide⟩
    ibxId := fun key => if key = "a" then some 1 else if key = "b" then some 2 else none }
  hasThreadidMetadata := true
  isearch := some ⟨"a",1⟩

theorem crossConsistent : Isearch.Consistent crossThread.es := by
  have known : ∀ {key i},crossThread.es.ibxId key = some i → key = "a" ∧ i = 1 ∨ key = "b" ∧ i = 2 := by
    intro key i found
    have found : (if key = "a" then some 1 else if key = "b" then some 2 else none) = some i := found
    split at found
    · exact .inl ⟨‹_›,(Option.some.inj found).symm⟩
    · split at found
      · exact .inr ⟨‹_›,(Option.some.inj found).symm⟩
      · contradiction
  refine ⟨by decide,by decide,?_,?_⟩
  · intro r has key found
    have mem : r ∈ [⟨1,1,1,0⟩,⟨2,1,2,0⟩,⟨3,2,1,0⟩] := Rel.hasKeys.mpr has
    rcases known found with ⟨rfl,own⟩ | ⟨rfl,own⟩
    · rcases List.mem_cons.mp mem with rfl | mem
      · exact ⟨⟨["a"],⟨1,1⟩⟩,rfl,List.mem_cons_self⟩
      rcases List.mem_cons.mp mem with rfl | mem
      · exact ⟨⟨["a"],⟨1,2⟩⟩,rfl,List.mem_cons_self⟩
      cases List.mem_singleton.mp mem
      cases own
    · rcases List.mem_cons.mp mem with rfl | mem
      · cases own
      rcases List.mem_cons.mp mem with rfl | mem
      · cases own
      cases List.mem_singleton.mp mem
      exact ⟨⟨["b"],⟨1,3⟩⟩,rfl,List.mem_cons_self⟩
  · intro d doc there key term i found
    have mem : d ∈ [1,2,3] := Table.memKeys.mpr ⟨doc,there⟩
    rcases List.mem_cons.mp mem with rfl | mem
    · cases there
      cases List.mem_singleton.mp term
      cases found
      exact ⟨⟨1,1,1,0⟩,by decide,rfl,rfl⟩
    rcases List.mem_cons.mp mem with rfl | mem
    · cases there
      cases List.mem_singleton.mp term
      cases found
      exact ⟨⟨2,1,2,0⟩,by decide,rfl,rfl⟩
    cases List.mem_singleton.mp mem
    cases there
    cases List.mem_singleton.mp term
    cases found
    exact ⟨⟨3,2,1,0⟩,by decide,rfl,rfl⟩

theorem crossServes : crossThread.Serves twoThreads := by
  have attached : ∀ {d n},crossThread.Attaches d n → n = d ∧ (d = 1 ∨ d = 2) := by
    rintro d n ⟨r,has,own,rfl,rfl⟩
    have mem : r ∈ [⟨1,1,1,0⟩,⟨2,1,2,0⟩,⟨3,2,1,0⟩] := Rel.hasKeys.mpr has
    rcases List.mem_cons.mp mem with rfl | mem
    · exact ⟨rfl,.inl rfl⟩
    rcases List.mem_cons.mp mem with rfl | mem
    · exact ⟨rfl,.inr rfl⟩
    cases List.mem_singleton.mp mem
    cases own
  refine ⟨crossConsistent,?_,?_,?_⟩
  · intro own is
    cases is
    rfl
  · intro d n has
    obtain ⟨rfl,rfl | rfl⟩ := attached has
    · exact ⟨Nat.one_pos,1,rfl⟩
    · exact ⟨Nat.two_pos,2,rfl⟩
  · intro d n m has also
    rw [(attached has).1,(attached also).1]

/- Only the first of the messages is looked for. -/
theorem resultsCross : ∃ out enough,(∀ fuel,enough ≤ fuel → mboxAll twoThreads crossThread id (·.content == 1) true fuel = some out) ∧
    (∀ num ∈ out,InThread twoThreads crossThread (·.content == 1) num) ∧
      ((∀ num,InThread twoThreads crossThread (·.content == 1) num → out.count num = 1) ↔
        KeptOnce twoThreads crossThread (·.content == 1)) :=
  resultsComplete crossServes (fun _ => .refl _) rfl

/- Both messages match, and they are collapsed into the later one. -/
theorem matchLost : crossThread.Serves twoThreads ∧ mboxAll twoThreads crossThread id (fun _ => true) true 9 = some [2] ∧
    ¬ ∀ num,InThread twoThreads crossThread (fun _ => true) num → [(2 : Int)].count num = 1 := by
  refine ⟨crossServes,by decide +kernel,fun hides => ?_⟩
  have inThread : InThread twoThreads crossThread (fun _ => true) 1 :=
    ⟨Int.one_pos,1,by decide,1,⟨⟨1,1,1,0⟩,by decide,rfl,rfl,rfl⟩,1,rfl,rfl⟩
  exact absurd (hides 1 inThread) (by decide)

end Mbox
end PublicInbox
