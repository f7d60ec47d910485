import Mathlib.Algebra.Ring.Int.Defs
import Mathlib.Data.List.Perm.Basic
import Mathlib.Algebra.Order.BigOperators.Group.List
import PublicInbox.Khashl

/-! The searches that a worker of xap_helper.h keeps open between requests: allocated by dispatch, found again by
their directories and prefixes, and freed together when the shards need too many files. -/
namespace PublicInbox.XapHelper.SrchCache
open Khashl

structure CStr where
  bytes : List UInt8
  plain : 0 ∉ bytes

inductive Opt where
  | d (dir : CStr)
  | q (pfx : CStr)

def Opt.key : Opt → List UInt8
  | .d dir => 45 :: 100 :: 0 :: (dir.bytes ++ [0])
  | .q pfx => 45 :: 81 :: 0 :: (pfx.bytes ++ [0])

def ckey (opts : List Opt) : List UInt8 := opts.flatMap Opt.key

def Opt.isDir : Opt → Bool
  | .d _ => true
  | .q _ => false

def shardCost : Nat := 8

def nfd (opts : List Opt) : Nat := opts.countP Opt.isDir * shardCost

structure Srch where
  addr : Nat
  opts : List Opt

instance : Inhabited Srch := ⟨⟨0,[]⟩⟩

def khHashBytes (s : List UInt8) : Nat := s.foldl (fun h c => (h ^^^ c.toNat) * 16777619 % 2 ^ 32) (11 ^^^ 2166136261)

def srchHash (srch : Srch) : Nat := khHashBytes (ckey srch.opts)

def srchEq (a b : Srch) : Bool := ckey a.opts == ckey b.opts

structure Bucket where
  key : Srch
  hash : Nat

instance : Inhabited Bucket := ⟨⟨default,0⟩⟩

def srchSet : Keys Bucket where
  hashFn x := x.hash
  hashEq x y := x.hash == y.hash && srchEq x.key y.key
  refl x := by simp [srchEq]
  symm same := by
    simp only [srchEq,Bool.and_eq_true,beq_iff_eq] at same ⊢
    exact ⟨same.1.symm,same.2.symm⟩
  trans first second := by
    simp only [srchEq,Bool.and_eq_true,beq_iff_eq] at first second ⊢
    exact ⟨first.1.trans second.1,first.2.trans second.2⟩
  same same := by
    simp only [Bool.and_eq_true,beq_iff_eq] at same
    exact same.1

def bucket (srch : Srch) : Bucket := ⟨srch,srchHash srch⟩

/- The worker: srch_cache and shard_nfd, what was freed, how many were allocated, whether every assertion held, and
whether it is still there -/
structure Worker where
  cache : Table Bucket
  shardNfd : Nat
  freed : List Srch
  made : Nat
  asserts : Bool
  alive : Bool

def start : Worker := ⟨init,0,[],0,true,true⟩

def cached (w : Worker) : List Srch := (each w.cache).map Bucket.key

def srchFree (srch : Srch) (w : Worker) : Worker := { w with freed := srch :: w.freed }

def assert (cond : Bool) (w : Worker) : Worker := { w with asserts := w.asserts && cond }

def srchSetPut (srch : Srch) (w : Worker) : Worker × Srch × Bool :=
  let (cache,k,absent) := putp srchSet w.cache (bucket srch)
  (assert (k < capacity cache) { w with cache := cache },(cache.keys k).key,absent)

def srchCacheRenew (keep : Option Srch) (w : Worker) : Worker :=
  let frees := (cached w).filter fun cur => keep.map Srch.addr != some cur.addr
  let w := { frees.foldl (fun w cur => srchFree cur w) w with cache := clear w.cache }
  match keep with
  | none => w
  | some srch =>
    let (w,_,absent) := srchSetPut srch w
    assert absent w

def srchInit (fdMax : Int) (srch : Srch) (fails : Nat) (w : Worker) : Worker :=
  let w := { w with shardNfd := w.shardNfd + nfd srch.opts }
  let w := if w.shardNfd > fdMax then { srchCacheRenew (some srch) w with shardNfd := nfd srch.opts } else w
  match fails with
  | 0 => w
  | 1 => srchCacheRenew (some srch) w
  | _ => { srchCacheRenew (some srch) w with alive := false }

def dispatch (fdMax : Int) (w : Worker) (opts : List Opt) (fails : Nat) : Worker × Srch :=
  let srch : Srch := ⟨w.made,opts⟩
  let w := { w with made := w.made + 1 }
  if ckey opts = [] ∨ opts.countP Opt.isDir = 0 then ({ w with alive := false },srch)
  else
    let (w,req,absent) := srchSetPut srch w
    if absent then (srchInit fdMax req fails w,req)
    else (srchFree srch (assert (req.addr != srch.addr) w),req)

def serve (fdMax : Int) : Worker → List (List Opt × Nat) → Worker
  | w,[] => w
  | w,(opts,fails) :: reqs => if w.alive then serve fdMax (dispatch fdMax w opts fails).1 reqs else w

def cleanupAll (w : Worker) : Worker := srchCacheRenew none w

/-! The key of a search -/

theorem nulInj {a b r t : List UInt8} (plainA : 0 ∉ a) (plainB : 0 ∉ b) (same : a ++ 0 :: r = b ++ 0 :: t) : a = b ∧ r = t := by
  rcases List.append_eq_append_iff.mp same with ⟨c,rfl,cut⟩ | ⟨c,rfl,cut⟩ <;> cases c with
  | nil =>
    cases cut
    exact ⟨by simp,rfl⟩
  | cons x c =>
    rw [List.cons_append,List.cons.injEq] at cut
    simp [← cut.1] at plainA plainB

theorem CStr.endsInj {a b : CStr} {r t : List UInt8} (same : a.bytes ++ 0 :: r = b.bytes ++ 0 :: t) : a = b ∧ r = t := by
  obtain ⟨first,rest⟩ := nulInj a.plain b.plain same
  obtain ⟨a,_⟩ := a
  obtain ⟨b,_⟩ := b
  cases first
  exact ⟨rfl,rest⟩

theorem ckeyInj {a b : List Opt} (same : ckey a = ckey b) : a = b := by
  induction a generalizing b with
  | nil =>
    cases b with
    | nil => rfl
    | cons o b => cases o <;> cases same
  | cons o a ih =>
    cases b with
    | nil => cases o <;> cases same
    | cons p b =>
      simp only [ckey,List.flatMap_cons] at same
      cases o with
      | d dir =>
        cases p with
        | d dir' =>
          simp only [Opt.key,List.cons_append,List.append_assoc,List.nil_append,List.cons.injEq,true_and] at same
          obtain ⟨rfl,rest⟩ := CStr.endsInj same
          rw [ih rest]
        | q pfx => simp [Opt.key] at same
      | q pfx =>
        cases p with
        | d dir => simp [Opt.key] at same
        | q pfx' =>
          simp only [Opt.key,List.cons_append,List.append_assoc,List.nil_append,List.cons.injEq,true_and] at same
          obtain ⟨rfl,rest⟩ := CStr.endsInj same
          rw [ih rest]

theorem equalOpts {x y : Bucket} (equal : srchSet.hashEq x y = true) : x.key.opts = y.key.opts := by
  simp only [srchSet,srchEq,Bool.and_eq_true,beq_iff_eq] at equal
  exact ckeyInj equal.2

theorem unequalOpts {x y : Bucket} (hashed : x.hash = srchHash x.key) (hashed' : y.hash = srchHash y.key)
    (unequal : srchSet.hashEq x y = false) : x.key.opts ≠ y.key.opts := by
  intro same
  have : srchSet.hashEq x y = true := by simp [srchSet,srchEq,hashed,hashed',srchHash,same]
  rw [unequal] at this
  cases this

/-! Every allocation is cached or was freed, once. -/

structure Sane (fdMax : Int) (w : Worker) : Prop where
  good : Good srchSet w.cache
  hashes : ∀ b ∈ each w.cache,b.hash = srchHash b.key
  owned : ((cached w ++ w.freed).map Srch.addr).Perm (List.range w.made)
  files : ((cached w).map fun srch => nfd srch.opts).sum ≤ w.shardNfd
  bounded : w.shardNfd ≤ fdMax ∨ (cached w).length ≤ 1
  asserted : w.asserts = true

section
variable {fdMax : Int} {w : Worker}

theorem freeAll (frees : List Srch) (w : Worker) : frees.foldl (fun w cur => srchFree cur w) w = { w with freed := frees.reverse ++ w.freed } := by
  induction frees generalizing w with
  | nil => rfl
  | cons cur frees ih => rw [List.foldl_cons,ih,srchFree,List.reverse_cons,List.append_assoc]; rfl

structure Put (w : Worker) (srch : Srch) (w' : Worker) (req : Srch) (absent : Bool) : Prop where
  same : w' = { w with cache := w'.cache }
  good : Good srchSet w'.cache
  hashes : ∀ b ∈ each w'.cache,b.hash = srchHash b.key
  fresh : absent = true → req = srch ∧ (cached w').Perm (srch :: cached w)
  found : absent = false → req ∈ cached w ∧ req.opts = srch.opts ∧ (cached w').Perm (cached w)

theorem srchSetPuts (good : Good srchSet w.cache) (hashes : ∀ b ∈ each w.cache,b.hash = srchHash b.key) (asserted : w.asserts = true) (srch : Srch) :
    Put w srch (srchSetPut srch w).1 (srchSetPut srch w).2.1 (srchSetPut srch w).2.2 := by
  obtain ⟨better,inside,⟨absent,_,held,all⟩ | ⟨there,mem,equal,all⟩⟩ := putpKeeps good (bucket srch)
  · refine ⟨?_,better,?_,fun _ => ⟨congrArg Bucket.key held,all.map Bucket.key⟩,fun there => absurd (there.symm.trans absent) Bool.false_ne_true⟩
    · simp only [srchSetPut,assert,asserted,inside,decide_true,Bool.and_true]
    · intro b mem
      rcases List.mem_cons.mp (all.mem_iff.mp mem) with rfl | mem
      · rfl
      · exact hashes b mem
  · refine ⟨?_,better,fun b mem => hashes b (all.mem_iff.mp mem),fun absent => absurd (there.symm.trans absent) Bool.false_ne_true,fun _ => ?_⟩
    · simp only [srchSetPut,assert,asserted,inside,decide_true,Bool.and_true]
    · exact ⟨List.mem_map.mpr ⟨_,mem,rfl⟩,equalOpts equal,all.map Bucket.key⟩

structure Renewed (w : Worker) (keep : Option Srch) (w' : Worker) : Prop where
  same : w' = { w with cache := w'.cache, freed := w'.freed }
  good : Good srchSet w'.cache
  hashes : ∀ b ∈ each w'.cache,b.hash = srchHash b.key
  kept : cached w' = keep.toList
  owned : (cached w' ++ w'.freed).Perm (cached w ++ w.freed)

theorem clears (good : Good srchSet w.cache) (freed : List Srch) :
    Good srchSet (clear w.cache) ∧ cached { w with freed := freed, cache := clear w.cache } = [] := by
  obtain ⟨better,empty⟩ := clearGood good
  exact ⟨better,congrArg (List.map Bucket.key) empty⟩

theorem renewsNone (good : Good srchSet w.cache) : Renewed w none (srchCacheRenew none w) := by
  have all : (cached w).filter (fun cur => (none : Option Srch).map Srch.addr != some cur.addr) = cached w :=
    List.filter_eq_self.mpr fun _ _ => rfl
  obtain ⟨better,empty⟩ := clears good ((cached w).reverse ++ w.freed)
  have is : srchCacheRenew none w = { w with freed := (cached w).reverse ++ w.freed, cache := clear w.cache } := by
    simp only [srchCacheRenew,all,freeAll]
  rw [is]
  refine ⟨rfl,better,fun b mem => ?_,empty,?_⟩
  · rw [(clearGood good).2] at mem
    cases mem
  · rw [empty,List.nil_append]
    exact (List.reverse_perm _).append_right _

theorem freesRest {l : List Srch} {srch : Srch} (unique : (l.map Srch.addr).Nodup) (mem : srch ∈ l) :
    l.Perm (srch :: l.filter fun cur => (some srch).map Srch.addr != some cur.addr) := by
  obtain ⟨a,b,rfl⟩ := List.append_of_mem mem
  simp only [List.map_append,List.map_cons,List.nodup_append,List.nodup_cons,List.mem_map,List.mem_cons] at unique
  have other : ∀ cur ∈ a ++ b,((some srch).map Srch.addr != some cur.addr) = true := by
    intro cur here
    rw [bne_iff_ne,Option.map_some]
    intro same
    have same := Option.some.inj same
    rcases List.mem_append.mp here with here | here
    · exact unique.2.2 _ ⟨cur,here,rfl⟩ _ (.inl rfl) same.symm
    · exact unique.2.1.1 ⟨cur,here,same.symm⟩
  have rest : (a ++ srch :: b).filter (fun cur => (some srch).map Srch.addr != some cur.addr) = a ++ b := by
    rw [List.filter_append,List.filter_cons_of_neg (by simp),← List.filter_append]
    exact List.filter_eq_self.mpr other
  rw [rest]
  exact List.perm_middle

theorem renewsSome {srch : Srch} (good : Good srchSet w.cache) (asserted : w.asserts = true) (unique : ((cached w).map Srch.addr).Nodup)
    (mem : srch ∈ cached w) : Renewed w (some srch) (srchCacheRenew (some srch) w) := by
  have rest := freesRest unique mem
  simp only [srchCacheRenew,freeAll]
  generalize (cached w).filter (fun cur => (some srch).map Srch.addr != some cur.addr) = frees at rest
  obtain ⟨better,empty⟩ := clears good (frees.reverse ++ w.freed)
  have put := srchSetPuts (w := { w with freed := frees.reverse ++ w.freed, cache := clear w.cache }) better
    (fun b here => by rw [(clearGood good).2] at here; cases here) asserted srch
  generalize srchSetPut srch { w with freed := frees.reverse ++ w.freed, cache := clear w.cache } = result at put
  obtain ⟨w',req,absent⟩ := result
  cases absent with
  | false =>
    have there := (put.found rfl).1
    rw [empty] at there
    cases there
  | true =>
    have held := (put.fresh rfl).2
    rw [empty] at held
    have only : cached w' = [srch] := List.perm_singleton.mp held
    have same : assert true w' = w' := by
      have := put.same
      rw [assert,Bool.and_true]
    rw [same]
    have freed : w'.freed = frees.reverse ++ w.freed := congrArg Worker.freed put.same
    refine ⟨put.same.trans (by rw [freed]),put.good,put.hashes,only,?_⟩
    rw [only,freed]
    refine List.Perm.trans ?_ (rest.symm.append_right _)
    exact ((List.reverse_perm _).append_right _).cons _

theorem Sane.unique (sane : Sane fdMax w) : ((cached w).map Srch.addr ++ w.freed.map Srch.addr).Nodup := by
  rw [← List.map_append]
  exact sane.owned.nodup_iff.mpr List.nodup_range

theorem renewSane {srch : Srch} (sane : Sane fdMax w) (mem : srch ∈ cached w) :
    Sane fdMax (srchCacheRenew (some srch) w) ∧ cached (srchCacheRenew (some srch) w) = [srch] := by
  obtain ⟨same,good,hashes,kept,owned⟩ := renewsSome sane.good sane.asserted (List.nodup_append.mp sane.unique).1 mem
  generalize srchCacheRenew (some srch) w = w' at same good hashes kept owned
  rw [same] at good hashes kept owned ⊢
  refine ⟨⟨good,hashes,(owned.map _).trans sane.owned,?_,.inr ?_,sane.asserted⟩,kept⟩
  · rw [kept]
    obtain ⟨a,b,split⟩ := List.append_of_mem mem
    have files := sane.files
    rw [split] at files
    simp only [Option.toList_some,List.map_cons,List.map_nil,List.map_append,List.sum_append,List.sum_cons,List.sum_nil] at files ⊢
    omega
  · rw [kept]
    exact Nat.le_refl _

theorem initSane {srch : Srch} {fails : Nat} (good : Good srchSet w.cache) (hashes : ∀ b ∈ each w.cache,b.hash = srchHash b.key)
    (owned : ((cached w ++ w.freed).map Srch.addr).Perm (List.range w.made)) (asserted : w.asserts = true)
    (files : ((cached w).map fun srch => nfd srch.opts).sum ≤ w.shardNfd + nfd srch.opts) (mem : srch ∈ cached w) :
    Sane fdMax (srchInit fdMax srch fails w) ∧ srch ∈ cached (srchInit fdMax srch fails w) := by
  have unique : ((cached w).map Srch.addr ++ w.freed.map Srch.addr).Nodup := by
    rw [← List.map_append]
    exact owned.nodup_iff.mpr List.nodup_range
  have counted : ∃ w',w' = (if ((w.shardNfd + nfd srch.opts : Nat) : Int) > fdMax then
      { srchCacheRenew (some srch) { w with shardNfd := w.shardNfd + nfd srch.opts } with shardNfd := nfd srch.opts }
      else { w with shardNfd := w.shardNfd + nfd srch.opts }) ∧ Sane fdMax w' ∧ srch ∈ cached w' := by
    refine ⟨_,rfl,?_⟩
    split
    · obtain ⟨same,good,hashes,kept,owned'⟩ := renewsSome (w := { w with shardNfd := w.shardNfd + nfd srch.opts }) good asserted
        (List.nodup_append.mp unique).1 mem
      generalize srchCacheRenew (some srch) { w with shardNfd := w.shardNfd + nfd srch.opts } = w' at same good hashes kept owned'
      rw [same] at good hashes kept owned' ⊢
      have kept : cached { w with shardNfd := nfd srch.opts, cache := w'.cache, freed := w'.freed } = [srch] := kept
      refine ⟨⟨good,hashes,(owned'.map _).trans owned,?_,.inr ?_,asserted⟩,?_⟩
      · rw [kept]
        exact Nat.le_refl _
      · rw [kept]
        exact Nat.le_refl _
      · rw [kept]
        exact List.mem_singleton_self _
    · rename_i fits
      exact ⟨⟨good,hashes,owned,files,.inl (not_lt.mp fits),asserted⟩,mem⟩
  obtain ⟨w',is,sane,there⟩ := counted
  simp only [srchInit]
  rw [← is]
  obtain ⟨renewed,kept⟩ := renewSane sane there
  have still : srch ∈ cached (srchCacheRenew (some srch) w') := by rw [kept]; exact List.mem_singleton_self _
  match fails with
  | 0 => exact ⟨sane,there⟩
  | 1 => exact ⟨renewed,still⟩
  | _ + 2 => exact ⟨⟨renewed.good,renewed.hashes,renewed.owned,renewed.files,renewed.bounded,renewed.asserted⟩,still⟩

structure Serves (fdMax : Int) (w : Worker) (opts : List Opt) (req : Srch) : Prop where
  sane : Sane fdMax w
  there : req ∈ cached w
  asked : req.opts = opts

theorem dispatchServes {opts : List Opt} {fails : Nat} (sane : Sane fdMax w) (alive : (dispatch fdMax w opts fails).1.alive = true) :
    Serves fdMax (dispatch fdMax w opts fails).1 opts (dispatch fdMax w opts fails).2 := by
  rw [dispatch] at alive ⊢
  split at alive
  · cases alive
  · rename_i some
    rw [if_neg some]
    have put := srchSetPuts (w := { w with made := w.made + 1 }) sane.good sane.hashes sane.asserted ⟨w.made,opts⟩
    generalize srchSetPut ⟨w.made,opts⟩ { w with made := w.made + 1 } = result at put
    obtain ⟨w',req,absent⟩ := result
    obtain ⟨same,good,hashes,fresh,found⟩ := put
    dsimp only at same good hashes fresh found ⊢
    have freed : w'.freed = w.freed := by rw [same]
    have made : w'.made = w.made + 1 := by rw [same]
    have asserts : w'.asserts = true := by rw [same]; exact sane.asserted
    have shards : w'.shardNfd = w.shardNfd := by rw [same]
    have range : (w.made :: (cached w ++ w.freed).map Srch.addr).Perm (List.range w'.made) := by
      rw [made,List.range_succ]
      exact (sane.owned.cons _).trans (List.perm_append_singleton _ _).symm
    cases absent with
    | true =>
      obtain ⟨rfl,held⟩ := fresh rfl
      have held : (cached w').Perm (⟨w.made,opts⟩ :: cached w) := held
      have owned : ((cached w' ++ w'.freed).map Srch.addr).Perm (List.range w'.made) := by
        rw [freed]
        exact ((held.append_right w.freed).map Srch.addr).trans range
      have files : ((cached w').map fun srch => nfd srch.opts).sum ≤ w'.shardNfd + nfd opts := by
        rw [(held.map fun srch => nfd srch.opts).sum_eq,List.map_cons,List.sum_cons,shards,Nat.add_comm]
        exact Nat.add_le_add_right sane.files _
      obtain ⟨sane',there⟩ := @initSane fdMax w' ⟨w.made,opts⟩ fails good hashes owned asserts files (held.mem_iff.mpr List.mem_cons_self)
      show Serves fdMax (srchInit fdMax ⟨w.made,opts⟩ fails w') opts ⟨w.made,opts⟩
      exact ⟨sane',there,rfl⟩
    | false =>
      obtain ⟨there,asked,held⟩ := found rfl
      have held : (cached w').Perm (cached w) := held
      have there : req ∈ cached w := there
      have different : req.addr ≠ w.made := by
        intro equal
        have inside : req.addr ∈ List.range w.made := sane.owned.mem_iff.mp (List.mem_map.mpr ⟨req,List.mem_append_left _ there,rfl⟩)
        rw [equal] at inside
        exact absurd (List.mem_range.mp inside) (Nat.lt_irrefl _)
      refine ⟨⟨good,hashes,?_,?_,?_,?_⟩,held.mem_iff.mpr there,asked⟩
      · refine List.Perm.trans ?_ range
        show ((cached w' ++ (⟨w.made,opts⟩ :: w'.freed)).map Srch.addr).Perm _
        rw [freed]
        exact ((List.perm_middle.trans ((held.append_right _).cons _)).map Srch.addr)
      · have files : ((cached w').map fun srch => nfd srch.opts).sum ≤ w'.shardNfd := by
          rw [(held.map fun srch => nfd srch.opts).sum_eq,shards]
          exact sane.files
        exact files
      · show (w'.shardNfd : Int) ≤ fdMax ∨ (cached w').length ≤ 1
        rw [shards,held.length_eq]
        exact sane.bounded
      · show (w'.asserts && req.addr != w.made) = true
        rw [asserts,Bool.true_and,bne_iff_ne]
        exact different

theorem startSane : Sane fdMax start :=
  ⟨initGood,fun _ mem => absurd mem List.not_mem_nil,List.Perm.refl _,Nat.le_refl _,.inr (Nat.zero_le _),rfl⟩

theorem serveSane {reqs : List (List Opt × Nat)} (sane : Sane fdMax w) (alive : (serve fdMax w reqs).alive = true) :
    Sane fdMax (serve fdMax w reqs) := by
  induction reqs generalizing w with
  | nil => exact sane
  | cons req reqs ih =>
    rw [serve] at alive ⊢
    split at alive
    · rename_i still
      rw [if_pos still]
      cases lives : (dispatch fdMax w req.1 req.2).1.alive with
      | true => exact ih (dispatchServes sane lives).sane alive
      | false =>
        exfalso
        cases reqs with
        | nil => exact absurd (lives.symm.trans alive) Bool.false_ne_true
        | cons next reqs =>
          rw [serve,lives,if_neg Bool.false_ne_true,lives] at alive
          exact Bool.false_ne_true alive
    · rename_i dead
      exact absurd alive dead

end

/- No assertion fails; every allocation is cached or was freed, and only once; two searches that are cached were asked
for with other switches; a request is run with a search for its own switches that is not freed; their files do not
exceed the limit, but for one search alone; and in the end all are freed. -/
structure Owns (fdMax : Int) (w : Worker) : Prop where
  asserted : w.asserts = true
  owned : ((cached w ++ w.freed).map Srch.addr).Perm (List.range w.made)
  distinct : (cached w).Pairwise fun a b => a.opts ≠ b.opts
  files : ((cached w).map fun srch => nfd srch.opts).sum ≤ fdMax ∨ (cached w).length ≤ 1
  serves : ∀ opts fails,(dispatch fdMax w opts fails).1.alive = true → (dispatch fdMax w opts fails).2 ∈ cached (dispatch fdMax w opts fails).1 ∧
    (dispatch fdMax w opts fails).2.opts = opts ∧ (dispatch fdMax w opts fails).2.addr ∉ (dispatch fdMax w opts fails).1.freed.map Srch.addr
  ends : cached (cleanupAll w) = [] ∧ ((cleanupAll w).freed.map Srch.addr).Perm (List.range w.made)

theorem searchesOwned (fdMax : Int) (reqs : List (List Opt × Nat)) (alive : (serve fdMax start reqs).alive = true) :
    Owns fdMax (serve fdMax start reqs) := by
  have sane := serveSane startSane alive
  generalize serve fdMax start reqs = w at sane
  refine ⟨sane.asserted,sane.owned,?_,?_,?_,?_⟩
  · refine List.pairwise_map.mpr (sane.good.distinct.imp_of_mem fun {a b} memA memB unequal => ?_)
    exact unequalOpts (sane.hashes a memA) (sane.hashes b memB) unequal
  · exact sane.bounded.imp_left fun fits => (Int.ofNat_le.mpr sane.files).trans fits
  · intro opts fails lives
    obtain ⟨sane,there,asked⟩ := dispatchServes sane lives
    refine ⟨there,asked,fun freed => ?_⟩
    exact (List.nodup_append.mp sane.unique).2.2 _ (List.mem_map.mpr ⟨_,there,rfl⟩) _ freed rfl
  · obtain ⟨_,_,_,kept,owned⟩ := renewsNone sane.good
    rw [cleanupAll]
    refine ⟨kept,?_⟩
    have all := owned.map Srch.addr
    rw [kept] at all
    exact all.trans sane.owned

def inbox : Opt := .d ⟨[97],by decide⟩

def other : Opt := .d ⟨[98],by decide⟩

-- The second search takes the place of the first, which is opened again.
theorem searchesOwnedTwice : Owns 8 (serve 8 start [([inbox],0),([other],1),([inbox],0)]) := searchesOwned 8 _ (by decide)

end PublicInbox.XapHelper.SrchCache
