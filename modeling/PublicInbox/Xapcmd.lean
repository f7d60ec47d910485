import PublicInbox.Isearch

/-! Article numbers and the docids of sharded Xapian databases: idx_shard of V2Writable.pm chooses the
shard, cpdb of Xapcmd.pm copies the shards to another number of them, Search.pm and LeiXSearch.pm read the
databases added to one. Metadata, progress, compaction and the retries on a modified database are left out. -/
namespace PublicInbox.Xapcmd
open Keyed
open Isearch (mdocid)

variable {D I S : Type}

abbrev Shards (D : Type) := List (Table Nat D)

def combinedDocid (nshard shard docid : Nat) : Nat := (docid - 1) * nshard + shard + 1

def idxShard (nshard num : Nat) : Nat := num % nshard

def num2docid (nshard num : Nat) : Nat := (num - 1) * nshard + num % nshard + 1

def docidsToArtnums (nshard : Nat) (docids : List Nat) : List Nat := docids.map fun docid => (docid - 1) / nshard + 1

def msetToArtnums (nshard : Nat) (mset : List Nat) : List Nat := mset.map (mdocid nshard)

def indexEml (shards : Shards D) (num : Nat) (doc : D) : Shards D :=
  shards.modify (idxShard shards.length num) (·.insert num doc)

def xdbRemove (shards : Shards D) (num : Nat) : Shards D :=
  shards.modify (idxShard shards.length num) (·.erase num)

def cpdbDoc (curShard : Nat) (reshard : Option Nat) (dst : Table Nat D) (r : Nat × D) : Table Nat D :=
  if reshard.any (fun n => r.1 % n ≠ curShard) then dst else dst.insert r.1 r.2

def cpdbLoop (curShard : Nat) (reshard : Option Nat) (src dst : Table Nat D) : Table Nat D :=
  src.rows.foldl (cpdbDoc curShard reshard) dst

def run (reshard : Option Nat) (old : Shards D) : Option (Shards D) :=
  if reshard = some 0 ∨ old = [] then none
  else match reshard.filter (· ≠ old.length) with
    | none => some (old.map fun src => cpdbLoop 0 none src .empty)
    | some n => some ((List.range n).map fun curShard => old.foldl (fun dst src => cpdbLoop curShard (some n) src dst) .empty)

def shard2ibx (externals : List (I × Shards D)) : List I := externals.flatMap fun e => List.replicate e.2.length e.1

def shardsFlat (externals : List (I × Shards D)) : Shards D := externals.flatMap Prod.snd

/- smsg_for: `getArt` is over->get_art, and a message of no bytes is an external one. -/
def smsgFor (getArt : I → Nat → Option S) (bytes : S → Nat) (shard2ibx : List I) (docid : Nat) : Option S :=
  let nshard := shard2ibx.length
  let shard := (docid - 1) % nshard
  let num := (docid - 1) / nshard + 1
  shard2ibx[shard]?.bind fun ibx => (getArt ibx num).filter fun smsg => bytes smsg ≠ 0

inductive Op (D : Type) where
  | index (num : Nat) (doc : D)
  | remove (num : Nat)
  | reshard (n : Option Nat)

def Op.Numbered : Op D → Prop
  | index num _ => 0 < num
  | _ => True

def perform (shards : Shards D) : Op D → Shards D
  | .index num doc => indexEml shards num doc
  | .remove num => xdbRemove shards num
  | .reshard n => (run n shards).getD shards

def record (docs : Table Nat D) : Op D → Table Nat D
  | .index num doc => docs.insert num doc
  | .remove num => docs.erase num
  | .reshard _ => docs

def split (n : Nat) (docs : Table Nat D) : Shards D :=
  (List.range n).map fun shard => docs.filter fun num _ => idxShard n num = shard

theorem splitAt {n shard : Nat} {docs : Table Nat D} :
    (split n docs)[shard]? = if shard < n then some (docs.filter fun num _ => idxShard n num = shard) else none := by
  rw [split,List.getElem?_map]
  split
  · rename_i inside
    rw [List.getElem?_range inside]
    rfl
  · rename_i past
    rw [List.getElem?_eq_none (by rw [List.length_range]; omega)]
    rfl

theorem splitLength (n : Nat) (docs : Table Nat D) : (split n docs).length = n := by
  rw [split,List.length_map,List.length_range]

theorem splitModify {n num : Nat} {docs : Table Nat D} {f g : Table Nat D → Table Nat D}
    (own : ∀ db k,(f db).get? k = if k = num then (g docs).get? num else db.get? k)
    (other : ∀ k,k ≠ num → (g docs).get? k = docs.get? k) :
    (split n docs).modify (idxShard n num) f = split n (g docs) := by
  refine List.ext_getElem? fun shard => ?_
  rw [List.getElem?_modify,splitAt,splitAt]
  by_cases inside : shard < n
  · rw [if_pos inside,if_pos inside,Option.map_eq_map,Option.map_some]
    refine congrArg some (Table.ext fun k => ?_)
    by_cases same : k = num
    · subst same
      by_cases here : idxShard n k = shard
      · simp [here,own,Option.filter]
        cases (g docs).get? k <;> simp
      · simp [here,Option.filter]
        cases (g docs).get? k <;> cases docs.get? k <;> simp
    · rw [Table.getFilter,other k same]
      split
      · rw [own,if_neg same,Table.getFilter]
      · exact (Table.getFilter _ _ _).trans rfl
  · rw [if_neg inside,if_neg inside]
    rfl

theorem indexSplit (n num : Nat) (doc : D) (docs : Table Nat D) :
    indexEml (split n docs) num doc = split n (docs.insert num doc) := by
  rw [indexEml,splitLength]
  refine splitModify (g := fun docs => docs.insert num doc) (fun db k => ?_) fun k other => ?_
  · simp
  · simp [other]

theorem removeSplit (n num : Nat) (docs : Table Nat D) : xdbRemove (split n docs) num = split n (docs.erase num) := by
  rw [xdbRemove,splitLength]
  refine splitModify (g := fun docs => docs.erase num) (fun db k => ?_) fun k other => ?_
  · simp
  · simp [other]

theorem copiedRows {curShard : Nat} {reshard : Option Nat} {rows : List (Nat × D)} (sorted : rows.Pairwise (fun a b => a.1 < b.1))
    (dst : Table Nat D) (k : Nat) : (rows.foldl (cpdbDoc curShard reshard) dst).get? k =
      if reshard.any (fun n => k % n ≠ curShard) then dst.get? k else (Table.find k rows).or (dst.get? k) := by
  induction rows generalizing dst with
  | nil => simp [Table.find]
  | cons r rows ih =>
    obtain ⟨above,rest⟩ := List.pairwise_cons.mp sorted
    rw [List.foldl_cons,ih rest,Table.find]
    by_cases same : r.1 = k
    · have absent : Table.find k rows = none := Table.findNone fun x mem => by
        have := above x mem
        omega
      rw [if_pos same,absent,cpdbDoc,same]
      split
      · rfl
      · simp
    · have kept : (cpdbDoc curShard reshard dst r).get? k = dst.get? k := by
        rw [cpdbDoc]
        split
        · rfl
        · rw [Table.getInsert,if_neg (Ne.symm same)]
      rw [if_neg same,kept]

theorem copied (curShard : Nat) (reshard : Option Nat) (src dst : Table Nat D) (k : Nat) :
    (cpdbLoop curShard reshard src dst).get? k =
      if reshard.any (fun n => k % n ≠ curShard) then dst.get? k else (src.get? k).or (dst.get? k) :=
  copiedRows src.sorted dst k

theorem copiedAll {curShard n k : Nat} {want : Option D} (own : k % n = curShard) (old : Shards D)
    (same : ∀ src ∈ old,∀ doc,src.get? k = some doc → want = some doc) (dst : Table Nat D)
    (there : dst.get? k = want ∨ dst.get? k = none ∧ ∃ src ∈ old,src.get? k = want) :
    (old.foldl (fun dst src => cpdbLoop curShard (some n) src dst) dst).get? k = want := by
  induction old generalizing dst with
  | nil => simpa using there
  | cons src old ih =>
    refine ih (fun src mem => same src (List.mem_cons_of_mem _ mem)) _ ?_
    have taken : (cpdbLoop curShard (some n) src dst).get? k = (src.get? k).or (dst.get? k) := by
      rw [copied]
      simp [own]
    rw [taken]
    cases here : src.get? k with
    | some doc => exact .inl (same src List.mem_cons_self doc here).symm
    | none =>
      rw [Option.none_or]
      rcases there with done | ⟨empty,db,mem,has⟩
      · exact .inl done
      · rcases List.mem_cons.mp mem with rfl | later
        · exact .inl (empty.trans (here.symm.trans has))
        · exact .inr ⟨empty,db,later,has⟩

theorem passedOver {curShard n k : Nat} (other : k % n ≠ curShard) (old : Shards D) (dst : Table Nat D) :
    (old.foldl (fun dst src => cpdbLoop curShard (some n) src dst) dst).get? k = dst.get? k := by
  induction old generalizing dst with
  | nil => rfl
  | cons src old ih =>
    rw [List.foldl_cons,ih,copied]
    simp [other]

theorem runSplit {m : Nat} (many : 0 < m) (docs : Table Nat D) {reshard : Option Nat} {new : Shards D}
    (made : run reshard (split m docs) = some new) : 0 < reshard.getD m ∧ new = split (reshard.getD m) docs := by
  unfold run at made
  split at made
  · cases made
  · rename_i fine
    have positive : 0 < reshard.getD m := by
      cases reshard with
      | none => exact many
      | some n => exact Nat.pos_of_ne_zero fun zero => fine (.inl (congrArg some zero))
    refine ⟨positive,?_⟩
    rw [splitLength] at made
    split at made
    · rename_i kept
      have same : reshard.getD m = m := by
        cases reshard with
        | none => rfl
        | some n => simpa using kept
      cases made
      rw [same]
      refine (List.map_congr_left fun src mem => ?_).trans (List.map_id _)
      refine Table.ext fun k => ?_
      rw [copied]
      simp
    · rename_i n changed
      obtain ⟨rfl,-⟩ := Option.filter_eq_some_iff.mp changed
      cases made
      refine List.map_congr_left fun curShard mem => Table.ext fun k => ?_
      rw [Table.getFilter]
      by_cases own : k % n = curShard
      · have taken : (docs.get? k).filter (fun _ => decide (idxShard n k = curShard)) = docs.get? k := by
          cases docs.get? k <;> simp [idxShard,own,Option.filter]
        rw [Option.getD_some,taken]
        refine copiedAll own _ (fun src mem doc found => ?_) _ (.inr ⟨rfl,?_⟩)
        · obtain ⟨shard,-,rfl⟩ := List.mem_map.mp mem
          rw [Table.getFilter,Option.filter_eq_some_iff] at found
          exact found.1
        · refine ⟨_,List.mem_map_of_mem (List.mem_range.mpr (Nat.mod_lt k many)),?_⟩
          rw [Table.getFilter]
          cases docs.get? k <;> simp [idxShard,Option.filter]
      · rw [passedOver own]
        cases docs.get? k <;> simp [idxShard,own,Option.filter]

theorem performSplit {n : Nat} (many : 0 < n) (docs : Table Nat D) (op : Op D) :
    ∃ m,0 < m ∧ perform (split n docs) op = split m (record docs op) := by
  cases op with
  | index num doc => exact ⟨n,many,indexSplit n num doc docs⟩
  | remove num => exact ⟨n,many,removeSplit n num docs⟩
  | reshard reshard =>
    rw [perform]
    cases made : run reshard (split n docs) with
    | none => exact ⟨n,many,rfl⟩
    | some new =>
      obtain ⟨positive,rfl⟩ := runSplit many docs made
      exact ⟨_,positive,rfl⟩

theorem runsSplit (ops : List (Op D)) {n : Nat} (many : 0 < n) (docs : Table Nat D) :
    ∃ m,0 < m ∧ ops.foldl perform (split n docs) = split m (ops.foldl record docs) := by
  induction ops generalizing n docs with
  | nil => exact ⟨n,many,rfl⟩
  | cons op ops ih =>
    obtain ⟨m,positive,is⟩ := performSplit many docs op
    rw [List.foldl_cons,List.foldl_cons,is]
    exact ih positive (record docs op)

theorem startSplit (n : Nat) : List.replicate n (.empty : Table Nat D) = split n .empty := by
  refine List.ext_getElem? fun shard => ?_
  rw [List.getElem?_replicate,splitAt]
  rfl

theorem recordNumbered (ops : List (Op D)) (numbered : ∀ op ∈ ops,op.Numbered) {docs : Table Nat D}
    (before : ∀ num doc,docs.get? num = some doc → 0 < num) {num : Nat} {doc : D}
    (found : (ops.foldl record docs).get? num = some doc) : 0 < num := by
  induction ops generalizing docs with
  | nil => exact before num doc found
  | cons op ops ih =>
    refine ih (fun op mem => numbered op (List.mem_cons_of_mem _ mem)) (fun num doc found => ?_) found
    cases op with
    | index new given =>
      rw [record,Table.getInsert] at found
      split at found
      · rename_i same
        exact same ▸ numbered _ List.mem_cons_self
      · exact before num doc found
    | remove gone =>
      rw [record,Table.getErase] at found
      split at found
      · cases found
      · exact before num doc found
    | reshard => exact before num doc found

theorem combinedShard {n shard docid : Nat} (inside : shard < n) : (combinedDocid n shard docid - 1) % n = shard := by
  rw [combinedDocid,Nat.add_sub_cancel,Nat.add_comm,Nat.add_mul_mod_self_right,Nat.mod_eq_of_lt inside]

theorem combinedNum {n shard docid : Nat} (inside : shard < n) (positive : 0 < docid) :
    (combinedDocid n shard docid - 1) / n + 1 = docid := by
  rw [combinedDocid,Nat.add_sub_cancel,Nat.add_comm ((docid - 1) * n),Nat.add_mul_div_right _ _ (Nat.zero_lt_of_lt inside),
    Nat.div_eq_of_lt inside]
  omega

theorem combinedLess {n s t num other : Nat} (inside : s < n) (positive : 0 < num) (less : num < other) :
    combinedDocid n s num < combinedDocid n t other := by
  obtain ⟨a,rfl⟩ : ∃ a,num = a + 1 := ⟨num - 1,by omega⟩
  obtain ⟨b,rfl⟩ : ∃ b,other = b + 1 := ⟨other - 1,by omega⟩
  have step : (a + 1) * n ≤ b * n := Nat.mul_le_mul_right n (by omega)
  rw [Nat.succ_mul] at step
  simp only [combinedDocid,Nat.add_sub_cancel]
  omega

def Holds (shards : Shards D) (shard num : Nat) (doc : D) : Prop := ∃ db,shards[shard]? = some db ∧ db.get? num = some doc

theorem splitHolds {n : Nat} (many : 0 < n) {docs : Table Nat D} {shard num : Nat} {doc : D} :
    Holds (split n docs) shard num doc ↔ shard = idxShard n num ∧ docs.get? num = some doc := by
  have inside : idxShard n num < n := Nat.mod_lt num many
  rw [Holds,splitAt]
  constructor
  · rintro ⟨db,is,found⟩
    split at is
    · cases is
      rw [Table.getFilter,Option.filter_eq_some_iff] at found
      exact ⟨(of_decide_eq_true found.2).symm,found.1⟩
    · cases is
  · rintro ⟨rfl,found⟩
    refine ⟨_,if_pos inside,?_⟩
    rw [Table.getFilter,Option.filter_eq_some_iff]
    exact ⟨found,decide_eq_true rfl⟩

structure Recovered (nshard shard num : Nat) : Prop where
  mset : msetToArtnums nshard [combinedDocid nshard shard num] = [num]
  docids : docidsToArtnums nshard [combinedDocid nshard shard num] = [num]
  inverse : num2docid nshard num = combinedDocid nshard shard num
  back : num2docid nshard (mdocid nshard (combinedDocid nshard shard num)) = combinedDocid nshard shard num

theorem recovered {n num : Nat} (many : 0 < n) (positive : 0 < num) : Recovered n (idxShard n num) num := by
  have number : mdocid n (combinedDocid n (idxShard n num) num) = num := combinedNum (Nat.mod_lt num many) positive
  refine ⟨congrArg (· :: []) number,congrArg (· :: []) number,rfl,?_⟩
  rw [number]
  rfl

structure FoundAmong (before after : List (I × Shards D)) (ibx : I) (shards : Shards D) (num : Nat) : Prop where
  shard : (shardsFlat (before ++ (ibx,shards) :: after))[(shardsFlat before).length + idxShard shards.length num]? =
    shards[idxShard shards.length num]?
  smsg : ∀ {S : Type} (getArt : I → Nat → Option S) (bytes : S → Nat),
    smsgFor getArt bytes (shard2ibx (before ++ (ibx,shards) :: after))
      (combinedDocid (shardsFlat (before ++ (ibx,shards) :: after)).length ((shardsFlat before).length + idxShard shards.length num) num) =
    (getArt ibx num).filter fun smsg => bytes smsg ≠ 0

theorem ibxLength (externals : List (I × Shards D)) : (shard2ibx externals).length = (shardsFlat externals).length := by
  simp [shard2ibx,shardsFlat,List.length_flatMap]

theorem foundAmong (before after : List (I × Shards D)) (ibx : I) {shards : Shards D} (many : 0 < shards.length) {num : Nat}
    (positive : 0 < num) : FoundAmong before after ibx shards num := by
  have own : idxShard shards.length num < shards.length := Nat.mod_lt num many
  have flat : shardsFlat (before ++ (ibx,shards) :: after) = shardsFlat before ++ (shards ++ shardsFlat after) := by
    simp [shardsFlat]
  have names : shard2ibx (before ++ (ibx,shards) :: after) =
      shard2ibx before ++ (List.replicate shards.length ibx ++ shard2ibx after) := by
    simp [shard2ibx]
  have inside : (shardsFlat before).length + idxShard shards.length num < (shardsFlat (before ++ (ibx,shards) :: after)).length := by
    rw [flat,List.length_append,List.length_append]
    omega
  constructor
  · rw [flat,List.getElem?_append_right (Nat.le_add_right _ _),Nat.add_sub_cancel_left,List.getElem?_append_left own]
  · intro S getArt bytes
    rw [smsgFor,ibxLength,combinedShard inside,combinedNum inside positive,names,← ibxLength before,
      List.getElem?_append_right (Nat.le_add_right _ _),Nat.add_sub_cancel_left,
      List.getElem?_append_left (by rwa [List.length_replicate]),List.getElem?_replicate,if_pos own]
    rfl

/- After any history of indexing, removals and resharding: each document is in one shard, that of idx_shard, and
there after another resharding; readers get its number back from its docid in the shards together, and the
docids are in the order of the numbers. -/
theorem routingAgrees {n : Nat} (many : 0 < n) (ops : List (Op D)) (numbered : ∀ op ∈ ops,op.Numbered) :
    let shards := ops.foldl perform (List.replicate n .empty)
    let docs := ops.foldl record .empty
    (∀ shard num doc,Holds shards shard num doc ↔ shard = idxShard shards.length num ∧ docs.get? num = some doc) ∧
      (∀ num,0 < num → Recovered shards.length (idxShard shards.length num) num ∧
        ∀ {I : Type} (before after : List (I × Shards D)) (ibx : I),FoundAmong before after ibx shards num) ∧
      (∀ shard num doc shard' num' doc',Holds shards shard num doc → Holds shards shard' num' doc' →
        (combinedDocid shards.length shard num < combinedDocid shards.length shard' num' ↔ num < num')) ∧
      ∀ reshard new,run reshard shards = some new → new.length = reshard.getD shards.length ∧
        ∀ num doc,(∃ shard,Holds shards shard num doc) ↔ ∃! shard,Holds new shard num doc := by
  intro shards docs
  obtain ⟨m,positive,is⟩ := runsSplit ops many (.empty : Table Nat D)
  rw [← startSplit] at is
  change shards = split m docs at is
  have length : shards.length = m := by rw [is,splitLength]
  have holds : ∀ shard num doc,Holds shards shard num doc ↔ shard = idxShard shards.length num ∧ docs.get? num = some doc := by
    intro shard num doc
    rw [length,is]
    exact splitHolds positive
  have first : ∀ num doc,docs.get? num = some doc → 0 < num := fun num doc => recordNumbered ops numbered (by simp)
  refine ⟨holds,fun num first => ⟨?_,fun before after ibx => ?_⟩,fun shard num doc shard' num' doc' one other => ?_,
    fun reshard new made => ?_⟩
  · exact recovered (length ▸ positive) first
  · exact foundAmong before after ibx (length ▸ positive) first
  · obtain ⟨rfl,found⟩ := (holds shard num doc).mp one
    obtain ⟨rfl,found'⟩ := (holds shard' num' doc').mp other
    have inside : ∀ k,idxShard shards.length k < shards.length := fun k => Nat.mod_lt k (length ▸ positive)
    refine ⟨fun less => ?_,combinedLess (inside num) (first num doc found)⟩
    rcases Nat.lt_trichotomy num num' with below | rfl | above
    · exact below
    · exact absurd less (lt_irrefl _)
    · exact absurd (combinedLess (inside num') (first num' doc' found') above) (lt_asymm less)
  · rw [is] at made
    obtain ⟨more,rfl⟩ := runSplit positive docs made
    refine ⟨by rw [splitLength,length],fun num doc => ?_⟩
    have unique : (∃! shard,Holds (split (reshard.getD m) docs) shard num doc) ↔ docs.get? num = some doc := by
      constructor
      · rintro ⟨shard,there,-⟩
        exact ((splitHolds more).mp there).2
      · intro found
        exact ⟨_,(splitHolds more).mpr ⟨rfl,found⟩,fun shard there => ((splitHolds more).mp there).1⟩
    rw [unique]
    constructor
    · rintro ⟨shard,there⟩
      exact ((holds shard num doc).mp there).2
    · intro found
      exact ⟨_,(holds _ num doc).mpr ⟨rfl,found⟩⟩

-- Articles 5 and 6 of three shards, and then of two
theorem routedTwice : Holds ([.index 5 50,.index 6 60,.reshard (some 2)].foldl perform (List.replicate 3 .empty)) 1 5 50 := by
  have agrees := routingAgrees (by decide : 0 < 3) [Op.index 5 50,.index 6 60,.reshard (some 2)] (by simp [Op.Numbered])
  exact (agrees.1 1 5 50).mpr ⟨by decide,by decide⟩

end PublicInbox.Xapcmd
