import Mathlib.Data.List.Induction
import PublicInbox.Isearch

/-! The article numbers of a search through the external index. The range of article numbers
becomes the hull of their docids, which no document of a match is outside of, and the limit its
size, which cuts nothing off. -/
namespace PublicInbox.Isearch
open Keyed
open ExtSearchIdx (Xref3)
variable {B C : Type} [LinearOrder B] {s : Es B C}

/- The documents have an `O` term for every inbox that has a row for them, and no other. -/
structure Consistent (s : Es B C) : Prop where
  shards : 0 < s.nshard
  positive : ∀ d ∈ s.docs.keys,0 < d
  termed : ∀ r,s.xref3.Has r → ∀ key,s.ibxId key = some r.ibxId →
    ∃ doc,s.docs.get? r.docid = some doc ∧ key ∈ doc.eidxKeys
  rowed : ∀ d doc,s.docs.get? d = some doc → ∀ key ∈ doc.eidxKeys,∀ i,s.ibxId key = some i →
    ∃ r,s.xref3.Has r ∧ r.docid = d ∧ r.ibxId = i

theorem mdocidXapian {n d : Nat} (shards : 0 < n) (positive : 0 < d) : mdocid n (xapianDocid n d) = d := by
  unfold mdocid xapianDocid
  have rest : d % n / n = 0 := Nat.div_eq_of_lt (Nat.mod_lt _ shards)
  rw [Nat.add_sub_cancel,Nat.add_comm ((d - 1) * n),Nat.add_mul_div_right _ _ shards,rest]
  omega

theorem xapianMono {n d d' : Nat} (shards : 0 < n) (less : d < d') (positive : 0 < d) : xapianDocid n d < xapianDocid n d' := by
  unfold xapianDocid
  have rest := Nat.mod_lt d shards
  have next : (d - 1) * n + n ≤ (d' - 1) * n := by
    have step : d - 1 + 1 ≤ d' - 1 := by omega
    calc (d - 1) * n + n = (d - 1 + 1) * n := by rw [Nat.add_mul,Nat.one_mul]
      _ ≤ (d' - 1) * n := Nat.mul_le_mul_right n step
  omega

def Es.hits (s : Es B C) (p : C → Bool) (key : Option String) (range : Option (Nat × Nat)) : List Nat :=
  s.docs.keysWhere (fun docid doc => p doc.content && key.all (· ∈ doc.eidxKeys) && range.all (fun r => r.1 ≤ docid && docid ≤ r.2))

theorem hitsKeys {p : C → Bool} {key : Option String} {range : Option (Nat × Nat)} {d : Nat} (mem : d ∈ s.hits p key range) :
    d ∈ s.docs.keys := by
  obtain ⟨doc,found,-⟩ := Table.memKeysWhere.mp mem
  exact Table.memKeys.mpr ⟨doc,found⟩

theorem hitsItems (whole : Consistent s) (p : C → Bool) (key : Option String) (range : Option (Nat × Nat)) :
    ((s.hits p key range).map (xapianDocid s.nshard)).insertionSort (· ≤ ·) = (s.hits p key range).map (xapianDocid s.nshard) := by
  refine List.Pairwise.insertionSort_eq (List.pairwise_map.mpr ?_)
  refine (Table.keysWhereSorted _ _).imp_of_mem ?_
  intro a b mem _ less
  exact (xapianMono whole.shards less (whole.positive a (hitsKeys mem))).le

theorem hitsBack (whole : Consistent s) {p : C → Bool} {key : Option String} {range : Option (Nat × Nat)} {ds : List Nat}
    (inside : ∀ d ∈ ds,d ∈ s.hits p key range) : (ds.map (xapianDocid s.nshard)).map (mdocid s.nshard) = ds := by
  rw [List.map_map]
  conv_rhs => rw [← List.map_id ds]
  refine List.map_congr_left fun d mem => ?_
  exact mdocidXapian whole.shards (whole.positive d (hitsKeys (inside d mem)))

theorem hitsFew {p : C → Bool} {key : Option String} {lo hi : Nat} : (s.hits p key (some (lo,hi))).length ≤ hi - lo + 1 := by
  have nodup : (s.hits p key (some (lo,hi))).Nodup := (Table.keysWhereSorted _ _).imp ne_of_lt
  have inside : s.hits p key (some (lo,hi)) ⊆ List.range' lo (hi - lo + 1) := by
    intro d mem
    obtain ⟨doc,-,taken⟩ := Table.memKeysWhere.mp mem
    simp only [Option.all_some,Bool.and_eq_true,decide_eq_true_eq] at taken
    exact List.mem_range'_1.mpr (by omega)
  have count := (List.subperm_of_subset nodup inside).length_le
  rwa [List.length_range'] at count

def Es.satisfies (s : Es B C) (p : C → Bool) (d : Nat) : Bool := (s.docs.get? d).any (fun doc => p doc.content)

def Es.attached (s : Es B C) (p : C → Bool) (ibxId beg fin : Nat) : List (Xref3 B) :=
  s.xref3.select (fun r => r.ibxId = ibxId ∧ beg ≤ r.xnum ∧ r.xnum ≤ fin ∧ s.satisfies p r.docid)

theorem imapHits (whole : Consistent s) (p : C → Bool) (bySort : Nat → Bool → List Nat → List Nat) {key : String} {i : Nat}
    (known : s.ibxId key = some i) (beg fin : Nat) {r : Xref3 B} (has : s.xref3.Has r) (own : r.ibxId = i)
    (low : beg ≤ r.xnum) (high : r.xnum ≤ fin) :
    r.docid ∈ (s.mset p bySort (s.eidxMsetPrep key i (imapOpt beg fin))).map (mdocid s.nshard) ↔ s.satisfies p r.docid = true := by
  obtain ⟨doc,found,term⟩ := whole.termed r has key (own ▸ known)
  have mem : r.docid ∈ (s.xref3.select (fun r => r.ibxId = i ∧ beg ≤ r.xnum ∧ r.xnum ≤ fin)).map Xref3.docid :=
    List.mem_map_of_mem (Rel.hasSelect.mpr ⟨has,by simp [own,low,high]⟩)
  have nonempty := List.ne_nil_of_mem mem
  obtain ⟨lo,least⟩ := Option.ne_none_iff_exists'.mp (mt List.min?_eq_none_iff.mp nonempty)
  obtain ⟨hi,most⟩ := Option.ne_none_iff_exists'.mp (mt List.max?_eq_none_iff.mp nonempty)
  have bottom := (List.min?_eq_some_iff.mp least).2 _ mem
  have top := (List.max?_eq_some_iff.mp most).2 _ mem
  have prep : s.eidxMsetPrep key i (imapOpt beg fin) = ⟨some (-1),true,hi - lo + 1,some (lo,hi),some key⟩ := by
    simp only [Es.eidxMsetPrep,imapOpt,least,most]
  have items : s.mset p bySort (s.eidxMsetPrep key i (imapOpt beg fin)) =
      (s.hits p (some key) (some (lo,hi))).map (xapianDocid s.nshard) := by
    rw [prep]
    change (List.insertionSort (· ≤ ·) ((s.hits p (some key) (some (lo,hi))).map (xapianDocid s.nshard))).take (hi - lo + 1) = _
    rw [hitsItems whole,List.take_of_length_le]
    rw [List.length_map]
    exact hitsFew
  rw [items,hitsBack whole fun d mem => mem]
  simp [Es.hits,Es.satisfies,Table.memKeysWhere,found,term,bottom,top]

theorem selectPerm {t : Rel (Xref3 B)} {p q : Xref3 B → Bool} (same : ∀ r,t.Has r → (p r = true ↔ q r = true)) :
    (t.select p).Perm (t.select q) := by
  refine (List.perm_ext_iff_of_nodup (Rel.selectNodup _ _) (Rel.selectNodup _ _)).mpr fun r => ?_
  rw [Rel.hasSelect,Rel.hasSelect]
  exact and_congr_right (same r)

theorem imapArtnums (whole : Consistent s) (p : C → Bool) (bySort : Nat → Bool → List Nat → List Nat)
    (order : List (Xref3 B) → List (Xref3 B)) {key : String} {i : Nat} (known : s.ibxId key = some i) (beg fin : Nat) :
    ∃ found,s.artnums p bySort order key (imapOpt beg fin) = some found ∧ found.Pairwise (· ≤ ·) ∧
      found.Perm ((s.attached p i beg fin).map Xref3.xnum) := by
  refine ⟨_,by rw [Es.artnums,known]; rfl,?_⟩
  unfold Es.msetToArtnums
  dsimp only
  rw [if_pos ⟨rfl,show (-1 : Int) < 0 by decide⟩]
  refine ⟨List.pairwise_insertionSort _ _,(List.perm_insertionSort _ _).trans (List.Perm.map _ (selectPerm ?_))⟩
  intro r has
  simp only [imapOpt,Option.all_some,Bool.and_eq_true,decide_eq_true_eq]
  constructor
  · rintro ⟨own,inside,low,high⟩
    exact ⟨own,low,high,(imapHits whole p bySort known beg fin has own low high).mp inside⟩
  · rintro ⟨own,low,high,match_⟩
    exact ⟨own,(imapHits whole p bySort known beg fin has own low high).mpr match_,low,high⟩

omit [LinearOrder B] in
theorem placeRows {docids : List Nat} (nodup : docids.Nodup) (rows : List (Xref3 B)) :
    let st := rows.foldl (Es.place docids) (docids,fun _ => none)
    st.1.Nodup ∧ (∀ d,d ∈ st.1 ↔ d ∈ docids ∧ ∀ r ∈ rows,r.docid ≠ d) ∧
      ∀ d ∈ docids,d ∉ st.1 → ∃ r ∈ rows,r.docid = d ∧ st.2 (docids.idxOf d) = some r.xnum := by
  induction rows using List.reverseRecOn with
  | nil => simpa using nodup
  | append_singleton rows r ih =>
    obtain ⟨own,left,placed⟩ := ih
    simp only [List.foldl_append,List.foldl_cons,List.foldl_nil] at own left placed ⊢
    generalize rows.foldl (Es.place docids) (docids,fun _ => none) = st at own left placed ⊢
    unfold Es.place
    split
    · rename_i waiting
      refine ⟨own.erase _,?_,?_⟩
      · intro d
        rw [own.mem_erase_iff,left d]
        simp only [List.mem_append,List.mem_singleton,or_imp,forall_and,forall_eq]
        constructor
        · rintro ⟨other,mem,none⟩
          exact ⟨mem,none,Ne.symm other⟩
        · rintro ⟨mem,none,other⟩
          exact ⟨Ne.symm other,mem,none⟩
      · intro d mem gone
        by_cases here : d = r.docid
        · subst here
          exact ⟨r,by simp,rfl,Function.update_self ..⟩
        · have before : d ∉ st.1 := fun inside => gone (own.mem_erase_iff.mpr ⟨here,inside⟩)
          obtain ⟨r',inside,same,value⟩ := placed d mem before
          refine ⟨r',List.mem_append_left _ inside,same,?_⟩
          have apart : docids.idxOf d ≠ docids.idxOf r.docid := fun equal =>
            here ((List.idxOf_inj mem).mp equal)
          dsimp only
          rw [Function.update_of_ne apart,value]
    · rename_i seen
      refine ⟨own,?_,?_⟩
      · intro d
        rw [left d]
        simp only [List.mem_append,List.mem_singleton,or_imp,forall_and,forall_eq]
        constructor
        · rintro ⟨mem,none⟩
          refine ⟨mem,none,?_⟩
          rintro rfl
          exact seen ((left _).mpr ⟨mem,none⟩)
        · rintro ⟨mem,none,-⟩
          exact ⟨mem,none⟩
      · intro d mem gone
        obtain ⟨r',inside,same,value⟩ := placed d mem gone
        exact ⟨r',List.mem_append_left _ inside,same,value⟩

theorem rangeIdx {α : Type} {l : List Nat} (nodup : l.Nodup) (f : Nat → α) :
    (List.range l.length).map f = l.map (fun d => f (l.idxOf d)) := by
  refine List.ext_getElem (by simp) fun j inside inside' => ?_
  simp only [List.getElem_map,List.getElem_range]
  rw [nodup.idxOf_getElem]

def Es.Lists (s : Es B C) (ibxId : Nat) (docids found : List Nat) : Prop :=
  List.Forall₂ (fun d n => ∃ r,s.xref3.Has r ∧ r.ibxId = ibxId ∧ r.docid = d ∧ r.xnum = n) docids found

theorem msetOrder (order : List (Xref3 B) → List (Xref3 B)) (orders : ∀ rows,(order rows).Perm rows) {i : Nat} {mset : List Nat}
    {opt : Opt} (other : ¬ (opt.asc = true ∧ opt.sortCol.getD 0 < 0)) (nodup : (mset.map (mdocid s.nshard)).Nodup)
    (rowed : ∀ d ∈ mset.map (mdocid s.nshard),∃ r,s.xref3.Has r ∧ r.docid = d ∧ r.ibxId = i) :
    s.Lists i (mset.map (mdocid s.nshard)) (s.msetToArtnums i order mset opt) := by
  unfold Es.msetToArtnums
  dsimp only
  rw [if_neg other]
  generalize mset.map (mdocid s.nshard) = docids at nodup rowed ⊢
  obtain ⟨-,left,placed⟩ := placeRows nodup (order (s.xref3.select (fun r => r.ibxId = i ∧ r.docid ∈ docids)))
  generalize rows : order (s.xref3.select (fun r => r.ibxId = i ∧ r.docid ∈ docids)) = rs at left placed ⊢
  have inside : ∀ r,r ∈ rs ↔ s.xref3.Has r ∧ r.ibxId = i ∧ r.docid ∈ docids := by
    intro r
    rw [← rows,(orders _).mem_iff,Rel.hasSelect,decide_eq_true_eq]
  generalize rs.foldl (Es.place docids) (docids,fun _ => none) = st at left placed ⊢
  have done : st.1 = [] := by
    refine List.eq_nil_iff_forall_not_mem.mpr fun d mem => ?_
    obtain ⟨member,none⟩ := (left d).mp mem
    obtain ⟨r,has,same,own⟩ := rowed d member
    exact none r ((inside r).mpr ⟨has,own,same ▸ member⟩) same
  rw [if_pos done,rangeIdx nodup,List.map_map]
  unfold Es.Lists
  rw [List.forall₂_map_right_iff,List.forall₂_same]
  intro d mem
  obtain ⟨r,there,same,value⟩ := placed d mem (by rw [done]; exact List.not_mem_nil)
  obtain ⟨has,own,-⟩ := (inside r).mp there
  exact ⟨r,has,own,same,by simp [value]⟩

theorem msetDocids (whole : Consistent s) (p : C → Bool) (bySort : Nat → Bool → List Nat → List Nat)
    (sorts : ∀ col asc l,(bySort col asc l).Perm l) (opt : Opt) :
    ∃ ds : List Nat,ds.Nodup ∧ (∀ d ∈ ds,d ∈ s.hits p opt.eidxKey opt.uidRange) ∧
      s.mset p bySort opt = ds.map (xapianDocid s.nshard) := by
  have nodup : (s.hits p opt.eidxKey opt.uidRange).Nodup := (Table.keysWhereSorted _ _).imp ne_of_lt
  have ordered : ∀ l : List Nat,l.Perm ((s.hits p opt.eidxKey opt.uidRange).map (xapianDocid s.nshard)) →
      ∃ ds : List Nat,ds.Nodup ∧ (∀ d ∈ ds,d ∈ s.hits p opt.eidxKey opt.uidRange) ∧
        l.take (if opt.limit = 0 then 50 else opt.limit) = ds.map (xapianDocid s.nshard) := by
    intro l perm
    have back : (l.map (mdocid s.nshard)).Perm (s.hits p opt.eidxKey opt.uidRange) := by
      have mapped := perm.map (mdocid s.nshard)
      rwa [hitsBack whole fun d mem => mem] at mapped
    refine ⟨(l.take (if opt.limit = 0 then 50 else opt.limit)).map (mdocid s.nshard),?_,?_,?_⟩
    · rw [List.map_take]
      exact (back.nodup_iff.mpr nodup).sublist (List.take_sublist _ _)
    · intro d mem
      rw [List.map_take] at mem
      exact back.mem_iff.mp (List.mem_of_mem_take mem)
    · rw [List.map_map]
      conv_lhs => rw [← List.map_id (l.take _)]
      refine List.map_congr_left fun x mem => ?_
      obtain ⟨d,inside,rfl⟩ := List.mem_map.mp (perm.mem_iff.mp (List.mem_of_mem_take mem))
      simp [mdocidXapian whole.shards (whole.positive d (hitsKeys inside))]
  have items := List.perm_insertionSort (· ≤ ·) ((s.hits p opt.eidxKey opt.uidRange).map (xapianDocid s.nshard))
  unfold Es.mset
  dsimp only
  cases col : opt.sortCol.getD 0 with
  | ofNat n => exact ordered _ ((sorts n opt.asc _).trans items)
  | negSucc n =>
    dsimp only
    by_cases asc : opt.asc = true
    · rw [if_pos asc]
      exact ordered _ items
    · rw [if_neg asc]
      exact ordered _ ((List.reverse_perm _).trans items)

theorem strictlyUp {l rows : List Nat} (sorted : l.Pairwise (· ≤ ·)) (perm : l.Perm rows) (nodup : rows.Nodup) :
    l.Pairwise (· < ·) :=
  (sorted.and (perm.nodup_iff.mpr nodup)).imp fun both => lt_of_le_of_ne both.1 both.2

/- What IMAP gets: the articles of the range that are attached to a document of the match, in
ascending order, each as often as it is attached. Without a range: an article number for each
document of the mset, in its order, or, where docids ascend, all of them in ascending order. -/
theorem searchesInbox (whole : Consistent s) (p : C → Bool) {bySort : Nat → Bool → List Nat → List Nat}
    {order : List (Xref3 B) → List (Xref3 B)} (sorts : ∀ col asc l,(bySort col asc l).Perm l)
    (orders : ∀ rows,(order rows).Perm rows) {key : String} {i : Nat} (known : s.ibxId key = some i) :
    (∀ beg fin,∃ found,s.artnums p bySort order key (imapOpt beg fin) = some found ∧ found.Pairwise (· ≤ ·) ∧
      found.Perm ((s.attached p i beg fin).map Xref3.xnum) ∧
      (((s.attached p i beg fin).map Xref3.xnum).Nodup → found.Pairwise (· < ·))) ∧
    ∀ opt : Opt,opt.uidRange = none → ∃ found,s.artnums p bySort order key opt = some found ∧
      let docids := (s.mset p bySort { opt with eidxKey := some key }).map (mdocid s.nshard)
      (opt.asc = true ∧ opt.sortCol.getD 0 < 0 → found.Pairwise (· ≤ ·) ∧
        found.Perm ((s.xref3.select (fun r => r.ibxId = i ∧ r.docid ∈ docids)).map Xref3.xnum)) ∧
      (¬ (opt.asc = true ∧ opt.sortCol.getD 0 < 0) → s.Lists i docids found) := by
  constructor
  · intro beg fin
    obtain ⟨found,made,sorted,perm⟩ := imapArtnums whole p bySort order known beg fin
    exact ⟨found,made,sorted,perm,strictlyUp sorted perm⟩
  · intro opt unranged
    have prep : s.eidxMsetPrep key i opt = { opt with eidxKey := some key } := by simp only [Es.eidxMsetPrep,unranged]
    refine ⟨_,by rw [Es.artnums,known,Option.map_some,prep],?_,?_⟩
    · intro ascending
      unfold Es.msetToArtnums
      dsimp only
      rw [if_pos ascending,unranged]
      refine ⟨List.pairwise_insertionSort _ _,(List.perm_insertionSort _ _).trans (List.Perm.map _ (selectPerm ?_))⟩
      intro r has
      simp
    · intro other
      obtain ⟨ds,nodup,inside,items⟩ := msetDocids whole p bySort sorts { opt with eidxKey := some key }
      have docids : (s.mset p bySort { opt with eidxKey := some key }).map (mdocid s.nshard) = ds := by
        rw [items,hitsBack whole inside]
      refine msetOrder order orders other (docids.symm ▸ nodup) ?_
      rw [docids]
      intro d mem
      obtain ⟨doc,found,taken⟩ := Table.memKeysWhere.mp (inside d mem)
      simp only [Option.all_some,Bool.and_eq_true,decide_eq_true_eq] at taken
      exact whole.rowed d doc found key taken.1.2 i known

def attachedTwice : Es Nat Bool where
  docs := ⟨[(1,⟨["a"],true⟩),(2,⟨["a"],true⟩)],by decide⟩
  nshard := 3
  xref3 := ⟨[(⟨1,1,7,0⟩,()),(⟨2,1,3,0⟩,()),(⟨2,1,7,0⟩,())],by decide⟩
  ibxId := fun key => if key = "a" then some 1 else none

theorem attachedConsistent : Consistent attachedTwice := by
  have known : ∀ {key i},attachedTwice.ibxId key = some i → key = "a" ∧ i = 1 := by
    intro key i found
    have found : (if key = "a" then some 1 else none) = some i := found
    split at found
    · rename_i same
      exact ⟨same,(Option.some.inj found).symm⟩
    · contradiction
  refine ⟨by decide,by decide,?_,?_⟩
  · intro r has key found
    obtain ⟨rfl,-⟩ := known found
    have mem : r ∈ [⟨1,1,7,0⟩,⟨2,1,3,0⟩,⟨2,1,7,0⟩] := Rel.hasKeys.mpr has
    rcases List.mem_cons.mp mem with rfl | mem
    · exact ⟨⟨["a"],true⟩,rfl,List.mem_cons_self⟩
    rcases List.mem_cons.mp mem with rfl | mem
    · exact ⟨⟨["a"],true⟩,rfl,List.mem_cons_self⟩
    obtain rfl := List.mem_singleton.mp mem
    exact ⟨⟨["a"],true⟩,rfl,List.mem_cons_self⟩
  · intro d doc there key term i found
    obtain ⟨rfl,rfl⟩ := known found
    have mem : d ∈ [1,2] := Table.memKeys.mpr ⟨doc,there⟩
    rcases List.mem_cons.mp mem with rfl | mem
    · exact ⟨⟨1,1,7,0⟩,by decide,rfl,rfl⟩
    obtain rfl := List.mem_singleton.mp mem
    exact ⟨⟨2,1,3,0⟩,by decide,rfl,rfl⟩

theorem attachedSearched : ∃ found,attachedTwice.artnums id (fun _ _ l => l) id "a" (imapOpt 1 5) = some found ∧
    found.Pairwise (· < ·) := by
  obtain ⟨found,made,-,-,strict⟩ := (searchesInbox attachedConsistent id (fun (_ : Nat) (_ : Bool) l => .refl l)
    (fun rows => List.Perm.refl (id rows)) (show attachedTwice.ibxId "a" = some 1 from rfl)).1 1 5
  exact ⟨found,made,strict (by decide)⟩

/- Article 7 is listed twice, and with ascending docids the list is not in the order of the mset. -/
theorem listedTwice :
    (¬ ∀ (s : Es Nat Bool) (p : Bool → Bool) (key : String) (i beg fin : Nat) (found : List Nat),Consistent s →
      s.ibxId key = some i → s.artnums p (fun _ _ l => l) id key (imapOpt beg fin) = some found →
        found.Pairwise (· < ·) ∧ ∀ n,n ∈ found ↔ n ∈ (s.attached p i beg fin).map Xref3.xnum) ∧
    ¬ ∀ (s : Es Nat Bool) (p : Bool → Bool) (key : String) (i : Nat) (opt : Opt) (found : List Nat),Consistent s →
      s.ibxId key = some i → opt.uidRange = none → s.artnums p (fun _ _ l => l) id key opt = some found →
        s.Lists i ((s.mset p (fun _ _ l => l) { opt with eidxKey := some key }).map (mdocid s.nshard)) found := by
  constructor
  · intro ordered
    have strict := (ordered attachedTwice id "a" 1 1 9 [3,7,7] attachedConsistent rfl (by decide +kernel)).1
    exact absurd strict (by decide)
  · intro ordered
    have listed := ordered attachedTwice id "a" 1 ⟨some (-1),true,0,none,none⟩ [3,7,7] attachedConsistent rfl rfl (by decide +kernel)
    exact absurd (List.Forall₂.length_eq listed) (by decide +kernel)

end PublicInbox.Isearch
