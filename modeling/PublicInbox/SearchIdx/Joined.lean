import PublicInbox.SearchIdx.Splits

/-! A shard with temporary databases is, joined, what a single database would be, as long as only temporary databases that
are there are looked into. -/
namespace PublicInbox.SearchIdx.Splits
open Keyed
variable {D : Type} {s : Shard D}

def docs (s : Shard D) (k : Nat) : Option D := if s.beyond k then Bands.look s.off s.tmps k else s.xdb.get? k

structure Inv (s : Shard D) : Prop where
  opened : ∀ off ∈ s.xdbTmp,(s.tmps.get? off).isSome
  low : ∀ k ∈ s.xdb.keys,s.beyond k = false
  placed : ∀ off u,s.tmps.get? off = some u → ∀ k ∈ u.keys,s.beyond k = true ∧ s.off k = off
  dirty : ∀ off,(s.tmps.get? off).isSome → s.splitsDirty = true ∨ s.xdbTmp ≠ []

structure Alike (s s' : Shard D) : Prop where
  docMax : s'.docMax = s.docMax
  splitAt : s'.splitAt = s.splitAt
  there : ∀ off,(s'.tmps.get? off).isSome = (s.tmps.get? off).isSome

theorem Alike.beyond {s s' : Shard D} (alike : Alike s s') : s'.beyond = s.beyond := by
  funext k
  rw [Shard.beyond,Shard.beyond,alike.docMax]

theorem Alike.off {s s' : Shard D} (alike : Alike s s') : s'.off = s.off := by
  funext k
  rw [Shard.off,Shard.off,alike.splitAt]

theorem Alike.trans {s t u : Shard D} (first : Alike s t) (second : Alike t u) : Alike s u :=
  ⟨second.docMax.trans first.docMax,second.splitAt.trans first.splitAt,fun off => (second.there off).trans (first.there off)⟩

def without (m : Nat → Option D) (docids : List Nat) (k : Nat) : Option D := if k ∈ docids then none else m k

def absent : (Nat → Option D) → List Nat → List Nat
  | _,[] => []
  | m,docid :: docids => (if (m docid).isSome then [] else [docid]) ++ absent (without m [docid]) docids

theorem absentCongr {m m' : Nat → Option D} {docids : List Nat} (same : ∀ k ∈ docids,m k = m' k) :
    absent m docids = absent m' docids := by
  induction docids generalizing m m' with
  | nil => rfl
  | cons docid docids ih =>
    rw [absent,absent,same docid List.mem_cons_self]
    refine congrArg (_ ++ ·) (ih fun k mem => ?_)
    rw [without,without,same k (List.mem_cons_of_mem _ mem)]

theorem withoutCons (m : Nat → Option D) (docid : Nat) (docids : List Nat) :
    without (without m [docid]) docids = without m (docid :: docids) := by
  funext k
  simp only [without,List.mem_cons]
  by_cases same : k = docid <;> simp [same]

theorem absentSplit (p : Nat → Bool) (m : Nat → Option D) (docids : List Nat) :
    (absent m (docids.filter p) ++ absent m (docids.filter (!p ·))).Perm (absent m docids) := by
  induction docids generalizing m with
  | nil => exact .refl _
  | cons docid docids ih =>
    have other : ∀ q : Nat → Bool,q docid = false → absent (without m [docid]) (docids.filter q) = absent m (docids.filter q) := by
      intro q not
      refine absentCongr fun k mem => ?_
      rw [without,if_neg]
      intro same
      have yes := (List.mem_filter.mp mem).2
      rw [List.mem_singleton.mp same,not] at yes
      exact Bool.false_ne_true yes
    rw [absent]
    cases kind : p docid with
    | true =>
      rw [List.filter_cons_of_pos kind,List.filter_cons_of_neg (by simp [kind]),absent,List.append_assoc]
      refine (List.Perm.append_left _ ?_)
      rw [← other (!p ·) (by simp [kind])]
      exact ih _
    | false =>
      rw [List.filter_cons_of_neg (by simp [kind]),List.filter_cons_of_pos (by simp [kind]),absent,← List.append_assoc]
      refine (List.perm_append_comm.append_right _).trans ?_
      rw [List.append_assoc]
      refine (List.Perm.append_left _ ?_)
      rw [← other p kind]
      exact ih _

theorem deleteIs (t : Table Nat D) (docid : Nat) : (deleteDocument t docid).1.get? = without t.get? [docid] ∧
    (deleteDocument t docid).2 = if (t.get? docid).isSome then [] else [docid] := by
  rw [deleteDocument]
  split
  next => exact ⟨funext fun k => by rw [Table.getErase,without]; simp only [List.mem_singleton],rfl⟩
  next gone =>
    refine ⟨funext fun k => ?_,rfl⟩
    rw [without]
    split
    next same => rw [List.mem_singleton.mp same,Option.not_isSome_iff_eq_none.mp gone]
    · rfl

theorem removeXdbIs (t : Table Nat D) (docids : List Nat) :
    (removeXdb t docids).1.get? = without t.get? docids ∧ (removeXdb t docids).2 = absent t.get? docids := by
  induction docids generalizing t with
  | nil => exact ⟨funext fun k => (if_neg List.not_mem_nil).symm,rfl⟩
  | cons docid docids ih =>
    rw [removeXdb,absent,(ih _).1,(ih _).2,(deleteIs t docid).1,(deleteIs t docid).2,withoutCons]
    exact ⟨rfl,rfl⟩

section
variable (inv : Inv s)
include inv

theorem openInv {off : Nat} (there : (s.tmps.get? off).isSome) : Inv { s with xdbTmp := off :: s.xdbTmp } where
  opened := List.forall_mem_cons.mpr ⟨there,inv.opened⟩
  low := inv.low
  placed := inv.placed
  dirty := fun _ _ => .inr (List.cons_ne_nil _ _)

theorem getOk {off : Nat} (there : (s.tmps.get? off).isSome) :
    ∃ t,xdbTmpGet s off = .ok t ∧ Inv t ∧ Alike s t ∧ t.tmps = s.tmps ∧ docs t = docs s := by
  rw [xdbTmpGet]
  split
  · exact ⟨s,rfl,inv,⟨rfl,rfl,fun _ => rfl⟩,rfl,rfl⟩
  · exact ⟨_,rfl,openInv inv there,⟨rfl,rfl,fun _ => rfl⟩,rfl,rfl⟩

theorem getError {off : Nat} (gone : (s.tmps.get? off).isSome = false) : xdbTmpGet s off = .error (.failedOpening off) := by
  rw [xdbTmpGet,if_neg,if_neg]
  · rw [gone]
    exact Bool.false_ne_true
  · intro opened
    have there := inv.opened off (List.contains_iff_mem.mp opened)
    rw [gone] at there
    exact Bool.false_ne_true there

theorem updateInv {off : Nat} {f : Table Nat D → Table Nat D}
    (within : ∀ u,s.tmps.get? off = some u → ∀ k ∈ (f u).keys,s.beyond k = true ∧ s.off k = off) :
    Inv { s with tmps := s.tmps.update off f } ∧ Alike s { s with tmps := s.tmps.update off f } := by
  have there : ∀ off',((s.tmps.update off f).get? off').isSome = (s.tmps.get? off').isSome := by
    intro off'
    rw [Table.getUpdate]
    split
    · rw [Option.isSome_map]
    · rfl
  refine ⟨⟨fun off' mem => (there off').trans (inv.opened off' mem),inv.low,?_,fun off' some => inv.dirty off' ?_⟩,rfl,rfl,there⟩
  · intro off' u found k mem
    rw [Table.getUpdate] at found
    split at found
    next same =>
      obtain ⟨v,before,rfl⟩ := Option.map_eq_some_iff.mp found
      subst same
      exact within v before k mem
    · exact inv.placed off' u found k mem
  · rw [← there off']
    exact some

omit inv in
theorem updateDocs {off docid : Nat} {f : Table Nat D → Table Nat D} {value : Option D} (is : s.off docid = off)
    (beyond : s.beyond docid = true) (there : (s.tmps.get? off).isSome)
    (one : ∀ u,s.tmps.get? off = some u → ∀ k,(f u).get? k = if k = docid then value else u.get? k) (k : Nat) :
    docs { s with tmps := s.tmps.update off f } k = if k = docid then value else docs s k := by
  change (if s.beyond k then ((s.tmps.update off f).get? (s.off k)).bind (·.get? k) else s.xdb.get? k) = _
  obtain ⟨u,found⟩ := Option.isSome_iff_exists.mp there
  rw [Table.getUpdate]
  by_cases same : k = docid
  · subst same
    rw [if_pos beyond,if_pos is,if_pos rfl,is,found,Option.map_some,Option.bind_some,one u found,if_pos rfl]
  · rw [if_neg same,docs,Bands.look]
    split
    · split
      next here => rw [here,found,Option.map_some,Option.bind_some,Option.bind_some,one u found,if_neg same]
      · rfl
    · rfl

theorem placedKeys {off docid : Nat} {u : Table Nat D} (found : s.tmps.get? off = some u) {k : Nat} {value : Option D}
    (is : s.beyond docid = true ∧ s.off docid = off) (now : (if k = docid then value else u.get? k).isSome) :
    s.beyond k = true ∧ s.off k = off := by
  split at now
  next same => exact same ▸ is
  · exact inv.placed off u found k (Table.memKeys.mpr (Option.isSome_iff_exists.mp now))

theorem deleteTmp {docid : Nat} {u : Table Nat D} (beyond : s.beyond docid = true)
    (found : s.tmps.get? (s.off docid) = some u) :
    Inv { s with tmps := s.tmps.update (s.off docid) fun _ => (deleteDocument u docid).1 } ∧
      Alike s { s with tmps := s.tmps.update (s.off docid) fun _ => (deleteDocument u docid).1 } ∧
        docs { s with tmps := s.tmps.update (s.off docid) fun _ => (deleteDocument u docid).1 } = without (docs s) [docid] := by
  have gone : ∀ v,s.tmps.get? (s.off docid) = some v → ∀ k,
      (deleteDocument u docid).1.get? k = if k = docid then none else v.get? k := by
    intro v before k
    cases found.symm.trans before
    rw [(deleteIs u docid).1,without]
    simp only [List.mem_singleton]
  obtain ⟨inv',alike⟩ := @updateInv D s inv (s.off docid) (fun _ => (deleteDocument u docid).1) fun v before k mem => by
    obtain ⟨d,there⟩ := Table.memKeys.mp mem
    refine @placedKeys D s inv _ docid v before k none ⟨beyond,rfl⟩ ?_
    rw [← gone v before k,there]
    rfl
  refine ⟨inv',alike,funext fun k => ?_⟩
  have there : (s.tmps.get? (s.off docid)).isSome := by rw [found]; rfl
  rw [@updateDocs D s _ docid (fun _ => (deleteDocument u docid).1) none rfl beyond there gone k,without]
  simp only [List.mem_singleton]

theorem removeTmpIs {docids : List Nat} (ready : ∀ k ∈ docids,s.beyond k = true ∧ (s.tmps.get? (s.off k)).isSome) :
    ∃ s',removeTmp s docids = (s',.ok (absent (docs s) docids)) ∧ Inv s' ∧ Alike s s' ∧ docs s' = without (docs s) docids := by
  induction docids generalizing s with
  | nil => exact ⟨s,rfl,inv,⟨rfl,rfl,fun _ => rfl⟩,funext fun k => (if_neg List.not_mem_nil).symm⟩
  | cons docid docids ih =>
    obtain ⟨⟨beyond,there⟩,ready⟩ := List.forall_mem_cons.mp ready
    obtain ⟨t,opened,inv,first,tmps,same⟩ := getOk inv there
    obtain ⟨u,found⟩ := Option.isSome_iff_exists.mp there
    rw [← first.beyond] at beyond
    rw [← first.off,← tmps] at found
    have now : docs t docid = u.get? docid := by rw [docs,if_pos beyond,Bands.look,found,Option.bind_some]
    obtain ⟨inv',second,after⟩ := deleteTmp inv beyond found
    have alike := first.trans second
    obtain ⟨s',runs,last,third,left⟩ := ih inv' (by
      intro k mem
      rw [alike.beyond,alike.off,alike.there]
      exact ready k mem)
    refine ⟨s',?_,last,alike.trans third,?_⟩
    · simp only [removeTmp,opened,found,Option.getD_some]
      rw [runs,after,absent,← same,now,(deleteIs u docid).2]
      rfl
    · rw [left,after,withoutCons,same]

theorem newInv (off : Nat) : Inv (xdbTmpNew s off) ∧ (∀ off',((xdbTmpNew s off).tmps.get? off').isSome =
    ((s.tmps.get? off').isSome || off' == off)) ∧ docs (xdbTmpNew s off) = docs s := by
  have found : ∀ off',(xdbTmpNew s off).tmps.get? off' =
      if (s.tmps.get? off).isSome then s.tmps.get? off' else if off' = off then some .empty else s.tmps.get? off' := by
    intro off'
    rw [xdbTmpNew]
    dsimp only
    split
    · rfl
    · rw [Table.getInsert]
  have there : ∀ off',((xdbTmpNew s off).tmps.get? off').isSome = ((s.tmps.get? off').isSome || off' == off) := by
    intro off'
    rw [found]
    by_cases same : off' = off
    · subst same
      split
      next some => rw [some,Bool.true_or]
      · simp
    · simp [same]
  refine ⟨⟨?_,inv.low,?_,fun _ _ => .inr (List.cons_ne_nil _ _)⟩,there,?_⟩
  · refine List.forall_mem_cons.mpr ⟨?_,fun off' mem => ?_⟩
    · rw [there,beq_self_eq_true,Bool.or_true]
    · rw [there,inv.opened off' mem,Bool.true_or]
  · intro off' u is k mem
    rw [found] at is
    split at is
    · exact inv.placed off' u is k mem
    · split at is
      · cases is
        exact nomatch mem
      · exact inv.placed off' u is k mem
  · funext k
    change (if s.beyond k then ((xdbTmpNew s off).tmps.get? (s.off k)).bind (·.get? k) else s.xdb.get? k) = _
    rw [docs,Bands.look,found]
    split
    · split
      · rfl
      next none =>
        split
        next same => rw [same,Option.not_isSome_iff_eq_none.mp none]; rfl
        · rfl
    · rfl

theorem replaceIs (docid : Nat) (doc : D) : Inv (replaceDoc s docid doc) ∧
    docs (replaceDoc s docid doc) = (fun k => if k = docid then some doc else docs s k) ∧
      (replaceDoc s docid doc).docMax = s.docMax ∧ (replaceDoc s docid doc).splitAt = s.splitAt ∧
        ∀ off,((replaceDoc s docid doc).tmps.get? off).isSome =
          ((s.tmps.get? off).isSome || (s.beyond docid && off == s.off docid)) := by
  rw [replaceDoc]
  split
  next beyond =>
    have stored : ∀ t : Shard D,Inv t → (t.tmps.get? (t.off docid)).isSome → t.beyond docid = true →
        Inv { t with tmps := t.tmps.update (t.off docid) fun docs => docs.insert docid doc } ∧
          docs { t with tmps := t.tmps.update (t.off docid) fun docs => docs.insert docid doc } =
            (fun k => if k = docid then some doc else docs t k) ∧
              Alike t { t with tmps := t.tmps.update (t.off docid) fun docs => docs.insert docid doc } := by
      intro t inv there beyond
      have put : ∀ (u : Table Nat D) (k : Nat),(u.insert docid doc).get? k = if k = docid then some doc else u.get? k :=
        fun u k => Table.getInsert u docid doc k
      obtain ⟨inv',alike⟩ := @updateInv D t inv (t.off docid) (·.insert docid doc) fun u before k mem => by
        refine @placedKeys D t inv _ docid u before k (some doc) ⟨beyond,rfl⟩ ?_
        obtain ⟨d,is⟩ := Table.memKeys.mp mem
        rw [← put u k,is]
        rfl
      exact ⟨inv',funext fun k => updateDocs rfl beyond there (fun u _ k => put u k) k,alike⟩
    dsimp only
    split
    next opened =>
      have there := inv.opened _ (List.contains_iff_mem.mp opened)
      obtain ⟨inv',is,alike⟩ := stored s inv there beyond
      refine ⟨inv',is,rfl,rfl,fun off => ?_⟩
      rw [alike.there,beyond,Bool.true_and]
      by_cases same : off = s.off docid
      · rw [same,there,Bool.true_or]
      · simp [same]
    · obtain ⟨inv',there,kept⟩ := newInv inv (s.off docid)
      obtain ⟨inv'',is,alike⟩ := stored (xdbTmpNew s (s.off docid)) inv' (by
        rw [there]
        exact Bool.or_eq_true_iff.mpr (.inr (beq_iff_eq.mpr rfl))) beyond
      refine ⟨inv'',is.trans (by rw [kept]),rfl,rfl,fun off => ?_⟩
      rw [beyond,Bool.true_and,← there]
      exact alike.there off
  next inside =>
    have inside := Bool.eq_false_iff.mpr inside
    refine ⟨⟨inv.opened,?_,inv.placed,inv.dirty⟩,?_,rfl,rfl,fun off => ?_⟩
    · intro k mem
      obtain ⟨d,is⟩ := Table.memKeys.mp mem
      rw [Table.getInsert] at is
      split at is
      next same => exact same ▸ inside
      · exact inv.low k (Table.memKeys.mpr ⟨d,is⟩)
    · funext k
      change (if s.beyond k then Bands.look s.off s.tmps k else (s.xdb.insert docid doc).get? k) = _
      rw [docs,Table.getInsert]
      by_cases same : k = docid
      · subst same
        rw [inside,if_neg Bool.false_ne_true,if_pos rfl,if_pos rfl]
      · rw [if_neg same,if_neg same]
    · rw [inside,Bool.false_and,Bool.or_false]

theorem removeTmpDies {docids : List Nat} (beyond : ∀ k ∈ docids,s.beyond k = true) {docid : Nat} (mem : docid ∈ docids)
    (gone : (s.tmps.get? (s.off docid)).isSome = false) : ∃ s' err,removeTmp s docids = (s',.error err) := by
  induction docids generalizing s with
  | nil => exact nomatch mem
  | cons head docids ih =>
    cases there : (s.tmps.get? (s.off head)).isSome with
    | false => exact ⟨s,.failedOpening (s.off head),by simp only [removeTmp,getError inv there]⟩
    | true =>
      obtain ⟨t,opened,inv,first,tmps,-⟩ := getOk inv there
      obtain ⟨u,found⟩ := Option.isSome_iff_exists.mp there
      rw [← first.off,← tmps] at found
      obtain ⟨inv',second,-⟩ := deleteTmp inv (by rw [first.beyond]; exact beyond head List.mem_cons_self) found
      have alike := first.trans second
      have later : docid ∈ docids := by
        rcases List.mem_cons.mp mem with rfl | later
        · rw [there] at gone
          exact nomatch gone
        · exact later
      obtain ⟨s',err,dies⟩ := ih inv' (fun k inside => by
        rw [alike.beyond]
        exact beyond k (List.mem_cons_of_mem _ inside)) later (by rw [alike.off,alike.there]; exact gone)
      refine ⟨s',err,?_⟩
      simp only [removeTmp,opened,found,Option.getD_some]
      rw [dies]
      rfl

end

def apply (m : Nat → Option D) : Op D → (Nat → Option D) × Out D
  | .replace docid doc => (fun k => if k = docid then some doc else m k,.done)
  | .lookup docid => (m,.doc (m docid))
  | .remove docids => (without m docids,.removed (absent m docids))
  | .commit => (m,.done)

inductive Agrees : Except Died (Out D) → Except Died (Out D) → Prop where
  | done : Agrees (.ok .done) (.ok .done)
  | doc (found : Option D) : Agrees (.ok (.doc found)) (.ok (.doc found))
  | removed {warn warn' : List Nat} (same : warn.Perm warn') : Agrees (.ok (.removed warn)) (.ok (.removed warn'))

theorem Agrees.trans {r q o : Except Died (Out D)} (first : Agrees r q) (second : Agrees o q) : Agrees r o := by
  cases first with
  | done => cases second; exact .done
  | doc found => cases second; exact .doc found
  | removed same => cases second with | removed same' => exact .removed (same.trans same'.symm)

def Op.sought : Op D → List Nat
  | .lookup docid => [docid]
  | .remove docids => docids
  | _ => []

def Op.stored : Op D → List Nat
  | .replace docid _ => [docid]
  | _ => []

def Ready (s : Shard D) (op : Op D) : Prop :=
  ∀ docid ∈ op.sought,s.beyond docid = true → (s.tmps.get? (s.off docid)).isSome

structure Steps (s s' : Shard D) (op : Op D) : Prop where
  inv : Inv s'
  docs : docs s' = (apply (docs s) op).1
  docMax : s'.docMax = s.docMax
  splitAt : s'.splitAt = s.splitAt
  there : ∀ off,(s'.tmps.get? off).isSome =
    ((s.tmps.get? off).isSome || op.stored.any fun docid => s.beyond docid && off == s.off docid)

theorem Alike.steps {s' : Shard D} {op : Op D} (alike : Alike s s') (inv : Inv s') (is : docs s' = (apply (docs s) op).1)
    (nothing : op.stored = []) : Steps s s' op :=
  ⟨inv,is,alike.docMax,alike.splitAt,fun off => by rw [nothing,List.any_nil,Bool.or_false]; exact alike.there off⟩

theorem removeSteps (inv : Inv s) {docids : List Nat} (ready : Ready s (.remove docids)) :
    Steps s (xdbRemove s docids).1 (.remove docids) ∧
      ∃ warn,(xdbRemove s docids).2 = .ok warn ∧ warn.Perm (absent (docs s) docids) := by
  obtain ⟨t,runs,inv',alike,left⟩ := @removeTmpIs D s inv (docids.filter fun docid => s.beyond docid) fun k mem => by
    obtain ⟨inside,beyond⟩ := List.mem_filter.mp mem
    exact ⟨beyond,ready k inside beyond⟩
  obtain ⟨xdb,warns⟩ := removeXdbIs t.xdb (docids.filter fun docid => !t.beyond docid)
  rw [xdbRemove,runs]
  dsimp only
  have low : ∀ k,s.beyond k = false → t.xdb.get? k = docs s k := by
    intro k low
    have same := congrFun left k
    rw [docs,alike.beyond,low,if_neg Bool.false_ne_true,without,if_neg] at same
    · exact same
    · intro mem
      have beyond := (List.mem_filter.mp mem).2
      rw [low] at beyond
      exact Bool.false_ne_true beyond
  refine ⟨Alike.steps ⟨alike.docMax,alike.splitAt,alike.there⟩ ⟨inv'.opened,?_,inv'.placed,inv'.dirty⟩ ?_ rfl,_,rfl,?_⟩
  · intro k mem
    obtain ⟨d,is⟩ := Table.memKeys.mp mem
    rw [xdb,without] at is
    split at is
    · exact nomatch is
    · exact inv'.low k (Table.memKeys.mpr ⟨d,is⟩)
  · funext k
    change (if t.beyond k then Bands.look t.off t.tmps k else (removeXdb t.xdb _).1.get? k) = without (docs s) docids k
    rw [xdb,without,without]
    cases kind : t.beyond k with
    | true =>
      have same := congrFun left k
      rw [docs,kind,if_pos rfl,without] at same
      rw [if_pos rfl,same]
      rw [alike.beyond] at kind
      simp [kind]
    | false =>
      rw [if_neg Bool.false_ne_true]
      rw [alike.beyond] at kind
      rw [low k kind]
      simp [kind,alike.beyond]
  · rw [warns,alike.beyond]
    refine List.Perm.trans ?_ (absentSplit (fun docid => s.beyond docid) (docs s) docids)
    refine List.Perm.append_left _ (.of_eq (absentCongr fun k mem => low k ?_))
    simpa using (List.mem_filter.mp mem).2

theorem stepOk (inv : Inv s) (op : Op D) (ready : Ready s op) :
    Agrees (step s op).2 (.ok (apply (docs s) op).2) ∧ Steps s (step s op).1 op := by
  cases op with
  | replace docid doc =>
    obtain ⟨inv',is,docMax,splitAt,there⟩ := replaceIs inv docid doc
    refine ⟨.done,inv',is,docMax,splitAt,fun off => (there off).trans ?_⟩
    simp only [Op.stored,List.any_cons,List.any_nil,Bool.or_false]
  | lookup docid =>
    rw [step,getDoc]
    split
    next beyond =>
      obtain ⟨t,opened,inv',alike,tmps,same⟩ := getOk inv (ready docid List.mem_cons_self beyond)
      rw [opened]
      refine ⟨?_,alike.steps inv' same rfl⟩
      have is : docs s docid = (t.tmps.get? (t.off docid)).bind (·.get? docid) := by
        rw [← same,docs,alike.beyond,if_pos beyond,Bands.look]
      rw [apply,is]
      exact .doc _
    next inside =>
      refine ⟨?_,Alike.steps ⟨rfl,rfl,fun _ => rfl⟩ inv rfl rfl⟩
      rw [apply,docs,if_neg inside]
      exact .doc _
  | remove docids =>
    obtain ⟨steps,warn,is,perm⟩ := removeSteps inv ready
    refine ⟨?_,steps⟩
    rw [step,is]
    exact .removed perm
  | commit =>
    refine ⟨.done,Alike.steps ⟨rfl,rfl,fun _ => rfl⟩ ⟨fun _ mem => (nomatch mem),inv.low,inv.placed,fun off some => .inl ?_⟩
      rfl rfl⟩
    rcases inv.dirty off some with dirty | opened
    · exact Bool.or_eq_true_iff.mpr (.inl dirty)
    · refine Bool.or_eq_true_iff.mpr (.inr ?_)
      cases xdbTmp : s.xdbTmp with
      | nil => exact absurd xdbTmp opened
      | cons => rfl

theorem stepDies (inv : Inv s) (op : Op D) (unready : ¬ Ready s op) : ∃ err,(step s op).2 = .error err := by
  simp only [Ready,not_forall] at unready
  obtain ⟨docid,mem,beyond,gone⟩ := unready
  have gone := Bool.eq_false_iff.mpr gone
  cases op with
  | replace | commit => exact nomatch mem
  | lookup =>
    obtain rfl := List.mem_singleton.mp mem
    exact ⟨_,by rw [step,getDoc,if_pos beyond,getError inv gone]; rfl⟩
  | remove docids =>
    obtain ⟨s',err,dies⟩ := @removeTmpDies D s inv (docids.filter fun docid => s.beyond docid)
      (fun k mem => (List.mem_filter.mp mem).2) docid (List.mem_filter.mpr ⟨mem,beyond⟩) gone
    exact ⟨err,by rw [step,xdbRemove,dies]; rfl⟩

end PublicInbox.SearchIdx.Splits
