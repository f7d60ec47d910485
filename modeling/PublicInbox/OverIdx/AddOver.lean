import PublicInbox.OverIdx.Weave

/-! add_over from its first row to the INSERT: the rows of every own Message-ID, then the
references, then the message's own row. -/
namespace PublicInbox
namespace OverIdx
open Keyed Colouring Paging
variable {δ : Type} {mails : List Mail} {x : Mail}

def Sane (mails : List Mail) (st : OverIdx δ × Adding) : Prop :=
  Links st.1 mails ∧ ∀ l ∈ st.2.oldTid, st.1.minTid < l ∧ l ≤ st.1.thread

/- The scene in which all Message-IDs are related and no message is settled: what is left of
`Weaving` is the shape of the tables. -/
def bare (floor : Nat) (x : Mail) (mails : List Mail) (other : ∀ y ∈ mails, y.num ≠ x.num) :
    Scene where
  floor := floor
  conn := fun _ _ => True
  all := [x]
  done := []
  mails := mails
  x := x
  bonds := ⟨⟨fun _ => trivial,fun _ => trivial,fun _ _ => trivial⟩,fun _ _ _ _ _ _ => trivial⟩
  own := fun _ _ => trivial
  refs := fun _ _ => trivial
  inAll := List.mem_singleton.mpr rfl
  stored := by simp
  other := other

theorem onlyOne (x : Mail) (m : Mid) : Only [x] x m := by
  intro z mem other
  exact absurd (congrArg Mail.num (List.mem_singleton.mp mem)) other

theorem bareWeaving (other : ∀ y ∈ mails, y.num ≠ x.num) {s : OverIdx δ} {label : Option Nat}
    (links : Links s mails) (live : ∀ l ∈ label, s.minTid < l ∧ l ≤ s.thread) :
    Weaving (bare s.minTid x mails other) (fun _ _ => False) (fun _ => False) False s label where
  links := links
  live := live
  sound := fun _ _ _ _ _ _ _ _ _ _ => trivial
  near := fun _ _ _ _ _ _ => trivial
  done := by simp [bare]
  own := fun _ _ _ h => h.elim
  ref := fun _ h => h.elim
  kept := fun _ h => h.elim
  vivid := fun _ _ h => h.elim
  ghost := by simp [bare]
  lone := fun r _ _ _ _ _ _ _ _ _ => onlyOne x r
  stale := fun _ _ _ _ _ _ _ _ _ _ _ _ _ _ => trivial
  floor := rfl

theorem metBare (other : ∀ y ∈ mails, y.num ≠ x.num) {m : Mid} (own : m ∈ x.mids) {k : Int}
    {st : OverIdx δ × Adding} (sane : Sane mails st) (linked : st.1.Linked k m) :
    ∃ st', eachRow (addOverRow x.references) k st = (st',true) ∧
      Met (bare st.1.minTid x mails other) (fun _ _ => False) (fun _ => False) m k st st' := by
  have w := bareWeaving other sane.1 sane.2
  by_cases positive : 0 < k
  · exact w.metReal own linked positive False.elim
  · exact w.metGhost own linked (sane.1.nonzero linked positive) False.elim

theorem addFramed (other : ∀ y ∈ mails, y.num ≠ x.num) {m : Mid} (own : m ∈ x.mids) :
    Framed (fun st : OverIdx δ × Adding => st.1.numsOf m) (eachRow (addOverRow x.references))
      (Sane mails) := by
  intro k st sane mem
  have linked := memNumsOf.mp mem
  obtain ⟨st',run,met⟩ := metBare other own sane linked
  rw [run]
  have links := met.weaving.links
  refine ⟨rfl,⟨links,met.weaving.live⟩,?_⟩
  intro j above
  rw [memNumsOf,memNumsOf]
  by_cases positive : 0 < j
  · exact (links.linkedReal positive).trans (sane.1.linkedReal positive).symm
  · constructor
    · intro now
      rcases met.grown.2 j m now with before | new
      · exact before
      · have := sane.1.used linked
        omega
    · intro before
      have low := sane.1.nonzero before positive
      have same := sane.1.single k j m (by omega) low linked before
      omega

theorem addAgain {m : Mid} {refs : List Mid} (k : Int) (st : OverIdx δ × Adding)
    (sane : Sane mails st) (mem : k ∈ st.1.numsOf m) (positive : 0 < k) :
    eachRow (addOverRow refs) k (eachRow (addOverRow refs) k st).1 =
      ((eachRow (addOverRow refs) k st).1,true) := by
  obtain ⟨s,⟨old,vivified⟩⟩ := st
  obtain ⟨t,row⟩ := sane.1.linkedRow (memNumsOf.mp mem)
  rw [Weaving.rowReal row positive]
  by_cases valid : s.minTid < t
  · simp only [valid,if_true]
    have here : (s.mergeThreads (old.getD t) t).tidOf k = some (old.getD t) := by simp [row]
    rw [Weaving.rowReal here positive]
    simp [mergeThreads]
  · cases old with
    | none =>
      simp only [valid,if_false]
      have same : s.nextTid.1.tidOf k = some t := row
      refine (Weaving.rowReal same positive).trans ?_
      exact congrArg (·,true) (if_neg valid)
    | some o =>
      simp only [valid,if_false]
      rw [Weaving.rowReal row positive]
      exact congrArg (·,true) (if_neg valid)

theorem addVisit (other : ∀ y ∈ mails, y.num ≠ x.num) {m : Mid} (own : m ∈ x.mids)
    {st : OverIdx δ × Adding} (sane : Sane mails st) :
    eachByMid m (addOverRow x.references) st =
      (visit (eachRow (addOverRow x.references)) (st.1.numsOf m) st).1 :=
  eachByMidVisit (fun _ sane => sane.1) sane (addFramed other own) addAgain

/- Between two rows: what `Weaving` says, with every reference tied once a ghost was vivified. -/
structure Begun (e : Scene) (seen : Mid → Int → Prop) (idle : Prop) (st : OverIdx δ × Adding) :
    Prop where
  weaving : Weaving e seen (fun r => 0 < st.2.vivified ∧ r ∈ e.x.references) idle st.1 st.2.oldTid
  some : 0 < st.2.vivified → st.2.oldTid.isSome

theorem Begun.sane {e : Scene} {seen : Mid → Int → Prop} {idle : Prop} {st : OverIdx δ × Adding}
    (begun : Begun e seen idle st) : Sane e.mails st := ⟨begun.weaving.links,begun.weaving.live⟩

theorem Weaving.on {e : Scene} {seen seen' : Mid → Int → Prop} {tied : Mid → Prop}
    {idle idle' : Prop} {s : OverIdx δ} {label : Option Nat}
    (w : Weaving e seen tied idle s label)
    (sees : ∀ q i, s.Linked i q → seen' q i → seen q i)
    (wake : idle → idle' ∨ ∀ n < 0, ¬ s.Linked n e.x.mid) :
    Weaving e seen' tied idle' s label :=
  { w with
    own := fun m i t sees' linked => w.own m i t (sees m i linked sees') linked
    vivid := fun n low sees' linked => w.vivid n low (sees _ n linked sees') linked
    ghost := by
      intro y mem n low t linked row same
      rcases w.ghost y mem n low t linked row same with asleep | rest
      · exact (wake asleep).imp id (fun none => absurd linked (none n low))
      · exact Or.inr rest }

theorem rowBegun {e : Scene} {seen : Mid → Int → Prop} {idle : Prop} {st : OverIdx δ × Adding}
    (begun : Begun e seen idle st) {m : Mid} (own : m ∈ e.x.mids) {k : Int}
    (linked : st.1.Linked k m) (wake : idle → st.2.oldTid = none ∧ m = e.x.mid)
    (none : idle → 0 < k → ∀ n < 0, ¬ st.1.Linked n e.x.mid) :
    Begun e (fun q i => seen q i ∨ (q = m ∧ i = k)) False
      (eachRow (addOverRow e.x.references) k st).1 := by
  obtain ⟨s,a⟩ := st
  obtain ⟨st',run,met⟩ : ∃ st', eachRow (addOverRow e.x.references) k (s,a) = (st',true) ∧
      Met e seen (fun r => 0 < a.vivified ∧ r ∈ e.x.references) m k (s,a) st' := by
    by_cases positive : 0 < k
    · exact begun.weaving.metReal own linked positive (fun asleep => none asleep positive)
    · exact begun.weaving.metGhost own linked (begun.weaving.links.nonzero linked positive) wake
  rw [run]
  refine ⟨met.weaving.onTied ?_,fun _ => met.some⟩
  intro q
  have count : a.vivified ≤ st'.2.vivified := met.count
  constructor
  · rintro (⟨some,ref⟩ | ⟨more,ref⟩)
    · exact ⟨Nat.lt_of_lt_of_le some count,ref⟩
    · exact ⟨Nat.zero_lt_of_lt more,ref⟩
  · rintro ⟨some,ref⟩
    by_cases before : 0 < a.vivified
    · exact Or.inl ⟨before,ref⟩
    · exact Or.inr ⟨Nat.lt_of_le_of_lt (Nat.le_of_not_lt before) some,ref⟩

/- All rows of one own Message-ID. `Rest ks` is the state when the rows of `ks` are still to come. -/
def Rest (e : Scene) (seen : Mid → Int → Prop) (m : Mid) (ks : List Int)
    (st : OverIdx δ × Adding) : Prop :=
  ∃ idle, (idle → st.2.oldTid = none ∧ m = e.x.mid ∧ ∀ n < 0, st.1.Linked n e.x.mid → n ∈ ks) ∧
    Begun e (fun q i => seen q i ∨ (q = m ∧ i ∉ ks)) idle st

theorem restStep {e : Scene} {seen : Mid → Int → Prop} {m : Mid} (own : m ∈ e.x.mids) {k : Int}
    {ks : List Int} {st : OverIdx δ × Adding} (mem : k ∈ st.1.numsOf m)
    (order : (k :: ks).Pairwise (· < ·)) (rest : Rest e seen m (k :: ks) st) :
    Rest e seen m ks (eachRow (addOverRow e.x.references) k st).1 := by
  obtain ⟨idle,awake,begun⟩ := rest
  have none : idle → 0 < k → ∀ n < 0, ¬ st.1.Linked n e.x.mid := by
    intro asleep positive n low linked
    rcases List.mem_cons.mp ((awake asleep).2.2 n low linked) with same | later
    · omega
    · have := (List.pairwise_cons.mp order).1 n later
      omega
  have next := rowBegun begun own (memNumsOf.mp mem)
    (fun asleep => ⟨(awake asleep).1,(awake asleep).2.1⟩) none
  refine ⟨False,False.elim,next.weaving.on ?_ False.elim,next.some⟩
  rintro q i _ (before | ⟨rfl,later⟩)
  · exact Or.inl (Or.inl before)
  · by_cases here : i = k
    · exact Or.inr ⟨rfl,here⟩
    · exact Or.inl (Or.inr ⟨rfl,fun inside => (List.mem_cons.mp inside).elim here later⟩)

theorem midBegun {e : Scene} {seen : Mid → Int → Prop} {idle : Prop} {st : OverIdx δ × Adding}
    (begun : Begun e seen idle st) {m : Mid} (own : m ∈ e.x.mids)
    (wake : idle → st.2.oldTid = none ∧ m = e.x.mid) :
    Begun e (fun q i => seen q i ∨ q = m) False (eachByMid m (addOverRow e.x.references) st) := by
  have start : Rest e seen m (st.1.numsOf m) st := by
    refine ⟨idle,?_,begun.weaving.on ?_ Or.inl,begun.some⟩
    · intro asleep
      obtain ⟨none,chosen⟩ := wake asleep
      exact ⟨none,chosen,fun n _ linked => memNumsOf.mpr (chosen ▸ linked)⟩
    · rintro q i linked (before | ⟨rfl,later⟩)
      · exact before
      · exact absurd (memNumsOf.mpr linked) later
  obtain ⟨⟨idle',awake,whole⟩,_⟩ := visitInduct (addFramed e.other own)
    (fun k ks st _ mem order rest => restStep own mem order rest) begun.sane
    (numsOfSorted st.1 m) (fun _ mem => mem) start
  rw [addVisit e.other own begun.sane]
  refine ⟨whole.weaving.on ?_ ?_,whole.some⟩
  · intro q i _ sees
    exact sees.imp id (fun same => ⟨same,List.not_mem_nil⟩)
  · intro asleep
    refine Or.inr (fun n low linked => ?_)
    exact absurd ((awake asleep).2.2 n low linked) List.not_mem_nil

def Idle (x : Mail) (todo : List Mid) (st : OverIdx δ × Adding) : Prop :=
  st.2.oldTid = none ∧ ∀ m ∈ todo.takeWhile (fun q => q ≠ x.mid), ∀ i, ¬ st.1.Linked i m

theorem midsBegun {e : Scene} {todo : List Mid} (sub : ∀ m ∈ todo, m ∈ e.x.mids)
    {seen : Mid → Int → Prop} {st : OverIdx δ × Adding}
    (begun : Begun e seen (Idle e.x todo st) st) (chosen : e.x.mid ∈ todo ∨ ∀ i, seen e.x.mid i) :
    Begun e (fun q i => seen q i ∨ q ∈ todo) False
      (todo.foldl (fun st mid => eachByMid mid (addOverRow e.x.references) st) st) := by
  induction todo generalizing seen st with
  | nil =>
    refine ⟨begun.weaving.on ?_ ?_,begun.some⟩
    · exact fun q i _ sees => sees.resolve_right List.not_mem_nil
    · intro _
      refine Or.inr (fun n low => begun.weaving.vivid n low ?_)
      exact (chosen.resolve_left List.not_mem_nil) n
  | cons m rest ih =>
    have own := sub m List.mem_cons_self
    have sub' : ∀ q ∈ rest, q ∈ e.x.mids := fun q mem => sub q (List.mem_cons_of_mem _ mem)
    have chosen' : e.x.mid ∈ rest ∨ ∀ i, seen e.x.mid i ∨ e.x.mid = m := by
      rcases chosen with inside | sees
      · rcases List.mem_cons.mp inside with same | later
        · exact Or.inr (fun _ => Or.inr same)
        · exact Or.inl later
      · exact Or.inr (fun i => Or.inl (sees i))
    have next : Begun e (fun q i => seen q i ∨ q = m)
        (Idle e.x rest (eachByMid m (addOverRow e.x.references) st))
        (eachByMid m (addOverRow e.x.references) st) := by
      by_cases quiet : st.1.numsOf m = []
      · have lone : ∀ i, ¬ st.1.Linked i m := by
          intro i linked
          have mem := memNumsOf.mpr linked
          rw [quiet] at mem
          contradiction
        have idle : eachByMid m (addOverRow e.x.references) st = st := by
          rw [addVisit e.other own begun.sane,quiet]
          rfl
        rw [idle]
        refine ⟨begun.weaving.on ?_ ?_,begun.some⟩
        · rintro q i linked (before | rfl)
          · exact before
          · exact absurd linked (lone i)
        · rintro ⟨none,before⟩
          by_cases same : m = e.x.mid
          · exact Or.inr (fun n _ => same ▸ lone n)
          · refine Or.inl ⟨none,fun q mem => before q ?_⟩
            rw [List.takeWhile_cons_of_pos (by simpa using same)]
            exact List.mem_cons_of_mem _ mem
      · obtain ⟨i,mem⟩ := List.exists_mem_of_ne_nil _ quiet
        have whole := midBegun begun own (by
          rintro ⟨none,before⟩
          refine ⟨none,?_⟩
          by_cases same : m = e.x.mid
          · exact same
          · refine absurd (memNumsOf.mp mem) (before m ?_ i)
            rw [List.takeWhile_cons_of_pos (by simpa using same)]
            exact List.mem_cons_self)
        exact ⟨whole.weaving.on (fun _ _ _ sees => sees) False.elim,whole.some⟩
    have whole := ih sub' next chosen'
    refine ⟨whole.weaving.on ?_ False.elim,whole.some⟩
    intro q i _ sees
    rw [List.mem_cons] at sees
    exact or_assoc.mpr sees

def starting (s : OverIdx δ) (x : Mail) : OverIdx δ × Adding :=
  (s.deleteByNum x.num,⟨(s.tidOf x.num).filter (fun tid => s.minTid < tid),0⟩)

theorem addOverStore {e : Scene} {s : OverIdx δ} (cols : δ)
    (begun : Begun e (fun _ _ => False)
      (Idle e.x e.x.mids (s.starting e.x)) (s.starting e.x)) :
    ∃ s' tid, s.addOver e.x cols = s'.store e.x ⟨tid,some cols⟩ ∧
      Weaving e (fun q _ => q ∈ e.x.mids) (fun r => r ∈ e.x.references) False s' (some tid) := by
  have whole := midsBegun (fun m mem => mem) begun (Or.inl e.x.own)
  unfold starting at whole
  unfold addOver
  simp only
  generalize e.x.mids.foldl (fun st mid => eachByMid mid (addOverRow e.x.references) st)
    (s.deleteByNum e.x.num,⟨(s.tidOf e.x.num).filter (fun tid => s.minTid < tid),0⟩) = st at whole ⊢
  obtain ⟨s',⟨old,vivified⟩⟩ := st
  have weaving : Weaving e (fun q _ => q ∈ e.x.mids)
      (fun r => 0 < vivified ∧ r ∈ e.x.references) False s' old :=
    whole.weaving.on (fun _ _ _ sees => Or.inr sees) Or.inl
  by_cases none : vivified = 0
  · obtain ⟨linked,_⟩ := weaving.linkRefs (fun r mem => mem)
    refine ⟨(s'.linkRefs e.x.references old).1,(s'.linkRefs e.x.references old).2,?_,linked.onTied ?_⟩
    · simp only [none,if_true]
      rfl
    · intro r
      simp
  · obtain ⟨tid,rfl⟩ := Option.isSome_iff_exists.mp (whole.some (Nat.pos_of_ne_zero none))
    refine ⟨s',tid,?_,weaving.onTied ?_⟩
    · simp only [none,if_false]
      rfl
    · intro r
      simp [Nat.pos_of_ne_zero none]

/- Every message of `done` is in a valid thread, with all that its Message-IDs and references
are linked to. -/
def Settled (all done : List Mail) (s : OverIdx δ) : Prop :=
  ∀ y ∈ done, ∃ c, s.minTid < c ∧ s.tidOf y.num = some c ∧ Tied all done s y c (fun _ => False)

theorem startBegun {e : Scene} {s : OverIdx δ} (left : e.mails = mails.filter (fun y => y.num ≠ e.x.num))
    (floor : s.minTid = e.floor) (links : Links s mails) (sound : Sound e.conn s)
    (settled : Settled e.all e.done s) (same : ∀ z ∈ mails, z.num = e.x.num → z = e.x)
    (ghost : ∀ n < 0, s.Linked n e.x.mid →
      (s.tidOf e.x.num = none ∧ ∀ m ∈ e.x.mids.takeWhile (fun q => q ≠ e.x.mid), ∀ i, ¬ s.Linked i m) ∨
      ∃ r ∈ e.x.references, ∃ j, j ≠ e.x.num ∧ s.Linked j r ∧ s.tidOf j = s.tidOf n)
    (lone : ∀ r ∈ e.x.references, r ∉ e.x.mids → ∀ n < 0, ∀ t, s.Linked n r → s.tidOf n = some t →
      t ≤ s.minTid → (∀ i, s.Linked i r → i = n) → Only e.all e.x r)
    (stale : ∀ r ∈ e.x.references, ∀ k n t, k < n → k ≠ e.x.num → n ≠ e.x.num → s.Linked k r →
      s.Linked n r → s.tidOf n = some t → t ≤ s.minTid →
      ∀ i m, i ≠ e.x.num → s.tidOf i = some t → s.Linked i m → e.conn m e.x.mid) :
    Begun e (fun _ _ => False)
      (Idle e.x e.x.mids (s.starting e.x)) (s.starting e.x) := by
  unfold starting
  have row : ∀ {i t}, (s.deleteByNum e.x.num).tidOf i = some t → i ≠ e.x.num ∧ s.tidOf i = some t := by
    intro i t found
    rw [tidDelete] at found
    split at found
    · contradiction
    · exact ⟨‹_›,found⟩
  have label : ∀ l, (s.tidOf e.x.num).filter (fun tid => s.minTid < tid) = some l ↔
      s.tidOf e.x.num = some l ∧ s.minTid < l := by
    intro l
    rw [Option.filter_eq_some_iff,decide_eq_true_eq]
  -- where the message is stored already, it is linked to its own ids
  have stored : ∀ i m, i = e.x.num → s.Linked i m → m ∈ e.x.mids ∧ s.Linked e.x.num e.x.mid := by
    intro i m here linked
    subst here
    obtain ⟨z,mem,num,own⟩ := (links.linkedReal e.x.positive).mp linked
    rw [same z mem num] at own
    exact ⟨own,(links.linkedReal e.x.positive).mpr ⟨e.x,same z mem num ▸ mem,rfl,e.x.own⟩⟩
  refine ⟨⟨?_,?_,?_,?_,?_,fun _ _ _ h => h.elim,fun _ h => absurd h.1 (Nat.lt_irrefl 0),
    fun _ h => absurd h.1 (Nat.lt_irrefl 0),fun _ _ h => h.elim,?_,?_,?_,floor⟩,
    fun h => absurd h (Nat.lt_irrefl 0)⟩
  · exact left ▸ links.deleteReal e.x.positive
  · intro l mem
    obtain ⟨here,live⟩ := (label l).mp mem
    exact ⟨live,(links.tids _ l here).2⟩
  · intro t live i m found linked j k found' linked'
    exact sound t live i m (row found).2 (linkedDelete.mp linked).2 j k (row found').2
      (linkedDelete.mp linked').2
  · intro l mem j k found linked
    obtain ⟨here,live⟩ := (label l).mp mem
    obtain ⟨m,before⟩ := links.rowLinked here
    exact sound l live _ _ here (stored _ m rfl before).2 j k (row found).2 (linkedDelete.mp linked).2
  · intro y mem
    obtain ⟨c,live,here,tied⟩ := settled y mem
    have other := e.other y (e.stored y mem)
    refine ⟨c,live,by rw [tidDelete,if_neg other,here],?_,?_,?_⟩
    · intro m own i linked which
      obtain ⟨apart,before⟩ := linkedDelete.mp linked
      rw [tidDelete,if_neg apart]
      exact tied.own m own i before which
    · intro r ref i linked
      obtain ⟨apart,before⟩ := linkedDelete.mp linked
      rw [tidDelete,if_neg apart]
      exact tied.ref r ref i before
    · intro r ref
      rcases tied.kept r ref with ⟨i,linked⟩ | only | none
      · by_cases apart : i = e.x.num
        · exact Or.inr (Or.inr ⟨(stored i r apart linked).1,(label c).mpr
            ⟨apart ▸ tied.ref r ref i linked,live⟩⟩)
        · exact Or.inl ⟨i,linkedDelete.mpr ⟨apart,linked⟩⟩
      · exact Or.inr (Or.inl only)
      · exact none.elim
  · intro y mem n low t linked found there
    obtain ⟨apart,found⟩ := row found
    rcases ghost n low (linkedDelete.mp linked).2 with ⟨absent,quiet⟩ | ⟨r,ref,j,apartJ,linkedJ,together⟩
    · refine Or.inl ⟨by rw [absent]; rfl,?_⟩
      intro m before i linked'
      exact quiet m before i (linkedDelete.mp linked').2
    · refine Or.inr (Or.inr ⟨r,ref,j,linkedDelete.mpr ⟨apartJ,linkedJ⟩,?_⟩)
      rw [tidDelete,if_neg apartJ,together,found]
  · intro r ref outside n low t linked found dying only
    refine lone r ref outside n low t (linkedDelete.mp linked).2 (row found).2 dying ?_
    intro i linked'
    refine only i (linkedDelete.mpr ⟨fun apart => ?_,linked'⟩)
    exact outside (stored i r apart linked').1
  · intro r ref k n t below linkedK linkedN found dying i m found' linked'
    obtain ⟨apartK,beforeK⟩ := linkedDelete.mp linkedK
    obtain ⟨apartN,beforeN⟩ := linkedDelete.mp linkedN
    exact stale r ref k n t below apartK apartN beforeK beforeN (row found).2 dying i m
      (row found').1 (row found').2 (linkedDelete.mp linked').2

theorem settle {e : Scene} {s : OverIdx δ} {tid : Nat} (cols : δ)
    (w : Weaving e (fun q _ => q ∈ e.x.mids) (fun r => r ∈ e.x.references) False s (some tid)) :
    Links (s.store e.x ⟨tid,some cols⟩) (e.x :: e.mails) ∧
      Sound e.conn (s.store e.x ⟨tid,some cols⟩) ∧
      Settled e.all (e.x :: e.done) (s.store e.x ⟨tid,some cols⟩) ∧
      (s.store e.x ⟨tid,some cols⟩).minTid = e.floor := by
  obtain ⟨live,bound⟩ := w.live tid rfl
  have absent := w.links.absent e.other
  obtain ⟨_,_,minTid⟩ := storeRest s e.x ⟨tid,some cols⟩
  have here : (s.store e.x ⟨tid,some cols⟩).tidOf e.x.num = some tid := by simp [storeTid]
  have there : ∀ {i}, i ≠ e.x.num → (s.store e.x ⟨tid,some cols⟩).tidOf i = s.tidOf i := by
    intro i apart
    rw [storeTid,if_neg apart]
  have apart : ∀ {i m}, s.Linked i m → i ≠ e.x.num := by
    rintro i m ⟨ms,found,_⟩ rfl
    rw [absent] at found
    contradiction
  have linkedOld : ∀ {i m}, s.Linked i m → (s.store e.x ⟨tid,some cols⟩).Linked i m :=
    fun linked => (storeLinked absent).mpr (Or.inr ⟨apart linked,linked⟩)
  have linkedNew : ∀ {m}, m ∈ e.x.mids → (s.store e.x ⟨tid,some cols⟩).Linked e.x.num m :=
    fun own => (storeLinked absent).mpr (Or.inl ⟨rfl,own⟩)
  have near : Near e.conn (s.store e.x ⟨tid,some cols⟩) e.x.mid tid := by
    intro i m row linked
    rcases (storeLinked absent).mp linked with ⟨rfl,own⟩ | ⟨other,before⟩
    · exact e.own m own
    · exact w.near tid rfl i m (there other ▸ row) before
  refine ⟨?_,?_,?_,minTid.trans w.floor⟩
  · exact w.links.store e.other (fun n low => w.vivid n low e.x.own) (Nat.zero_lt_of_lt live) bound
  · intro t valid i m row linked j k row' linked'
    by_cases same : t = tid
    · subst same
      exact e.bonds.equiv.trans (near j k row' linked') (e.bonds.equiv.symm (near i m row linked))
    · have other : ∀ {i}, (s.store e.x ⟨tid,some cols⟩).tidOf i = some t → i ≠ e.x.num := by
        rintro i found rfl
        exact same (Option.some.inj (found.symm.trans here))
      have old : ∀ {i m}, i ≠ e.x.num → (s.store e.x ⟨tid,some cols⟩).Linked i m → s.Linked i m :=
        fun other linked => (((storeLinked absent).mp linked).resolve_left (fun h => other h.1)).2
      exact w.sound t (minTid ▸ valid) i m (there (other row) ▸ row) (old (other row) linked) j k
        (there (other row') ▸ row') (old (other row') linked')
  · intro y mem
    rcases List.mem_cons.mp mem with rfl | settled
    · refine ⟨tid,minTid ▸ live,here,?_,?_,?_⟩
      · intro m own i linked which
        rcases (storeLinked absent).mp linked with ⟨rfl,_⟩ | ⟨other,before⟩
        · exact here
        · obtain ⟨t,row⟩ := w.links.linkedRow before
          rw [there other,row]
          refine (w.own m i t own before row ?_).symm
          rcases which with low | ⟨z,inside,num⟩
          · exact Or.inl low
          · rcases List.mem_cons.mp inside with rfl | old
            · exact absurd num.symm other
            · obtain ⟨c,valid,found,_⟩ := w.done z old
              rw [num,row] at found
              cases found
              exact Or.inr valid
      · intro r ref i linked
        rcases (storeLinked absent).mp linked with ⟨rfl,_⟩ | ⟨other,before⟩
        · exact here
        · obtain ⟨t,row⟩ := w.links.linkedRow before
          rw [there other,row]
          exact (w.ref r ref i t before row).symm
      · intro r ref
        rcases w.kept r ref with ⟨i,linked⟩ | only | own
        · exact Or.inl ⟨i,linkedOld linked⟩
        · exact Or.inr (Or.inl only)
        · exact Or.inl ⟨_,linkedNew own⟩
    · obtain ⟨c,valid,found,tied⟩ := w.done y settled
      have stored := e.stored y settled
      have joined : ∀ {i m}, s.Linked i m → m ∈ e.x.mids → s.tidOf i = some c → some tid = some c :=
        fun linked own row => w.own _ _ c own linked row (Or.inr valid)
      refine ⟨c,minTid ▸ valid,(there (e.other y stored)).trans found,?_,?_,?_⟩
      · intro m own i linked which
        rcases (storeLinked absent).mp linked with ⟨rfl,ownX⟩ | ⟨other,before⟩
        · exact here.trans (joined ((w.links.linkedReal y.positive).mpr ⟨y,stored,rfl,own⟩) ownX found)
        · rw [there other]
          refine tied.own m own i before (which.imp id ?_)
          rintro ⟨z,inside,num⟩
          rcases List.mem_cons.mp inside with rfl | old
          · exact absurd num.symm other
          · exact ⟨z,old,num⟩
      · intro r ref i linked
        rcases (storeLinked absent).mp linked with ⟨rfl,ownX⟩ | ⟨other,before⟩
        · rcases tied.kept r ref with ⟨j,linkedJ⟩ | only | ⟨_,same⟩
          · exact here.trans (joined linkedJ ownX (tied.ref r ref j linkedJ))
          · exact absurd (Or.inl ownX) (only e.x e.inAll (fun h => e.other y stored h.symm))
          · exact here.trans same
        · rw [there other]
          exact tied.ref r ref i before
      · intro r ref
        rcases tied.kept r ref with ⟨i,linked⟩ | only | ⟨own,_⟩
        · exact Or.inl ⟨i,linkedOld linked⟩
        · exact Or.inr (Or.inl only)
        · exact Or.inl ⟨_,linkedNew own⟩

end OverIdx
end PublicInbox
