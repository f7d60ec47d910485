import PublicInbox.OverIdx.Resolve

/-! One message on its way into the store: what its threads look like at every statement of
add_over, and that each statement keeps it so. The thread collected so far is the label. -/
namespace PublicInbox

def Mail.Mentions (x : Mail) (m : Mid) : Prop := m ∈ x.mids ∨ m ∈ x.references

namespace OverIdx
open Keyed Colouring Paging
variable {δ : Type}

/- `x` is being added; `mails` are stored beside it, `done` are those of them whose threads are
settled, `all` the messages of the graph that `conn` comes from. -/
structure Scene where
  floor : Nat
  conn : Mid → Mid → Prop
  all : List Mail
  done : List Mail
  mails : List Mail
  x : Mail
  bonds : Bonds conn mails
  own : ∀ m ∈ x.mids, conn m x.mid
  refs : ∀ r ∈ x.references, conn r x.mid
  inAll : x ∈ all
  stored : ∀ y ∈ done, y ∈ mails
  other : ∀ y ∈ mails, y.num ≠ x.num

def Only (all : List Mail) (y : Mail) (m : Mid) : Prop := ∀ z ∈ all, z.num ≠ y.num → ¬ z.Mentions m

/- What holds of a settled message `y` whose thread is `c`; a reference may be `loose` while
its row is being replaced. -/
structure Tied (all done : List Mail) (s : OverIdx δ) (y : Mail) (c : Nat) (loose : Mid → Prop) :
    Prop where
  own : ∀ m ∈ y.mids, ∀ i, s.Linked i m → (i < 0 ∨ ∃ z ∈ done, z.num = i) → s.tidOf i = some c
  ref : ∀ r ∈ y.references, ∀ i, s.Linked i r → s.tidOf i = some c
  kept : ∀ r ∈ y.references, (∃ i, s.Linked i r) ∨ Only all y r ∨ loose r

structure Weaving (e : Scene) (seen : Mid → Int → Prop) (tied : Mid → Prop) (idle : Prop)
    (s : OverIdx δ) (label : Option Nat) : Prop where
  links : Links s e.mails
  live : ∀ l ∈ label, s.minTid < l ∧ l ≤ s.thread
  sound : Sound e.conn s
  near : ∀ l ∈ label, Near e.conn s e.x.mid l
  done : ∀ y ∈ e.done, ∃ c, s.minTid < c ∧ s.tidOf y.num = some c ∧
    Tied e.all e.done s y c (fun r => r ∈ e.x.mids ∧ label = some c)
  own : ∀ m i t, seen m i → s.Linked i m → s.tidOf i = some t → (i < 0 ∨ s.minTid < t) →
    label = some t
  ref : ∀ r, tied r → ∀ i t, s.Linked i r → s.tidOf i = some t → label = some t
  kept : ∀ r, tied r → (∃ i, s.Linked i r) ∨ Only e.all e.x r ∨ r ∈ e.x.mids
  vivid : ∀ n < 0, seen e.x.mid n → ¬ s.Linked n e.x.mid
  ghost : ∀ y ∈ e.done, ∀ n < 0, ∀ t, s.Linked n e.x.mid → s.tidOf n = some t →
    s.tidOf y.num = some t →
    idle ∨ label = some t ∨ ∃ r ∈ e.x.references, ∃ j, s.Linked j r ∧ s.tidOf j = some t
  lone : ∀ r ∈ e.x.references, r ∉ e.x.mids → ∀ n < 0, ∀ t, s.Linked n r → s.tidOf n = some t →
    t ≤ s.minTid → (∀ i, s.Linked i r → i = n) → Only e.all e.x r
  stale : ∀ r ∈ e.x.references, ∀ k n t, k < n → s.Linked k r → s.Linked n r →
    s.tidOf n = some t → t ≤ s.minTid → Near e.conn s e.x.mid t
  floor : s.minTid = e.floor

structure Step (e : Scene) (s : OverIdx δ) (label : Option Nat) (s' : OverIdx δ)
    (label' : Option Nat) : Prop where
  links : Links s' e.mails
  minTid : s'.minTid = s.minTid
  bound : ∀ l ∈ label', l ≤ s'.thread
  absorbs : Absorbs s.minTid (view s) label (view s') label'
  near : ∀ l ∈ label', Near e.conn s' e.x.mid l
  fresh : ∀ i m, s'.Linked i m → s.Linked i m ∨
    (m ∈ e.x.references ∧ i < -s.ghosts ∧ s'.tidOf i = label' ∧ ∀ j, ¬ s.Linked j m)
  lost : ∀ i m, s.Linked i m → s'.Linked i m ∨ (i < 0 ∧ ∃ t ≤ s.minTid, s.tidOf i = some t) ∨
    (i < 0 ∧ m ∈ e.x.mids ∧
      ∀ y ∈ e.done, s.tidOf y.num = s.tidOf i → s'.tidOf y.num = label')

namespace Step
variable {e : Scene} {s s' : OverIdx δ} {label label' : Option Nat}

theorem moved (step : Step e s label s' label') {i : Int} {t : Nat} (row : s'.tidOf i = some t) :
    label' = some t ∨ s.tidOf i = some t := step.absorbs.moved i t row

theorem follows (step : Step e s label s' label') {i : Int} {m : Mid} {l t : Nat}
    (before : s.tidOf i = some l) (here : label = some l) (linked : s'.Linked i m)
    (after : s'.tidOf i = some t) : label' = some t := by
  rcases step.absorbs.track l here i before with gone | same
  · obtain ⟨u,row⟩ := step.links.linkedRow linked
    exact absurd (gone.symm.trans row) (by simp)
  · exact same.symm.trans after

theorem staleBefore (step : Step e s label s' label') {i : Int} {t : Nat}
    (row : s'.tidOf i = some t) (stale : t ≤ s.minTid) : s.tidOf i = some t := by
  rcases step.moved row with same | old
  · have := step.absorbs.live t same
    omega
  · exact old

theorem staleLinked (step : Step e s label s' label') {i : Int} {m : Mid} {t : Nat}
    (linked : s'.Linked i m) (row : s'.tidOf i = some t) (stale : t ≤ s.minTid) : s.Linked i m := by
  rcases step.fresh i m linked with old | ⟨_,_,label,_⟩
  · exact old
  · have := step.absorbs.live t (label.symm.trans row)
    omega

theorem nearOther (step : Step e s label s' label') {c : Mid} {t : Nat} (other : label' ≠ some t)
    (near : Near e.conn s c t) : Near e.conn s' c t := by
  intro i m row linked
  rcases step.fresh i m linked with old | ⟨_,_,here,_⟩
  · exact near i m ((step.moved row).resolve_left other) old
  · exact absurd (here.symm.trans row) other

theorem sound (step : Step e s label s' label') (sound : Sound e.conn s) : Sound e.conn s' := by
  intro t live i m row linked
  by_cases same : label' = some t
  · intro j k row' linked'
    exact e.bonds.equiv.trans (step.near t same j k row' linked')
      (e.bonds.equiv.symm (step.near t same i m row linked))
  · rcases step.fresh i m linked with old | ⟨_,_,here,_⟩
    · exact step.nearOther same (sound t (step.minTid ▸ live) i m
        ((step.moved row).resolve_left same) old)
    · exact absurd (here.symm.trans row) same

theorem storedRow (step : Step e s label s' label') {y : Mail} (mem : y ∈ e.done) :
    ∃ c, s'.tidOf y.num = some c :=
  step.links.linkedRow ((step.links.linkedReal y.positive).mpr ⟨y,e.stored y mem,rfl,y.own⟩)

theorem together (step : Step e s label s' label') {y : Mail} {i : Int} {c c' : Nat} {m : Mid}
    (live : s.minTid < c) (here : s.tidOf y.num = some c) (there : s.tidOf i = some c)
    (here' : s'.tidOf y.num = some c') (linked : s'.Linked i m) : s'.tidOf i = some c' := by
  obtain ⟨t,row⟩ := step.links.linkedRow linked
  rw [row,step.absorbs.same live there here row here']

theorem tied (step : Step e s label s' label') (links : Links s e.mails) {y : Mail} {c c' : Nat}
    (mem : y ∈ e.done) (live : s.minTid < c) (here : s.tidOf y.num = some c)
    (here' : s'.tidOf y.num = some c')
    (tied : Tied e.all e.done s y c (fun r => r ∈ e.x.mids ∧ label = some c)) :
    Tied e.all e.done s' y c' (fun r => r ∈ e.x.mids ∧ label' = some c') := by
  have stored := e.stored y mem
  have linkedY : ∀ m ∈ y.mids, s.Linked y.num m := fun m mem =>
    (links.linkedReal y.positive).mpr ⟨y,stored,rfl,mem⟩
  have linkedY' : s'.Linked y.num y.mid :=
    (step.links.linkedReal y.positive).mpr ⟨y,stored,rfl,y.own⟩
  have loosened : label = some c → label' = some c' := fun same =>
    step.follows here same linkedY' here'
  refine ⟨?_,?_,?_⟩
  · intro m own i linked which
    rcases step.fresh i m linked with old | ⟨_,_,_,none⟩
    · exact step.together live here (tied.own m own i old which) here' linked
    · exact absurd (linkedY m own) (none y.num)
  · intro r ref i linked
    rcases step.fresh i r linked with old | ⟨mention,_,new,none⟩
    · exact step.together live here (tied.ref r ref i old) here' linked
    · rcases tied.kept r ref with ⟨j,exists_⟩ | only | ⟨_,same⟩
      · exact absurd exists_ (none j)
      · exact absurd (Or.inr mention) (only e.x e.inAll (fun h => e.other y stored h.symm))
      · exact new.trans (loosened same)
  · intro r ref
    rcases tied.kept r ref with ⟨i,linked⟩ | only | ⟨inside,same⟩
    · have row := tied.ref r ref i linked
      rcases step.lost i r linked with still | ⟨_,t,stale,old⟩ | ⟨_,inside,joined⟩
      · exact Or.inl ⟨i,still⟩
      · rw [row] at old
        cases old
        omega
      · exact Or.inr (Or.inr ⟨inside,(joined y mem (here.trans row.symm)).symm.trans here'⟩)
    · exact Or.inr (Or.inl only)
    · exact Or.inr (Or.inr ⟨inside,loosened same⟩)

end Step

namespace Weaving
variable {e : Scene} {s s' : OverIdx δ} {label label' : Option Nat} {seen : Mid → Int → Prop}
  {tied : Mid → Prop} {idle idle' : Prop}

theorem notOwnRef (e : Scene) : e.x.mid ∉ e.x.references := fun mem =>
  (memParseReferences.mp mem).1 rfl

theorem ghostStep (w : Weaving e seen tied idle s label) (step : Step e s label s' label')
    (wake : idle → idle' ∨ ∀ y ∈ e.done, ∀ n < 0, ∀ t, s.Linked n e.x.mid → s.tidOf n = some t →
      s.tidOf y.num = some t → s'.tidOf n = label')
    {y : Mail} (mem : y ∈ e.done) {n : Int} (low : n < 0) {t : Nat} (linked : s'.Linked n e.x.mid)
    (row : s'.tidOf n = some t) (same : s'.tidOf y.num = some t) :
    idle' ∨ label' = some t ∨
      ∃ r ∈ e.x.references, ∃ j, s'.Linked j r ∧ s'.tidOf j = some t := by
  have old : s.Linked n e.x.mid :=
    (step.fresh n _ linked).resolve_right (fun h => notOwnRef e h.1)
  by_cases there : label' = some t
  · exact Or.inr (Or.inl there)
  · have row₀ := (step.moved row).resolve_left there
    have same₀ := (step.moved same).resolve_left there
    obtain ⟨c,live,here,_⟩ := w.done y mem
    rw [same₀] at here
    cases here
    rcases w.ghost y mem n low t old row₀ same₀ with asleep | labelled | ⟨r,ref,j,linkedJ,rowJ⟩
    · rcases wake asleep with still | woken
      · exact Or.inl still
      · exact absurd ((woken y mem n low t old row₀ same₀).symm.trans row) there
    · exact absurd (step.follows row₀ labelled linked row) there
    · rcases step.lost j r linkedJ with still | ⟨_,u,stale,rowJ'⟩ | ⟨_,_,joined⟩
      · exact Or.inr (Or.inr ⟨r,ref,j,still,step.together live same₀ rowJ same still⟩)
      · rw [rowJ] at rowJ'
        cases rowJ'
        omega
      · exact absurd ((joined y mem (same₀.trans rowJ.symm)).symm.trans same) there

theorem step (w : Weaving e seen tied idle s label) (step : Step e s label s' label')
    (wake : idle → idle' ∨ ∀ y ∈ e.done, ∀ n < 0, ∀ t, s.Linked n e.x.mid → s.tidOf n = some t →
      s.tidOf y.num = some t → s'.tidOf n = label') :
    Weaving e seen tied idle' s' label' where
  links := step.links
  live := fun l mem => ⟨step.minTid ▸ step.absorbs.live l mem,step.bound l mem⟩
  sound := step.sound w.sound
  near := step.near
  done := by
    intro y mem
    obtain ⟨c,live,here,tied⟩ := w.done y mem
    obtain ⟨c',here'⟩ := step.storedRow mem
    exact ⟨c',step.minTid ▸ step.absorbs.staysLive live here here',here',
      step.tied w.links mem live here here' tied⟩
  own := by
    intro m i t sees linked row which
    rcases step.fresh i m linked with old | ⟨_,_,new,_⟩
    · by_cases there : label' = some t
      · exact there
      · have row₀ := (step.moved row).resolve_left there
        exact step.follows row₀ (w.own m i t sees old row₀ (step.minTid ▸ which)) linked row
    · exact new.symm.trans row
  ref := by
    intro r ties i t linked row
    rcases step.fresh i r linked with old | ⟨_,_,new,_⟩
    · obtain ⟨u,row₀⟩ := w.links.linkedRow old
      exact step.follows row₀ (w.ref r ties i u old row₀) linked row
    · exact new.symm.trans row
  kept := by
    intro r ties
    rcases w.kept r ties with ⟨i,linked⟩ | rest
    · rcases step.lost i r linked with still | ⟨_,t,stale,row⟩ | ⟨_,inside,_⟩
      · exact Or.inl ⟨i,still⟩
      · have := (w.live t (w.ref r ties i t linked row)).1
        omega
      · exact Or.inr (Or.inr inside)
    · exact Or.inr rest
  vivid := by
    intro n low sees linked
    rcases step.fresh n _ linked with old | ⟨mention,_⟩
    · exact w.vivid n low sees old
    · exact notOwnRef e mention
  ghost := fun y mem n low t linked row same => w.ghostStep step wake mem low linked row same
  lone := by
    intro r ref outside n low t linked row stale only
    rw [step.minTid] at stale
    have linked₀ := step.staleLinked linked row stale
    refine w.lone r ref outside n low t linked₀ (step.staleBefore row stale) stale ?_
    intro i before
    rcases step.lost i r before with still | ⟨negative,_⟩ | ⟨_,inside,_⟩
    · exact only i still
    · exact w.links.single i n r negative low before linked₀
    · exact absurd inside outside
  stale := by
    intro r ref k n t below linkedK linkedN row stale
    rw [step.minTid] at stale
    have linkedN₀ := step.staleLinked linkedN row stale
    have linkedK₀ : s.Linked k r :=
      (step.fresh k r linkedK).resolve_right (fun h => h.2.2.2 n linkedN₀)
    refine step.nearOther ?_ (w.stale r ref k n t below linkedK₀ linkedN₀ (step.staleBefore row stale) stale)
    intro there
    have := step.absorbs.live t there
    omega
  floor := step.minTid.trans w.floor

def Grown (s s' : OverIdx δ) : Prop :=
  s.ghosts ≤ s'.ghosts ∧ ∀ i m, s'.Linked i m → s.Linked i m ∨ i < -s.ghosts

theorem Grown.refl (s : OverIdx δ) : Grown s s := ⟨Nat.le_refl _,fun _ _ linked => Or.inl linked⟩

theorem Grown.trans {s s' s'' : OverIdx δ} (first : Grown s s') (second : Grown s' s'') :
    Grown s s'' := by
  refine ⟨Nat.le_trans first.1 second.1,?_⟩
  intro i m linked
  rcases second.2 i m linked with before | new
  · exact first.2 i m before
  · have := first.1
    exact Or.inr (by omega)

theorem grown (step : Step e s label s' label') : Grown s s' := by
  have counted : -(s'.ghosts : Int) ≤ -s.ghosts := step.absorbs.grows (-s.ghosts) (Int.le_refl _)
  exact ⟨by omega,fun i m linked => (step.fresh i m linked).imp id (fun h => h.2.1)⟩

theorem newThread (w : Weaving e seen tied idle s none) :
    Step e s none s.nextTid.1 (some (s.thread + 1)) where
  links := w.links.nextTid
  minTid := rfl
  bound := by
    intro l mem
    cases mem
    exact Nat.le_refl _
  absorbs := .start (Nat.lt_succ_of_le w.links.floor)
  near := by
    intro l mem i m row linked
    cases mem
    have := (w.links.tids i _ row).2
    omega
  fresh := fun _ _ linked => Or.inl linked
  lost := fun _ _ linked => Or.inl linked

theorem resolveNew (w : Weaving e seen tied idle s none) {r : Mid} (ref : r ∈ e.x.references) :
    Step e s none (s.resolveMidToTid r).1 (some (s.resolveMidToTid r).2) := by
  have out := resolved w.links e.bonds (e.refs r ref)
  refine ⟨out.links,out.minTid,?_,out.absorbs,?_,?_,?_⟩
  · intro l mem
    cases mem
    exact out.bound
  · intro l mem
    cases mem
    exact out.near w.sound (w.stale r ref)
  · intro i m linked
    rcases out.fresh i m linked with old | ⟨rfl,new,none⟩
    · exact Or.inl old
    · exact Or.inr ⟨ref,new,out.all i linked,none⟩
  · exact fun i m linked => (out.lost i m linked).imp id Or.inl

theorem resolveJoin {o : Nat} (w : Weaving e seen tied idle s (some o)) {r : Mid}
    (ref : r ∈ e.x.references) {winner loser : Nat}
    (which : (winner = o ∧ loser = (s.resolveMidToTid r).2) ∨
      (winner = (s.resolveMidToTid r).2 ∧ loser = o)) :
    Step e s (some o) ((s.resolveMidToTid r).1.mergeThreads winner loser) (some winner) ∧
      ∀ i, ((s.resolveMidToTid r).1.mergeThreads winner loser).Linked i r →
        ((s.resolveMidToTid r).1.mergeThreads winner loser).tidOf i = some winner := by
  have out := resolved w.links e.bonds (e.refs r ref)
  obtain ⟨liveO,boundO⟩ := w.live o rfl
  have liveP := out.absorbs.live _ rfl
  have all : ∀ i, ((s.resolveMidToTid r).1.mergeThreads winner loser).Linked i r →
      ((s.resolveMidToTid r).1.mergeThreads winner loser).tidOf i = some winner := by
    intro i linked
    rw [tidMerge,out.all i (linkedMerge.mp linked)]
    rcases which with ⟨left,right⟩ | ⟨left,right⟩
    · simp [right]
    · simp [left]
  have absorbs : Absorbs s.minTid (view s) (some o)
      (view ((s.resolveMidToTid r).1.mergeThreads winner loser)) (some winner) := by
    refine out.absorbs.unify liveO (which.imp (fun h => h.1) (fun h => h.1)) ?_ ?_
    · simp [view]
    · intro i
      refine (tidMerge _ winner loser i).trans ?_
      refine congrArg (fun f => Option.map f _) (funext fun t => ?_)
      rcases which with ⟨left,right⟩ | ⟨left,right⟩
      · rw [left,right]
        by_cases a : t = o
        · simp [a]
        · simp [a]
      · rw [left,right]
        by_cases a : t = (s.resolveMidToTid r).2
        · simp [a]
        · simp [a]
  have nearP := out.near w.sound (w.stale r ref)
  have nearO : Near e.conn (s.resolveMidToTid r).1 e.x.mid o := by
    intro i m row linked
    rcases out.absorbs.moved i o row with same | old
    · exact nearP i m (row.trans same.symm) linked
    · rcases out.fresh i m linked with before | ⟨rfl,_,_⟩
      · exact w.near o rfl i m old before
      · exact e.refs m ref
  refine ⟨⟨?_,?_,?_,absorbs,?_,?_,?_⟩,all⟩
  · refine out.links.merge ?_ ?_ loser
    · rcases which with ⟨left,_⟩ | ⟨left,_⟩ <;> omega
    · have := out.thread
      have := out.bound
      rcases which with ⟨left,_⟩ | ⟨left,_⟩ <;> omega
  · exact (mergeMinTid ..).trans out.minTid
  · intro l mem
    cases mem
    rw [mergeThread]
    have := out.thread
    have := out.bound
    rcases which with ⟨left,_⟩ | ⟨left,_⟩ <;> omega
  · intro l mem
    cases mem
    rcases which with ⟨left,right⟩ | ⟨left,right⟩
    · rw [left,right]
      exact mergeNear nearP nearO
    · rw [left,right]
      exact mergeNear nearO nearP
  · intro i m linked
    rcases out.fresh i m (linkedMerge.mp linked) with old | ⟨rfl,new,none⟩
    · exact Or.inl old
    · exact Or.inr ⟨ref,new,all i linked,none⟩
  · intro i m linked
    exact (out.lost i m linked).imp linkedMerge.mpr Or.inl

theorem tie (w : Weaving e seen tied False s label) {r : Mid} (ref : r ∈ e.x.references)
    {s' : OverIdx δ} (w' : Weaving e seen tied False s' label')
    (all : ∀ i, s'.Linked i r → s'.tidOf i = label')
    (same : ∀ i, s'.Linked i r ↔ (s.resolveMidToTid r).1.Linked i r) :
    Weaving e seen (fun q => tied q ∨ q = r) False s' label' :=
  { w' with
    ref := by
      rintro q (before | rfl) i t linked row
      · exact w'.ref q before i t linked row
      · exact (all i linked).symm.trans row
    kept := by
      rintro q (before | rfl)
      · exact w'.kept q before
      · rcases (resolved w.links e.bonds (e.refs q ref)).left with ⟨i,linked⟩ | ⟨n,low,linked,⟨t,stale,row⟩,only⟩
        · exact Or.inl ⟨i,(same i).mpr linked⟩
        · by_cases inside : q ∈ e.x.mids
          · exact Or.inr (Or.inr inside)
          · exact Or.inr (Or.inl (w.lone q ref inside n low t linked row stale only)) }

theorem onTied (w : Weaving e seen tied idle s label) {tied' : Mid → Prop}
    (iff : ∀ q, tied q ↔ tied' q) : Weaving e seen tied' idle s label :=
  (funext fun q => propext (iff q) : tied = tied') ▸ w

theorem linkRest {tid : Nat} {rest : List Mid} (w : Weaving e seen tied False s (some tid))
    (sub : ∀ r ∈ rest, r ∈ e.x.references) :
    Weaving e seen (fun q => tied q ∨ q ∈ rest) False (rest.foldl (fun s ref =>
      let (s,ptid) := s.resolveMidToTid ref
      s.mergeThreads tid ptid) s) (some tid) ∧
    Grown s (rest.foldl (fun s ref =>
      let (s,ptid) := s.resolveMidToTid ref
      s.mergeThreads tid ptid) s) := by
  induction rest generalizing s tied with
  | nil => exact ⟨w.onTied (by simp),.refl s⟩
  | cons r rest ih =>
    have ref := sub r List.mem_cons_self
    obtain ⟨step,all⟩ := w.resolveJoin ref (Or.inl ⟨rfl,rfl⟩)
    have next := w.tie ref (w.step step False.elim) all (fun _ => linkedMerge)
    obtain ⟨whole,more⟩ := ih next (fun q mem => sub q (List.mem_cons_of_mem _ mem))
    exact ⟨whole.onTied (by simp [or_assoc]),(grown step).trans more⟩

theorem linkRefs {refs : List Mid} (w : Weaving e seen tied False s label)
    (sub : ∀ r ∈ refs, r ∈ e.x.references) :
    Weaving e seen (fun q => tied q ∨ q ∈ refs) False (s.linkRefs refs label).1
      (some (s.linkRefs refs label).2) ∧ Grown s (s.linkRefs refs label).1 := by
  cases refs with
  | nil =>
    cases label with
    | none =>
      have step := w.newThread
      exact ⟨(w.step step False.elim).onTied (by simp),grown step⟩
    | some tid => exact ⟨w.onTied (by simp),.refl s⟩
  | cons r rest =>
    have ref := sub r List.mem_cons_self
    have sub' : ∀ q ∈ rest, q ∈ e.x.references := fun q mem => sub q (List.mem_cons_of_mem _ mem)
    have out := resolved w.links e.bonds (e.refs r ref)
    cases label with
    | none =>
      have step := w.resolveNew ref
      have next := w.tie ref (w.step step False.elim) out.all (fun _ => Iff.rfl)
      obtain ⟨whole,more⟩ := next.linkRest sub'
      exact ⟨whole.onTied (by simp [or_assoc]),(grown step).trans more⟩
    | some o =>
      obtain ⟨step,all⟩ := w.resolveJoin ref (Or.inr ⟨rfl,rfl⟩)
      have next := w.tie ref (w.step step False.elim) all (fun _ => linkedMerge)
      obtain ⟨whole,more⟩ := next.linkRest sub'
      exact ⟨whole.onTied (by simp [or_assoc]),(grown step).trans more⟩

theorem idleStep (w : Weaving e seen tied idle s label) : Step e s label s label where
  links := w.links
  minTid := rfl
  bound := fun l mem => (w.live l mem).2
  absorbs := .refl (fun l mem => (w.live l mem).1)
  near := w.near
  fresh := fun _ _ linked => Or.inl linked
  lost := fun _ _ linked => Or.inl linked

theorem startThread (w : Weaving e seen tied idle s none) {k : Int} {m : Mid} {t : Nat}
    (own : m ∈ e.x.mids) (linked : s.Linked k m) (row : s.tidOf k = some t) (live : s.minTid < t) :
    Step e s none s (some t) where
  links := w.links
  minTid := rfl
  bound := by
    intro l mem
    cases mem
    exact (w.links.tids k t row).2
  absorbs := .start live
  near := by
    intro l mem
    cases mem
    exact w.sound.near e.bonds live row linked (e.own m own)
  fresh := fun _ _ linked => Or.inl linked
  lost := fun _ _ linked => Or.inl linked

theorem mergeRow {o : Nat} (w : Weaving e seen tied idle s (some o)) {k : Int} {m : Mid} {t : Nat}
    (own : m ∈ e.x.mids) (linked : s.Linked k m) (row : s.tidOf k = some t) (live : s.minTid < t) :
    Step e s (some o) (s.mergeThreads o t) (some o) where
  links := w.links.merge (Nat.zero_lt_of_lt (w.live o rfl).1) (w.live o rfl).2 t
  minTid := mergeMinTid ..
  bound := by
    intro l mem
    cases mem
    rw [mergeThread]
    exact (w.live o rfl).2
  absorbs := by
    refine .merge (w.live o rfl).1 ?_ (fun i => tidMerge s o t i)
    simp [view]
  near := by
    intro l mem
    cases mem
    exact mergeNear (w.sound.near e.bonds live row linked (e.own m own)) (w.near o rfl)
  fresh := fun _ _ linked => Or.inl (linkedMerge.mp linked)
  lost := fun _ _ linked => Or.inl (linkedMerge.mpr linked)

theorem ownRef (x : Mail) {m : Mid} (own : m ∈ x.mids) (other : m ≠ x.mid) : m ∈ x.references := by
  refine memParseReferences.mpr ⟨other,Or.inr ⟨?_,own⟩⟩
  have chosen := x.own
  cases listed : x.mids with
  | nil => simp [listed] at own
  | cons a rest =>
    cases rest with
    | nil =>
      rw [listed] at own chosen
      exact absurd ((List.mem_singleton.mp own).trans (List.mem_singleton.mp chosen).symm) other
    | cons b rest => simp

theorem vivify {o : Nat} (w : Weaving e seen tied False s (some o))
    (all : ∀ r ∈ e.x.references, tied r) {k : Int} (low : k < 0) {m : Mid} (own : m ∈ e.x.mids)
    (only : ∀ q, s.Linked k q → q = m) : Step e s (some o) (s.deleteByNum k) (some o) where
  links := w.links.deleteGhost low
  minTid := rfl
  bound := fun l mem => (w.live l mem).2
  absorbs := by
    refine .vanish (k := k) (fun l mem => (w.live l mem).1) rfl ?_ ?_
    · simp [view]
    · intro i other
      simp [view,other]
  near := by
    intro l mem i q row linked
    rw [tidDelete] at row
    split at row
    · contradiction
    · exact w.near l mem i q row (linkedDelete.mp linked).2
  fresh := fun _ _ linked => Or.inl (linkedDelete.mp linked).2
  lost := by
    intro i q linked
    by_cases here : i = k
    · subst here
      have same := only q linked
      subst same
      refine Or.inr (Or.inr ⟨low,own,?_⟩)
      intro y mem together
      obtain ⟨c,live,row,_⟩ := w.done y mem
      have other : y.num ≠ i := by
        have := y.positive
        omega
      have joined : some o = some c := by
        rw [row] at together
        by_cases chosen : q = e.x.mid
        · subst chosen
          rcases w.ghost y mem i low c linked together.symm row with asleep | same | ⟨r,ref,j,linkedJ,rowJ⟩
          · exact asleep.elim
          · exact same
          · exact w.ref r (all r ref) j c linkedJ rowJ
        · exact w.ref q (all q (ownRef e.x own chosen)) i c linked together.symm
      rw [tidDelete,if_neg other,row,joined]
    · exact Or.inl (linkedDelete.mpr ⟨here,linked⟩)

theorem see (w : Weaving e seen tied idle s label) {m : Mid} {k : Int}
    (fact : ∀ t, s.Linked k m → s.tidOf k = some t → (k < 0 ∨ s.minTid < t) → label = some t)
    (gone : k < 0 → ¬ s.Linked k m) :
    Weaving e (fun q i => seen q i ∨ (q = m ∧ i = k)) tied idle s label :=
  { w with
    own := by
      rintro q i t (before | ⟨rfl,rfl⟩) linked row which
      · exact w.own q i t before linked row which
      · exact fact t linked row which
    vivid := by
      rintro n low (before | ⟨rfl,rfl⟩) linked
      · exact w.vivid n low before linked
      · exact gone low linked }

end Weaving

structure Met (e : Scene) (seen : Mid → Int → Prop) (tied : Mid → Prop) (m : Mid) (k : Int)
    (before after : OverIdx δ × Adding) : Prop where
  weaving : Weaving e (fun q i => seen q i ∨ (q = m ∧ i = k))
    (fun r => tied r ∨ (before.2.vivified < after.2.vivified ∧ r ∈ e.x.references)) False
    after.1 after.2.oldTid
  grown : Weaving.Grown before.1 after.1
  some : after.2.oldTid.isSome
  count : before.2.vivified ≤ after.2.vivified

namespace Weaving
variable {e : Scene} {s s' : OverIdx δ} {label label' : Option Nat} {seen : Mid → Int → Prop}
  {tied : Mid → Prop} {idle idle' : Prop} {a : Adding} {k : Int} {m : Mid}

theorem rowReal {refs : List Mid} {t : Nat} (row : s.tidOf k = some t) (positive : 0 < k) :
    eachRow (addOverRow refs) k (s,a) =
      (if s.minTid < t then (s.mergeThreads (a.oldTid.getD t) t,⟨some (a.oldTid.getD t),a.vivified⟩)
      else match a.oldTid with
        | some _ => (s,a)
        | none => (s.nextTid.1,⟨some (s.thread + 1),a.vivified⟩),true) := by
  obtain ⟨r,found,rfl⟩ : ∃ r, s.over.get? k = some r ∧ r.tid = t :=
    Option.map_eq_some_iff.mp row
  obtain ⟨old,vivified⟩ := a
  by_cases valid : s.minTid < r.tid
  · simp [eachRow,found,addOverRow,positive,valid]
  · cases old with
    | none => simp [eachRow,found,addOverRow,positive,valid,nextTid]
    | some o => simp [eachRow,found,addOverRow,positive,valid]

theorem metReal (w : Weaving e seen tied idle s a.oldTid) (own : m ∈ e.x.mids)
    (linked : s.Linked k m) (positive : 0 < k) (wake : idle → ∀ n < 0, ¬ s.Linked n e.x.mid) :
    ∃ st, eachRow (addOverRow e.x.references) k (s,a) = (st,true) ∧ Met e seen tied m k (s,a) st := by
  obtain ⟨t,row⟩ := w.links.linkedRow linked
  have woken : ∀ (s' : OverIdx δ) label', idle → False ∨ ∀ y ∈ e.done, ∀ n < 0, ∀ t,
      s.Linked n e.x.mid → s.tidOf n = some t → s.tidOf y.num = some t → s'.tidOf n = label' :=
    fun _ _ asleep => Or.inr (fun y mem n low t linked => absurd linked (wake asleep n low))
  obtain ⟨old,vivified⟩ := a
  by_cases valid : s.minTid < t
  · cases old with
    | none =>
      have step := w.startThread own linked row valid
      refine ⟨(s,⟨some t,vivified⟩),?_,?_,.refl s,rfl,Nat.le_refl _⟩
      · simp [rowReal row positive,valid,mergeThreads]
      · refine ((w.step step (woken _ _)).onTied (by simp)).see ?_ (fun low => by omega)
        intro t _ row' _
        exact row.symm.trans row'
    | some o =>
      have step := w.mergeRow own linked row valid
      refine ⟨(s.mergeThreads o t,⟨some o,vivified⟩),?_,?_,grown step,rfl,Nat.le_refl _⟩
      · simp [rowReal row positive,valid]
      · refine ((w.step step (woken _ _)).onTied (by simp)).see ?_ (fun low => by omega)
        intro t _ row' _
        rw [tidMerge,row] at row'
        simpa using row'
  · cases old with
    | none =>
      have step := w.newThread
      refine ⟨(s.nextTid.1,⟨some (s.thread + 1),vivified⟩),?_,?_,grown step,rfl,Nat.le_refl _⟩
      · simp [rowReal row positive,valid]
      · refine ((w.step step (woken _ _)).onTied (by simp)).see ?_ (fun low => by omega)
        intro t _ row' which
        rw [tidNext,row] at row'
        cases row'
        exact absurd (which.resolve_left (by omega)) valid
    | some o =>
      refine ⟨(s,⟨some o,vivified⟩),?_,?_,.refl s,rfl,Nat.le_refl _⟩
      · simp [rowReal row positive,valid]
      · refine ((w.step w.idleStep (woken _ _)).onTied (by simp)).see ?_ (fun low => by omega)
        intro t _ row' which
        rw [row] at row'
        cases row'
        exact absurd (which.resolve_left (by omega)) valid

theorem metGhost (w : Weaving e seen tied idle s a.oldTid) (own : m ∈ e.x.mids)
    (linked : s.Linked k m) (negative : k < 0) (wake : idle → a.oldTid = none ∧ m = e.x.mid) :
    ∃ st, eachRow (addOverRow e.x.references) k (s,a) = (st,true) ∧ Met e seen tied m k (s,a) st := by
  obtain ⟨t,row⟩ := w.links.linkedRow linked
  obtain ⟨r,found,rfl⟩ : ∃ r, s.over.get? k = some r ∧ r.tid = t :=
    Option.map_eq_some_iff.mp row
  obtain ⟨old,vivified⟩ := a
  have notReal : ¬ 0 < k := by omega
  -- the thread that the references are then linked to
  obtain ⟨s₁,o,start,w₁,grown₁⟩ : ∃ s₁ o, (match old with
      | some old => (s,old)
      | none => if s.minTid < r.tid then (s,r.tid) else s.nextTid) = (s₁,o) ∧
      Weaving e seen tied False s₁ (some o) ∧ Grown s s₁ := by
    cases old with
    | some o =>
      refine ⟨s,o,rfl,w.step w.idleStep ?_,.refl s⟩
      intro asleep
      exact absurd (wake asleep).1 (by simp)
    | none =>
      by_cases valid : s.minTid < r.tid
      · refine ⟨s,r.tid,by simp [valid],w.step (w.startThread own linked row valid) ?_,.refl s⟩
        intro asleep
        refine Or.inr (fun y mem n low t linkedN rowN same => ?_)
        rw [w.links.single n k m low negative ((wake asleep).2 ▸ linkedN) linked,row]
      · refine ⟨s.nextTid.1,s.thread + 1,by simp [valid,nextTid],w.step w.newThread ?_,grown w.newThread⟩
        intro asleep
        refine Or.inr (fun y mem n low t linkedN rowN same => ?_)
        -- a settled message is in no stale thread
        obtain ⟨c,live,here,_⟩ := w.done y mem
        rw [w.links.single n k m low negative ((wake asleep).2 ▸ linkedN) linked,row] at rowN
        rw [here] at same
        cases same
        cases rowN
        exact absurd live valid
  obtain ⟨w₂,grown₂⟩ := w₁.linkRefs (fun r mem => mem)
  have only : ∀ q, (s₁.linkRefs e.x.references (some o)).1.Linked k q → q = m := by
    intro q linked'
    rcases (grown₁.trans grown₂).2 k q linked' with before | new
    · exact w.links.linkedGhost negative before linked
    · have := w.links.used linked
      omega
  have step := w₂.vivify (fun r mem => Or.inr mem) negative own only
  have w₃ : Weaving e seen (fun q => tied q ∨ q ∈ e.x.references) False _ _ :=
    w₂.step step False.elim
  refine ⟨((s₁.linkRefs e.x.references (some o)).1.deleteByNum k,
    ⟨some (s₁.linkRefs e.x.references (some o)).2,vivified + 1⟩),?_,?_,
    (grown₁.trans grown₂).trans (grown step),rfl,Nat.le_succ _⟩
  · cases old with
    | some old =>
      cases start
      simp [eachRow,found,addOverRow,notReal,negative]
    | none =>
      simp only at start
      simp only [eachRow,found,addOverRow,notReal,negative,if_false,if_true]
      rw [start]
  · refine Weaving.see (w₃.onTied ?_) ?_ ?_
    · intro q
      simp
    · intro t linked'
      exact absurd rfl (linkedDelete.mp linked').1
    · intro _ linked'
      exact (linkedDelete.mp linked').1 rfl

end Weaving
end OverIdx
end PublicInbox
