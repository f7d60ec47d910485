import Mathlib.Logic.Relation
import PublicInbox.OverIdx.AddOver

/-! Threads against connected components of the Message-ID graph. -/
namespace PublicInbox

inductive Node where
  | message (num : Int)
  | id (mid : Mid)

inductive Edge (mails : List Mail) : Node → Node → Prop where
  | mention {x : Mail} {m : Mid} (stored : x ∈ mails) (mentions : x.Mentions m) :
      Edge mails (.message x.num) (.id m)

def Connected (mails : List Mail) : Node → Node → Prop := Relation.EqvGen (Edge mails)

theorem Connected.mono {mails mails' : List Mail} (sub : ∀ x ∈ mails, x ∈ mails') {a b : Node}
    (path : Connected mails a b) : Connected mails' a b := by
  have edges : ∀ c d, Edge mails c d → Edge mails' c d := by
    rintro _ _ ⟨stored,mentions⟩
    exact .mention (sub _ stored) mentions
  exact Relation.EqvGen.mono edges a b path

def conn (mails : List Mail) (m k : Mid) : Prop := Connected mails (.id m) (.id k)

theorem connEquiv (mails : List Mail) : Equivalence (conn mails) where
  refl := fun m => Relation.EqvGen.refl (Node.id m)
  symm := fun path => Relation.EqvGen.symm _ _ path
  trans := fun first second => Relation.EqvGen.trans _ _ _ first second

theorem connMentions {mails : List Mail} {x : Mail} (stored : x ∈ mails) {m k : Mid}
    (left : x.Mentions m) (right : x.Mentions k) : conn mails m k :=
  .trans _ _ _ (.symm _ _ (.rel _ _ (.mention stored left))) (.rel _ _ (.mention stored right))

namespace OverIdx
variable {δ : Type} {all done mails : List Mail} {s : OverIdx δ}

def scene (floor : Nat) (all done mails : List Mail) (x : Mail) (inAll : x ∈ all) (stored : ∀ y ∈ done, y ∈ mails)
    (sub : ∀ y ∈ mails, y ∈ all) (other : ∀ y ∈ mails, y.num ≠ x.num) : Scene where
  floor := floor
  conn := conn all
  all := all
  done := done
  mails := mails
  x := x
  bonds := ⟨connEquiv all,fun _ mem _ left _ right =>
    connMentions (sub _ mem) (Or.inl left) (Or.inl right)⟩
  own := fun _ mem => connMentions inAll (Or.inl mem) (Or.inl x.own)
  refs := fun _ mem => connMentions inAll (Or.inr mem) (Or.inl x.own)
  inAll := inAll
  stored := stored
  other := other

theorem settledPair (links : Links s mails) (settled : Settled mails mails s) {x y : Mail}
    (left : x ∈ mails) (right : y ∈ mails) {m : Mid} (mentionsX : x.Mentions m)
    (mentionsY : y.Mentions m) : s.tidOf x.num = s.tidOf y.num := by
  obtain ⟨c,_,rowX,tiedX⟩ := settled x left
  obtain ⟨d,_,rowY,tiedY⟩ := settled y right
  have linked : ∀ {z : Mail}, z ∈ mails → m ∈ z.mids → s.Linked z.num m := fun {z} mem own =>
    (links.linkedReal z.positive).mpr ⟨z,mem,rfl,own⟩
  rcases mentionsX with ownX | refX
  · rcases mentionsY with ownY | refY
    · exact rowX.trans (tiedX.own m ownX y.num (linked right ownY) (Or.inr ⟨y,right,rfl⟩)).symm
    · exact (tiedY.ref m refY x.num (linked left ownX)).trans rowY.symm
  · rcases mentionsY with ownY | refY
    · exact rowX.trans (tiedX.ref m refX y.num (linked right ownY)).symm
    · rcases tiedX.kept m refX with ⟨j,there⟩ | only | none
      · rw [rowX,rowY,← tiedX.ref m refX j there,← tiedY.ref m refY j there]
      · by_cases same : y.num = x.num
        · rw [same]
        · exact absurd (Or.inr refY) (only y right same)
      · exact none.elim

def InThread (mails : List Mail) (s : OverIdx δ) (t : Nat) : Node → Prop
  | .message n => s.tidOf n = some t
  | .id m => ∃ x ∈ mails, x.Mentions m ∧ s.tidOf x.num = some t

theorem inThread (links : Links s mails) (settled : Settled mails mails s) {a b : Node}
    (path : Connected mails a b) (t : Nat) : InThread mails s t a ↔ InThread mails s t b := by
  induction path with
  | rel a b edge =>
    obtain ⟨stored,mentions⟩ := edge
    constructor
    · exact fun row => ⟨_,stored,mentions,row⟩
    · rintro ⟨y,storedY,mentionsY,row⟩
      exact (settledPair links settled stored storedY mentions mentionsY).trans row
  | refl a => exact Iff.rfl
  | symm a b _ ih => exact ih.symm
  | trans a b c _ _ left right => exact left.trans right

theorem settledComponents (links : Links s mails) (sound : Sound (conn mails) s)
    (settled : Settled mails mails s) {x y : Mail} (left : x ∈ mails) (right : y ∈ mails) :
    s.tidOf x.num = s.tidOf y.num ↔ Connected mails (.message x.num) (.message y.num) := by
  obtain ⟨c,live,row,_⟩ := settled x left
  constructor
  · intro same
    have linked : ∀ {z : Mail}, z ∈ mails → s.Linked z.num z.mid := fun {z} mem =>
      (links.linkedReal z.positive).mpr ⟨z,mem,rfl,z.own⟩
    have path := sound c live y.num y.mid (same.symm.trans row) (linked right) x.num x.mid row (linked left)
    have first : Connected mails (.message x.num) (.id x.mid) := .rel _ _ (.mention left (Or.inl x.own))
    have last : Connected mails (.message y.num) (.id y.mid) := .rel _ _ (.mention right (Or.inl y.own))
    exact .trans _ _ _ first (.trans _ _ _ path (.symm _ _ last))
  · intro path
    exact row.trans ((inThread links settled path c).mp row).symm

inductive Adds (ok : OverIdx δ → Mail → Prop) : OverIdx δ → List Mail → Prop where
  | empty : Adds ok .empty []
  | add {s : OverIdx δ} {mails : List Mail} (before : Adds ok s mails) (x : Mail) (cols : δ)
      (fresh : ∀ y ∈ mails, y.num ≠ x.num) (good : ok s x) : Adds ok (s.addOver x cols) (x :: mails)

def GhostJoins (s : OverIdx δ) (x : Mail) : Prop :=
  ∀ n < 0, s.Linked n x.mid →
    (∀ m ∈ x.mids.takeWhile (fun q => q ≠ x.mid), ∀ i, ¬ s.Linked i m) ∨
    ∃ r ∈ x.references, ∃ j, s.Linked j r ∧ s.tidOf j = s.tidOf n

instance (s : OverIdx δ) (num : Int) (mid : Mid) : Decidable (s.Linked num mid) :=
  decidable_of_iff _ memNumsOf

theorem ghostJoinsIff {s : OverIdx δ} {x : Mail} : GhostJoins s x ↔
    ∀ n ∈ s.numsOf x.mid, n < 0 → (∀ m ∈ x.mids.takeWhile (fun q => q ≠ x.mid), s.numsOf m = []) ∨
      ∃ r ∈ x.references, ∃ j ∈ s.numsOf r, s.tidOf j = s.tidOf n := by
  have quiet : ∀ m, s.numsOf m = [] ↔ ∀ i, ¬ s.Linked i m := by
    intro m
    simp only [← memNumsOf]
    exact List.eq_nil_iff_forall_not_mem
  unfold GhostJoins
  simp only [quiet,memNumsOf]
  exact forall_congr' fun n => ⟨fun h linked low => h low linked,fun h low linked => h linked low⟩

instance (s : OverIdx δ) (x : Mail) : Decidable (GhostJoins s x) := decidable_of_iff' _ ghostJoinsIff

theorem emptyLinks : Links (empty : OverIdx δ) [] where
  rows := fun n => by simp [tidOf,empty]
  real := fun n _ ms => by simp [empty]
  ghost := fun n ms _ found => by simp [empty] at found
  single := fun n k m _ _ ⟨_,found,_⟩ => by simp [empty] at found
  chosen := by simp
  tids := fun n t row => by simp [tidOf,empty] at row
  floor := Nat.le_refl 0

theorem addsSettled {s : OverIdx δ} (run : Adds GhostJoins s mails) (sub : ∀ x ∈ mails, x ∈ all) :
    Links s mails ∧ Sound (conn all) s ∧ Settled all mails s ∧ s.minTid = 0 := by
  induction run with
  | empty =>
    refine ⟨emptyLinks,?_,by simp [Settled],rfl⟩
    intro t _ i m row
    simp [tidOf,empty] at row
  | @add s mails before x cols fresh good ih =>
    have subOld : ∀ y ∈ mails, y ∈ all := fun y mem => sub y (List.mem_cons_of_mem _ mem)
    obtain ⟨links,sound,settled,floor⟩ := ih subOld
    have absent : s.tidOf x.num = none := (links.rows _).mpr (links.absent fresh)
    have apart : ∀ {j r}, s.Linked j r → j ≠ x.num := by
      rintro j r ⟨ms,found,_⟩ rfl
      rw [links.absent fresh] at found
      contradiction
    have valid : ∀ {n t}, s.tidOf n = some t → ¬ t ≤ s.minTid := by
      intro n t row
      have := (links.tids n t row).1
      omega
    have same : mails.filter (fun y => y.num ≠ x.num) = mails :=
      List.filter_eq_self.mpr (fun y mem => decide_eq_true (fresh y mem))
    have begun := startBegun (e := scene 0 all mails mails x (sub x List.mem_cons_self)
      (fun _ mem => mem) subOld fresh) same.symm floor links sound settled
      (fun z mem num => absurd num (fresh z mem))
      (fun n low linked => (good n low linked).imp (fun quiet => ⟨absent,quiet⟩)
        (fun ⟨r,ref,j,there,row⟩ => ⟨r,ref,j,apart there,there,row⟩))
      (fun r _ _ n _ t _ row dying => absurd dying (valid row))
      (fun r _ k n t _ _ _ _ _ row dying => absurd dying (valid row))
    obtain ⟨s',tid,stored,w⟩ := addOverStore cols begun
    exact stored ▸ settle cols w

-- Two runs over the same messages give the same threads where each meets the condition.
theorem threadsAreComponents {s : OverIdx δ} (run : Adds GhostJoins s mails) :
    (∀ x ∈ mails, ∃ tid, s.tidOf x.num = some tid) ∧
    (∀ x ∈ mails, ∀ y ∈ mails,
      s.tidOf x.num = s.tidOf y.num ↔ Connected mails (.message x.num) (.message y.num)) ∧
    ∀ (s' : OverIdx δ) mails', Adds GhostJoins s' mails' → mails'.Perm mails →
      ∀ x ∈ mails, ∀ y ∈ mails,
        s.tidOf x.num = s.tidOf y.num ↔ s'.tidOf x.num = s'.tidOf y.num := by
  obtain ⟨links,sound,settled,_⟩ := addsSettled run (fun _ mem => mem)
  refine ⟨?_,fun x left y right => settledComponents links sound settled left right,?_⟩
  · intro x mem
    obtain ⟨c,_,row,_⟩ := settled x mem
    exact ⟨c,row⟩
  · intro s' mails' run' perm x left y right
    obtain ⟨links',sound',settled',_⟩ := addsSettled run' (fun _ mem => mem)
    rw [settledComponents links sound settled left right,
      settledComponents links' sound' settled' (perm.mem_iff.mpr left) (perm.mem_iff.mpr right)]
    exact ⟨.mono (fun _ mem => perm.mem_iff.mpr mem),.mono (fun _ mem => perm.mem_iff.mp mem)⟩

def gapRoot : Mail := ⟨1,by decide,[cleanMid "a"],by decide,cleanMid "a",by decide,[]⟩
def gapReply : Mail := ⟨2,by decide,[cleanMid "c"],by decide,cleanMid "c",by decide,[cleanMid "a",cleanMid "b"]⟩
def gapMiddle : Mail := ⟨3,by decide,[cleanMid "b"],by decide,cleanMid "b",by decide,[cleanMid "a"]⟩

def gapStore : OverIdx Unit := ((empty.addOver gapReply ()).addOver gapMiddle ()).addOver gapRoot ()

theorem gapThreaded : gapStore.tidOf 1 = gapStore.tidOf 2 ↔
    Connected [gapRoot,gapMiddle,gapReply] (.message 1) (.message 2) :=
  (threadsAreComponents (.add (.add (.add .empty gapReply () (by simp) (by decide +kernel))
    gapMiddle () (by decide) (by decide +kernel)) gapRoot () (by decide) (by decide +kernel))).2.1
    gapRoot (by simp) gapReply (by simp)

/- `twoIds` carries the id of a stored message first and the id another message refers to
second, as the chosen one: the ghost's thread is dropped. -/
def firstStored : Mail := ⟨1,by decide,[cleanMid "m1"],by decide,cleanMid "m1",by decide,[]⟩
def replyToSecond : Mail := ⟨2,by decide,[cleanMid "b"],by decide,cleanMid "b",by decide,[cleanMid "m2"]⟩
def twoIds : Mail :=
  ⟨3,by decide,[cleanMid "m1",cleanMid "m2"],by decide,cleanMid "m2",by decide,[]⟩

theorem ghostThreadDropped : ¬ ∀ (s : OverIdx Unit) (mails : List Mail), Adds (fun _ _ => True) s mails →
    ∀ x ∈ mails, ∀ y ∈ mails,
      s.tidOf x.num = s.tidOf y.num ↔ Connected mails (.message x.num) (.message y.num) := by
  intro threads
  have run : Adds (fun _ _ => True)
      (((empty.addOver firstStored ()).addOver replyToSecond ()).addOver twoIds ())
      [twoIds,replyToSecond,firstStored] :=
    .add (.add (.add .empty _ () (by simp) trivial) _ () (by decide) trivial) _ () (by decide) trivial
  have own : Edge [twoIds,replyToSecond,firstStored] (.message 3) (.id (cleanMid "m2")) :=
    .mention (x := twoIds) (by simp) (Or.inl (by decide))
  have reply : Edge [twoIds,replyToSecond,firstStored] (.message 2) (.id (cleanMid "m2")) :=
    .mention (x := replyToSecond) (by simp) (Or.inr (by decide +kernel))
  have path : Connected [twoIds,replyToSecond,firstStored] (.message 3) (.message 2) :=
    .trans _ _ _ (.rel _ _ own) (.symm _ _ (.rel _ _ reply))
  have same := (threads _ _ run twoIds (by simp) replyToSecond (by simp)).mpr path
  revert same
  decide +kernel

end OverIdx
end PublicInbox
