import PublicInbox.OverIdx.Threads

/-! A rethread: rethread_prepare, then every stored message once more through add_over. -/
namespace PublicInbox
namespace OverIdx
variable {δ : Type} {mails : List Mail} {s : OverIdx δ}

inductive Reached : OverIdx δ → List Mail → Prop where
  | empty : Reached .empty []
  | add {s : OverIdx δ} {mails : List Mail} (before : Reached s mails) (x : Mail) (cols : δ) :
      Reached (s.addOver x cols) (x :: mails.filter (fun y => y.num ≠ x.num))

inductive Rethreads (ok : OverIdx δ → Mail → Prop) (s₀ : OverIdx δ) (mails : List Mail) :
    OverIdx δ → List Mail → Prop where
  | prepare : Rethreads ok s₀ mails s₀.rethreadPrepare []
  | again {s : OverIdx δ} {done : List Mail} (before : Rethreads ok s₀ mails s done) (x : Mail)
      (stored : x ∈ mails) (cols : δ) (fresh : ∀ y ∈ done, y.num ≠ x.num) (good : ok s x) :
      Rethreads ok s₀ mails (s.addOver x cols) (x :: done)

def Stale (s : OverIdx δ) (num : Int) : Prop := ∀ tid ∈ s.tidOf num, tid ≤ s.minTid

def KeepsReferences (mails : List Mail) (s : OverIdx δ) (x : Mail) : Prop :=
  ∀ r ∈ x.references, r ∉ x.mids → ∀ n ∈ s.numsOf r, n < 0 → Stale s n → s.numsOf r = [n] →
    Only mails x r

def MergesRelated (mails : List Mail) (s : OverIdx δ) (x : Mail) : Prop :=
  ∀ r ∈ x.references, ∀ k ∈ s.numsOf r, ∀ n ∈ s.numsOf r, k < n → k ≠ x.num → n ≠ x.num →
    Stale s n → ∀ i m, i ≠ x.num → s.tidOf i = s.tidOf n → s.Linked i m → conn mails m x.mid

instance (s : OverIdx δ) (num : Int) : Decidable (Stale s num) :=
  inferInstanceAs (Decidable (∀ tid ∈ s.tidOf num, tid ≤ s.minTid))

instance (x : Mail) (m : Mid) : Decidable (x.Mentions m) :=
  inferInstanceAs (Decidable (m ∈ x.mids ∨ m ∈ x.references))

instance (mails : List Mail) (x : Mail) (m : Mid) : Decidable (Only mails x m) :=
  inferInstanceAs (Decidable (∀ z ∈ mails, z.num ≠ x.num → ¬ z.Mentions m))

instance (mails : List Mail) (s : OverIdx δ) (x : Mail) : Decidable (KeepsReferences mails s x) :=
  inferInstanceAs (Decidable (∀ r ∈ x.references, r ∉ x.mids → ∀ n ∈ s.numsOf r, n < 0 →
    Stale s n → s.numsOf r = [n] → Only mails x r))

theorem addOverLinks (links : Links s mails) (x : Mail) (cols : δ) :
    Links (s.addOver x cols) (x :: mails.filter (fun y => y.num ≠ x.num)) := by
  have other : ∀ y ∈ mails.filter (fun y => y.num ≠ x.num), y.num ≠ x.num := fun y mem =>
    of_decide_eq_true (List.mem_filter.mp mem).2
  have left := links.deleteReal x.positive
  have live : ∀ l ∈ (s.tidOf x.num).filter (fun tid => s.minTid < tid),
      (s.deleteByNum x.num).minTid < l ∧ l ≤ (s.deleteByNum x.num).thread := by
    intro l mem
    obtain ⟨row,valid⟩ := Option.filter_eq_some_iff.mp mem
    exact ⟨of_decide_eq_true valid,(links.tids _ l row).2⟩
  have begun : Begun (bare s.minTid x _ other) (fun _ _ => False) (Idle x x.mids (s.starting x))
      (s.starting x) := by
    have w := bareWeaving other left live
    refine ⟨(w.onTied ?_).on (fun _ _ _ sees => sees) False.elim,fun h => absurd h (Nat.lt_irrefl 0)⟩
    intro r
    simp [starting]
  obtain ⟨s',tid,stored,w⟩ := addOverStore cols begun
  exact stored ▸ (settle cols w).1

theorem reachedLinks (reached : Reached s mails) :
    Links s mails ∧ ∀ x ∈ mails, ∀ y ∈ mails, x.num = y.num → x = y := by
  induction reached with
  | empty => exact ⟨emptyLinks,by simp⟩
  | @add s mails before x cols ih =>
    refine ⟨addOverLinks ih.1 x cols,?_⟩
    have other : ∀ y ∈ mails.filter (fun y => y.num ≠ x.num), y.num ≠ x.num := fun y mem =>
      of_decide_eq_true (List.mem_filter.mp mem).2
    intro y memY z memZ same
    rcases List.mem_cons.mp memY with rfl | oldY
    · rcases List.mem_cons.mp memZ with rfl | oldZ
      · rfl
      · exact absurd same.symm (other z oldZ)
    · rcases List.mem_cons.mp memZ with rfl | oldZ
      · exact absurd same (other y oldY)
      · exact ih.2 y (List.mem_filter.mp oldY).1 z (List.mem_filter.mp oldZ).1 same

theorem rethreadSettled {s₀ : OverIdx δ} (links₀ : Links s₀ mails)
    (distinct : ∀ x ∈ mails, ∀ y ∈ mails, x.num = y.num → x = y) {done : List Mail}
    (run : Rethreads (fun s x => KeepsReferences mails s x ∧ MergesRelated mails s x) s₀ mails s done) :
    Links s mails ∧ Sound (conn mails) s ∧ Settled mails done s ∧ s.minTid = s₀.thread ∧
      ∀ y ∈ done, y ∈ mails := by
  induction run with
  | prepare =>
    refine ⟨{ links₀ with floor := Nat.le_refl _ },?_,by simp [Settled],rfl,by simp⟩
    intro t live i m row
    exact absurd live (Nat.not_lt.mpr (links₀.tids i t row).2)
  | @again s done before x stored cols fresh good ih =>
    obtain ⟨links,sound,settled,floor,sub⟩ := ih
    obtain ⟨keeps,merges⟩ := good
    have stale : ∀ {n t}, s.tidOf n = some t → t ≤ s.minTid → Stale s n := by
      intro n t row dying tid mem
      cases row.symm.trans mem
      exact dying
    have left : ∀ y, y ∈ x :: mails.filter (fun y => y.num ≠ x.num) ↔ y ∈ mails := by
      intro y
      rw [List.mem_cons,List.mem_filter,decide_eq_true_eq]
      constructor
      · rintro (rfl | ⟨mem,_⟩)
        · exact stored
        · exact mem
      · intro mem
        by_cases same : y.num = x.num
        · exact Or.inl (distinct y mem x stored same)
        · exact Or.inr ⟨mem,same⟩
    have other : ∀ y ∈ mails.filter (fun y => y.num ≠ x.num), y.num ≠ x.num := fun y mem =>
      of_decide_eq_true (List.mem_filter.mp mem).2
    have begun := startBegun (e := scene s₀.thread mails done (mails.filter (fun y => y.num ≠ x.num)) x
      stored (fun y mem => List.mem_filter.mpr ⟨sub y mem,decide_eq_true (fresh y mem)⟩)
      (fun y mem => (List.mem_filter.mp mem).1) other) rfl floor links sound settled
      (fun z mem num => distinct z mem x stored num)
      (fun n low linked => absurd linked (links.chosen x stored n low))
      (fun r ref outside n low t linked row dying only =>
        keeps r ref outside n (memNumsOf.mpr linked) low (stale row dying) (numsOfOne linked only))
      (fun r ref k n t below apartK apartN linkedK linkedN row dying i m apart found linked =>
        merges r ref k (memNumsOf.mpr linkedK) n (memNumsOf.mpr linkedN) below apartK apartN
          (stale row dying) i m apart (found.trans row.symm) linked)
    obtain ⟨s',tid,out,w⟩ := addOverStore cols begun
    obtain ⟨links',sound',settled',floor'⟩ := settle cols w
    change s.addOver x cols = _ at out
    rw [out]
    refine ⟨links'.onMails left,sound',settled',floor',?_⟩
    intro y mem
    rcases List.mem_cons.mp mem with rfl | old
    · exact stored
    · exact sub y old

theorem rethreadIsThreading {s₀ : OverIdx δ} {done : List Mail} (reached : Reached s₀ mails)
    (run : Rethreads (fun s x => KeepsReferences mails s x ∧ MergesRelated mails s x) s₀ mails s done)
    (whole : ∀ x ∈ mails, x ∈ done) :
    (∀ x ∈ mails, ∀ y ∈ mails,
      s.tidOf x.num = s.tidOf y.num ↔ Connected mails (.message x.num) (.message y.num)) ∧
    s.minTid = s₀.thread ∧ ∀ x ∈ mails, ∃ tid, s.tidOf x.num = some tid ∧ s.minTid < tid := by
  obtain ⟨links₀,distinct⟩ := reachedLinks reached
  obtain ⟨links,sound,settled,floor,sub⟩ := rethreadSettled links₀ distinct run
  have all : Settled mails mails s := by
    intro y mem
    obtain ⟨c,live,row,tied⟩ := settled y (whole y mem)
    refine ⟨c,live,row,?_,tied.ref,tied.kept⟩
    intro m own i linked which
    refine tied.own m own i linked (which.imp id ?_)
    rintro ⟨z,stored,num⟩
    exact ⟨z,whole z stored,num⟩
  refine ⟨fun x left y right => settledComponents links sound all left right,floor,?_⟩
  intro x mem
  obtain ⟨c,live,row,_⟩ := all x mem
  exact ⟨c,row,live⟩

theorem mergesRelatedOne {x : Mail} (one : ∀ r ∈ x.references, (s.numsOf r).length ≤ 1) :
    MergesRelated mails s x := by
  intro r ref k memK n memN below
  cases listed : s.numsOf r with
  | nil => simp [listed] at memK
  | cons a rest =>
    have short := one r ref
    rw [listed] at memK memN short
    have none : rest = [] := List.length_eq_zero_iff.mp (by simpa using short)
    subst none
    have := List.mem_singleton.mp memK
    have := List.mem_singleton.mp memN
    omega

def lone (num : Int) (positive : 0 < num) (mid : Mid) (refs : List Mid) : Mail :=
  ⟨num,positive,[mid],List.pairwise_singleton _ _,mid,List.mem_singleton_self _,refs⟩

theorem twoPositive : (0 : Int) < 2 := Int.natCast_pos.mpr Nat.two_pos

def replyToMissing : Mail := lone 1 Int.one_pos (cleanMid "b") [cleanMid "a"]
def replyToReply : Mail := lone 2 twoPositive (cleanMid "c") [cleanMid "b"]

def missingParent : OverIdx Unit := (empty.addOver replyToMissing ()).addOver replyToReply ()

theorem missingParentRethreaded :
    let s := (missingParent.rethreadPrepare.addOver replyToReply ()).addOver replyToMissing ()
    (s.tidOf 1 = s.tidOf 2 ↔ Connected [replyToReply,replyToMissing] (.message 1) (.message 2)) ∧
      ∃ tid, s.tidOf 1 = some tid ∧ s.minTid < tid := by
  have reached : Reached missingParent [replyToReply,replyToMissing] :=
    .add (.add .empty replyToMissing ()) replyToReply ()
  have whole := rethreadIsThreading reached (.again (.again .prepare replyToReply (by simp) ()
      (by simp) ⟨by decide +kernel,mergesRelatedOne (by decide +kernel)⟩) replyToMissing (by simp) ()
      (by decide) ⟨by decide +kernel,mergesRelatedOne (by decide +kernel)⟩) (by simp)
  exact ⟨whole.1 replyToMissing (by simp) replyToReply (by simp),whole.2.2 replyToMissing (by simp)⟩

def secondReply : Mail := lone 2 twoPositive (cleanMid "c") [cleanMid "a"]

def siblings : OverIdx Unit := (empty.addOver replyToMissing ()).addOver secondReply ()

theorem siblingsRethreadedApart : ¬ ∀ (s₀ s : OverIdx Unit) (mails done : List Mail),
    Reached s₀ mails → Rethreads (fun _ _ => True) s₀ mails s done → (∀ x ∈ mails, x ∈ done) →
    ∀ x ∈ mails, ∀ y ∈ mails,
      s.tidOf x.num = s.tidOf y.num ↔ Connected mails (.message x.num) (.message y.num) := by
  intro threads
  have reached : Reached siblings [secondReply,replyToMissing] :=
    .add (.add .empty replyToMissing ()) secondReply ()
  have run : Rethreads (fun _ _ => True) siblings [secondReply,replyToMissing]
      ((siblings.rethreadPrepare.addOver replyToMissing ()).addOver secondReply ())
      [secondReply,replyToMissing] :=
    .again (.again .prepare replyToMissing (by simp) () (by simp) trivial) secondReply (by simp) ()
      (by decide) trivial
  have left : Edge [secondReply,replyToMissing] (.message 1) (.id (cleanMid "a")) :=
    .mention (x := replyToMissing) (by simp) (Or.inr (by decide +kernel))
  have right : Edge [secondReply,replyToMissing] (.message 2) (.id (cleanMid "a")) :=
    .mention (x := secondReply) (by simp) (Or.inr (by decide +kernel))
  have path : Connected [secondReply,replyToMissing] (.message 1) (.message 2) :=
    .trans _ _ _ (.rel _ _ left) (.symm _ _ (.rel _ _ right))
  have same := (threads _ _ _ _ reached run (by simp) replyToMissing (by simp) secondReply (by simp)).mpr path
  revert same
  decide +kernel

end OverIdx
end PublicInbox
