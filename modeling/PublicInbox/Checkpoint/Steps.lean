import PublicInbox.Checkpoint

/-! What holds between any two steps of an operation that does not run ahead of the shards, and
what each step keeps of it. -/
namespace PublicInbox.Checkpoint
open Fifo Interference

variable {g : Config}

def Issued (s : State) (e nr : Nat) : Prop := ∀ n, 1 ≤ n → n ≤ nr → s.works ⟨e,n⟩ ≠ none

structure Inv (g : Config) (ws : List Work) (s : State) : Prop where
  stored : Truthful g s
  shown : ∀ e nr, s.mm.shown e = some nr → Covered g s e nr
  sent : ∀ c l, s.works c = some l → ∀ w ∈ l, w ∈ ws ∨ Sent w (s.shard (w.num % g.shards))
  last : ∀ e nr, s.lastCommit e = some nr → Issued s e nr
  fresh : ∀ e n, s.made e < n → s.works ⟨e,n⟩ = none
  direct : g.parallel = false → ∀ k, (s.shard k).queue = []
  seen : ∀ e, s.head e ≤ s.made e

structure Kept (s t : State) : Prop where
  works : t.works = s.works
  made : t.made = s.made
  done : ∀ k w, w ∈ (s.shard k).done → w ∈ (t.shard k).done
  settled : ∀ k w, Settled w (s.shard k) → Settled w (t.shard k)
  last : ∀ e, t.lastCommit e = s.lastCommit e ∨ t.lastCommit e = none

def Framed (F : State → Prop) : Prop := ∀ s t, Kept s t → F s → F t

theorem keptSame {s t : State} (works : t.works = s.works) (made : t.made = s.made)
    (shard : t.shard = s.shard) (last : t.lastCommit = s.lastCommit) : Kept s t :=
  ⟨works,made,fun k w mem => by rw [shard]; exact mem,fun k w mem => by rw [shard]; exact mem,
    fun e => Or.inl (by rw [last])⟩

theorem framedAnd {F G : State → Prop} (left : Framed F) (right : Framed G) :
    Framed (fun s => F s ∧ G s) :=
  fun s t kept holds => ⟨left s t kept holds.1,right s t kept holds.2⟩

theorem framedTrue : Framed (fun _ => True) := fun _ _ _ _ => trivial

theorem coveredFramed (e nr : Nat) : Framed (fun s => Covered g s e nr) := by
  intro s t kept covered n low high
  obtain ⟨ws,issued,done⟩ := covered n low high
  exact ⟨ws,by rw [kept.works]; exact issued,fun w mem => kept.done _ w (done w mem)⟩

theorem setSelf {β : Type} (f : Nat → β) (k : Nat) (v : β) : set f k v k = v := by simp [set]

theorem setOther {β : Type} (f : Nat → β) {j k : Nat} (v : β) (other : j ≠ k) :
    set f k v j = f j := by simp [set,other]

theorem shardKept {s : State} {k : Nat} {v : Worker Work}
    (done : ∀ w, w ∈ (s.shard k).done → w ∈ v.done)
    (settled : ∀ w, Settled w (s.shard k) → Settled w v) :
    Kept s { s with shard := set s.shard k v } := by
  refine ⟨rfl,rfl,fun j w mem => ?_,fun j w mem => ?_,fun _ => Or.inl rfl⟩
  all_goals rcases eq_or_ne j k with same | other
  · subst same
    simp only [setSelf]
    exact done w mem
  · simp only [setOther s.shard v other]
    exact mem
  · subst same
    simp only [setSelf]
    exact settled w mem
  · simp only [setOther s.shard v other]
    exact mem

theorem invShard {ws : List Work} {s : State} {k : Nat} {v : Worker Work} (inv : Inv g ws s)
    (done : ∀ w, w ∈ (s.shard k).done → w ∈ v.done)
    (settled : ∀ w, Settled w (s.shard k) → Settled w v) (sent : ∀ w, Sent w (s.shard k) → Sent w v)
    (direct : g.parallel = false → v.queue = []) :
    Inv g ws { s with shard := set s.shard k v } := by
  have kept := shardKept (s := s) done settled
  refine ⟨fun e nr stored => coveredFramed e nr _ _ kept (inv.stored e nr stored),
    fun e nr shown => coveredFramed e nr _ _ kept (inv.shown e nr shown),
    fun c l issued w mem => ?_,inv.last,inv.fresh,fun local_ j => ?_,inv.seen⟩
  · rcases inv.sent c l issued w mem with waiting | out
    · exact Or.inl waiting
    · refine Or.inr ?_
      rcases eq_or_ne (w.num % g.shards) k with same | other
      · rw [same] at out ⊢
        simp only [setSelf]
        exact sent w out
      · simp only [setOther s.shard v other]
        exact out
  · rcases eq_or_ne j k with same | other
    · subst same
      simp only [setSelf]
      exact direct local_
    · simp only [setOther s.shard v other]
      exact inv.direct local_ j

theorem worksKept {s t : State} (step : Works s t) : Kept s t := by
  obtain ⟨k,v,take,rfl⟩ := step
  exact shardKept (fun w mem => doneTake take mem) fun w mem => settledTake take mem

theorem worksInv {ws : List Work} {s t : State} (inv : Inv g ws s) (step : Works s t) :
    Inv g ws t := by
  obtain ⟨k,v,take,rfl⟩ := step
  refine invShard inv (fun w mem => doneTake take mem) (fun w mem => settledTake take mem)
    (fun w out => sentTake take out) ?_
  intro local_
  simp [Worker.take,inv.direct local_ k] at take

theorem stableFramed {F : State → Prop} (framed : Framed F) (ws : List Work) :
    (system g).Stable (fun s => Inv g ws s ∧ F s) :=
  ⟨fun holds step => ⟨worksInv holds.1 step,framed _ _ (worksKept step) holds.2⟩,
    fun holds => holds.1.stored⟩

theorem invSame {ws : List Work} {s t : State} (inv : Inv g ws s) (shard : t.shard = s.shard)
    (works : t.works = s.works) (mm : t.mm = s.mm) (last : t.lastCommit = s.lastCommit)
    (made : t.made = s.made) (seen : ∀ e, t.head e ≤ t.made e) : Inv g ws t := by
  have kept := keptSame works made shard last
  refine ⟨fun e nr stored => coveredFramed e nr s t kept (inv.stored e nr (by rw [← mm]; exact stored)),
    fun e nr shown => coveredFramed e nr s t kept (inv.shown e nr (by rw [← mm]; exact shown)),
    ?_,?_,?_,?_,seen⟩
  · rw [works,shard]
    exact inv.sent
  · unfold Issued
    rw [works,last]
    exact inv.last
  · rw [works,made]
    exact inv.fresh
  · rw [shard]
    exact inv.direct

def Micro.Quiet : Micro → Prop
  | idxInit | close | openEpoch _ | imBarrier | imDone | overCommit | epochMaxIs _ | ipcWaitAll _ =>
    True
  | _ => False

theorem quietStep {m : Micro} {s t : State} (quiet : m.Quiet) (exec : m.exec g s = some t) :
    t.shard = s.shard ∧ t.works = s.works ∧ t.mm = s.mm ∧ t.lastCommit = s.lastCommit ∧
      t.made = s.made ∧ (t.head = s.head ∨ t.head = s.made) := by
  cases m with
  | ipcWaitAll k =>
    simp only [Micro.exec] at exec
    split at exec
    · cases exec
      exact ⟨rfl,rfl,rfl,rfl,rfl,Or.inl rfl⟩
    · cases exec
  | imBarrier | imDone =>
    cases exec
    refine ⟨rfl,rfl,rfl,rfl,rfl,?_⟩
    simp only
    split
    · exact Or.inr rfl
    · exact Or.inl rfl
  | idxInit | close | openEpoch | overCommit | epochMaxIs =>
    cases exec
    exact ⟨rfl,rfl,rfl,rfl,rfl,Or.inl rfl⟩
  | gitCommit | setLast | overview | ipcDo | mmCommit | mmRollback | setLastCommits
  | lastEpochCommit | fetch => exact absurd quiet id

theorem quietOutline {F : State → Prop} (framed : Framed F) {v : List Work} {m : Micro}
    (quiet : m.Quiet) :
    (system g).Outline (fun s => Inv g v s ∧ F s) [m] (fun s => Inv g v s ∧ F s) := by
  refine outlineOne (stableFramed framed v) (stableFramed framed v) fun {s t} holds exec => ?_
  obtain ⟨shard,works,mm,last,made,head⟩ := quietStep quiet exec
  have seen : ∀ e, t.head e ≤ t.made e := by
    intro e
    rw [made]
    rcases head with same | all
    · rw [same]
      exact holds.1.seen e
    · exact Nat.le_of_eq (congrFun all e)
  exact ⟨invSame holds.1 shard works mm last made seen,
    framed s t (keptSame works made shard last) holds.2⟩

theorem mmCommitOutline {F : State → Prop} (framed : Framed F) {v : List Work} :
    (system g).Outline (fun s => Inv g v s ∧ F s) [.mmCommit] (fun s => Inv g v s ∧ F s) := by
  refine outlineOne (stableFramed framed v) (stableFramed framed v) fun {s t} holds exec => ?_
  cases exec
  have inv := holds.1
  exact ⟨⟨inv.shown,inv.shown,inv.sent,inv.last,inv.fresh,inv.direct,inv.seen⟩,
    framed s _ (keptSame rfl rfl rfl rfl) holds.2⟩

theorem mmRollbackOutline {F : State → Prop} (framed : Framed F) {v : List Work} :
    (system g).Outline (fun s => Inv g v s ∧ F s) [.mmRollback] (fun s => Inv g v s ∧ F s) := by
  refine outlineOne (stableFramed framed v) (stableFramed framed v) fun {s t} holds exec => ?_
  cases exec
  have inv := holds.1
  exact ⟨⟨inv.stored,inv.stored,inv.sent,inv.last,inv.fresh,inv.direct,inv.seen⟩,
    framed s _ (keptSame rfl rfl rfl rfl) holds.2⟩

theorem ipcDoStep {ws : List Work} {s : State} (inv : Inv g ws s) (k : Nat) (r : Request Work) :
    Inv g ws (ipcDo g k r s) ∧ Kept s (ipcDo g k r s) := by
  unfold ipcDo
  cases mode : g.parallel with
  | true => exact ⟨invShard inv (fun _ mem => mem) (fun _ mem => settledPush mem)
      (fun _ out => sentPush out) (by simp [mode]),
      shardKept (fun _ mem => mem) fun _ mem => settledPush mem⟩
  | false =>
    refine ⟨invShard inv (fun _ mem => doneRun r mem) (fun _ mem => settledRun r mem)
      (fun _ out => sentRun r out) fun _ => ?_,
      shardKept (fun _ mem => doneRun r mem) fun _ mem => settledRun r mem⟩
    cases r <;> exact inv.direct mode k

theorem ipcDoOutline {F : State → Prop} (framed : Framed F) {ws : List Work} (k : Nat)
    (r : Request Work) :
    (system g).Outline (fun s => Inv g ws s ∧ F s) [.ipcDo k r] (fun s => Inv g ws s ∧ F s) := by
  refine outlineOne (stableFramed framed ws) (stableFramed framed ws) fun {s t} holds exec => ?_
  cases exec
  obtain ⟨inv,kept⟩ := ipcDoStep holds.1 k r
  exact ⟨inv,framed _ _ kept holds.2⟩

theorem sendOutline {F : State → Prop} (framed : Framed F) {ws : List Work} (w : Work) :
    (system g).Outline (fun s => Inv g (w :: ws) s ∧ F s) [send g w]
      (fun s => Inv g ws s ∧ F s) := by
  refine outlineOne (stableFramed framed _) (stableFramed framed ws) fun {s t} holds exec => ?_
  cases exec
  obtain ⟨inv,kept⟩ := ipcDoStep holds.1 (w.num % g.shards) (.work w)
  refine ⟨⟨inv.stored,inv.shown,fun c l issued v mem => ?_,inv.last,inv.fresh,inv.direct,inv.seen⟩,
    framed _ _ kept holds.2⟩
  rcases inv.sent c l issued v mem with waiting | out
  · rcases List.mem_cons.mp waiting with rfl | waiting
    · refine Or.inr ?_
      simp only [ipcDo,setSelf]
      split
      · exact sentNow v _
      · exact sentHere v _
    · exact Or.inl waiting
  · exact Or.inr out

theorem sendsOutline {F : State → Prop} (framed : Framed F) {ws : List Work} (vs : List Work) :
    (system g).Outline (fun s => Inv g (vs ++ ws) s ∧ F s) (vs.map (send g))
      (fun s => Inv g ws s ∧ F s) := by
  induction vs with
  | nil => exact outlineStay (stableFramed framed ws)
  | cons v vs ih => exact outlineAppend (sendOutline framed v) ih

theorem gitCommitStep {s t : State} {e : Nat} {ws : List Work} (inv : Inv g [] s)
    (exec : (Micro.gitCommit e ws).exec g s = some t) :
    Inv g ws t ∧ t.made e = s.made e + 1 ∧
      ∀ d n, s.works ⟨d,n⟩ ≠ none ∨ (d = e ∧ n = s.made e + 1) → t.works ⟨d,n⟩ ≠ none := by
  cases exec
  have newWorks : ∀ c, s.works c ≠ none → recordWorks s.works ⟨e,s.made e + 1⟩ ws c = s.works c := by
    intro c known
    have other : c ≠ ⟨e,s.made e + 1⟩ := fun same => known (same ▸ inv.fresh e _ (by omega))
    simp [recordWorks,other]
  have covered : ∀ d nr, Covered g s d nr →
      Covered g { s with
        made := set s.made e (s.made e + 1)
        works := recordWorks s.works ⟨e,s.made e + 1⟩ ws } d nr := by
    intro d nr cov n low high
    obtain ⟨l,issued,done⟩ := cov n low high
    exact ⟨l,by simp only; rw [newWorks _ (by simp [issued])]; exact issued,done⟩
  refine ⟨⟨fun d nr stored => covered d nr (inv.stored d nr stored),
    fun d nr shown => covered d nr (inv.shown d nr shown),fun c l issued w mem => ?_,
    fun d nr last n low high => ?_,fun d n high => ?_,inv.direct,fun d => ?_⟩,by simp [setSelf],?_⟩
  · simp only [recordWorks] at issued
    split at issued
    · rw [inv.fresh e _ (by omega)] at issued
      cases issued
      exact Or.inl (by simpa using mem)
    · exact (inv.sent c l issued w mem).elim (by simp) Or.inr
  · simp only
    rw [newWorks _ (inv.last d nr last n low high)]
    exact inv.last d nr last n low high
  · simp only at high ⊢
    rcases eq_or_ne d e with same | other
    · subst same
      rw [setSelf] at high
      simp only [recordWorks]
      rw [if_neg (by simp; omega)]
      exact inv.fresh d n (by omega)
    · rw [setOther _ _ other] at high
      simp only [recordWorks]
      rw [if_neg (by simp [other])]
      exact inv.fresh d n high
  · have seen := inv.seen d
    simp only [set]
    split
    · rename_i same
      rw [← same]
      omega
    · exact seen
  · intro d n known
    rcases known with old | ⟨rfl,rfl⟩
    · simp only
      rw [newWorks _ old]
      exact old
    · simp [recordWorks]

end PublicInbox.Checkpoint
