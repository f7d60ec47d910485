import PublicInbox.Checkpoint.Steps

/-! A recorded last_xap is true at every crash point of a run in which last_commit is only
recorded by a checkpoint that waits, and index_sync finds nothing to send to a shard. -/
namespace PublicInbox.Checkpoint
open Fifo Interference

variable {g : Config} {F : State → Prop}

def Flushed (g : Config) (n : Nat) (s : State) : Prop :=
  ∀ c l, s.works c = some l → ∀ w ∈ l, w.num % g.shards < n →
    Settled w (s.shard (w.num % g.shards))

def Drained (g : Config) (n : Nat) (s : State) : Prop :=
  ∀ c l, s.works c = some l → ∀ w ∈ l, w.num % g.shards < n →
    w ∈ (s.shard (w.num % g.shards)).done

theorem flushedFramed (n : Nat) : Framed (Flushed g n) := by
  intro s t kept flushed c l issued w mem below
  exact kept.settled _ w (flushed c l (by rw [← kept.works]; exact issued) w mem below)

theorem drainedFramed (n : Nat) : Framed (Drained g n) := by
  intro s t kept drained c l issued w mem below
  exact kept.done _ w (drained c l (by rw [← kept.works]; exact issued) w mem below)

theorem flushStep {s t : State} {k : Nat} (inv : Inv g [] s) (flushed : Flushed g k s)
    (exec : (Micro.ipcDo k .flush).exec g s = some t) : Flushed g (k + 1) t := by
  cases exec
  have kept := (ipcDoStep inv k .flush).2
  intro c l issued w mem below
  rcases Nat.lt_succ_iff_lt_or_eq.mp below with earlier | here
  · exact kept.settled _ w (flushed c l issued w mem earlier)
  · have out : Sent w (s.shard k) := by
      rcases inv.sent c l issued w mem with none | out
      · cases none
      · exact here ▸ out
    rw [here]
    simp only [ipcDo,setSelf]
    split
    · exact settledFlush out
    · rename_i direct
      exact Or.inl (sentDone out (inv.direct (by simpa using direct) k))

theorem flushOutline (framed : Framed F) (n : Nat) :
    (system g).Outline (fun s => Inv g [] s ∧ F s)
      ((List.range n).map (fun k => .ipcDo k .flush))
      (fun s => Inv g [] s ∧ (F s ∧ Flushed g n s)) := by
  have stable := fun n => stableFramed (g := g) (framedAnd framed (flushedFramed (g := g) n)) []
  induction n with
  | zero =>
    exact .nil (stableFramed framed []) (stable 0)
      fun holds => ⟨holds.1,holds.2,fun _ _ _ _ _ below => absurd below (by omega)⟩
  | succ n ih =>
    rw [List.range_succ,List.map_append]
    refine outlineAppend ih (outlineOne (stable n) (stable (n + 1)) fun {s t} holds exec => ?_)
    obtain ⟨inv,rest,flushed⟩ := holds
    have next := flushStep inv flushed exec
    cases exec
    obtain ⟨after,kept⟩ := ipcDoStep inv n .flush
    exact ⟨after,framed _ _ kept rest,next⟩

theorem waitOutline (framed : Framed F) (n : Nat) :
    (system g).Outline (fun s => Inv g [] s ∧ (F s ∧ Flushed g g.shards s))
      ((List.range n).map .ipcWaitAll)
      (fun s => Inv g [] s ∧ (F s ∧ Flushed g g.shards s) ∧ Drained g n s) := by
  have flushed := framedAnd framed (flushedFramed (g := g) g.shards)
  have stable := fun n => stableFramed (g := g) (framedAnd flushed (drainedFramed (g := g) n)) []
  induction n with
  | zero =>
    exact .nil (stableFramed flushed []) (stable 0)
      fun holds => ⟨holds.1,holds.2,fun _ _ _ _ _ below => absurd below (by omega)⟩
  | succ n ih =>
    rw [List.range_succ,List.map_append]
    refine outlineAppend ih (outlineOne (stable n) (stable (n + 1)) fun {s t} holds exec => ?_)
    simp only [system,Micro.exec] at exec
    split at exec
    · rename_i empty
      cases exec
      obtain ⟨inv,rest,drained⟩ := holds
      refine ⟨inv,rest,fun c l issued w mem below => ?_⟩
      rcases Nat.lt_succ_iff_lt_or_eq.mp below with earlier | here
      · exact drained c l issued w mem earlier
      · have settled := rest.2 c l issued w mem (Nat.mod_lt _ g.some)
        rw [here] at settled ⊢
        exact settledDone settled empty
    · cases exec

def Recordable (g : Config) (s : State) : Prop :=
  ∀ e nr, s.lastCommit e = some nr → Covered g s e nr

theorem recordableFramed : Framed (Recordable g) := by
  intro s t kept recordable e nr last
  rcases kept.last e with same | none
  · exact coveredFramed e nr s t kept (recordable e nr (by rw [← same]; exact last))
  · rw [none] at last
    cases last

theorem drainedRecordable {s : State} (inv : Inv g [] s) (drained : Drained g g.shards s) :
    Recordable g s := by
  intro e nr last n low high
  obtain ⟨l,issued⟩ := Option.ne_none_iff_exists'.mp (inv.last e nr last n low high)
  exact ⟨l,issued,fun w mem => drained _ l issued w mem (Nat.mod_lt _ g.some)⟩

theorem setLastCommitsOutline (framed : Framed F) (m : Option Nat) :
    (system g).Outline (fun s => Inv g [] s ∧ (F s ∧ Recordable g s)) [.setLastCommits m]
      (fun s => Inv g [] s ∧ F s) := by
  refine outlineOne (stableFramed (framedAnd framed recordableFramed) []) (stableFramed framed [])
    fun {s t} holds exec => ?_
  cases exec
  obtain ⟨inv,rest,recordable⟩ := holds
  cases m with
  | none => exact ⟨inv,rest⟩
  | some m =>
    have kept : Kept s (setLastCommits (some m) s) := by
      refine ⟨rfl,rfl,fun _ _ mem => mem,fun _ _ mem => mem,fun e => ?_⟩
      simp only [setLastCommits]
      split
      · exact Or.inr rfl
      · exact Or.inl rfl
    refine ⟨⟨inv.stored,fun e nr shown => ?_,inv.sent,fun e nr last => ?_,inv.fresh,
      inv.direct,inv.seen⟩,
      framed _ _ kept rest⟩
    · simp only [setLastCommits,Txn.write] at shown
      split at shown
      · cases last : s.lastCommit e with
        | none =>
          rw [last,Option.none_or] at shown
          exact inv.shown e nr shown
        | some c =>
          rw [last,Option.some_or] at shown
          exact recordable e nr (last.trans shown)
      · exact inv.shown e nr shown
    · simp only [setLastCommits] at last
      split at last
      · cases last
      · exact inv.last e nr last

def Calm (g : Config) (s : State) : Prop := g.parallel = true → ∀ e, s.lastCommit e = none

theorem calmFramed : Framed (Calm g) := by
  intro s t kept calm mode e
  rcases kept.last e with same | none
  · rw [same]
    exact calm mode e
  · exact none

theorem checkpointOutline (framed : Framed F) (active : Bool) (m : Option Nat) (wait : Bool)
    (quiet : wait = true ∨ ∀ s, F s → Calm g s) :
    (system g).Outline (fun s => Inv g [] s ∧ F s) (checkpoint g active m wait)
      (fun s => Inv g [] s ∧ F s) := by
  have barrier := quietOutline (g := g) framed (v := []) (m := .imBarrier) trivial
  cases active with
  | false => exact barrier
  | true =>
    have shards := g.some
    have committed := outlineAppend (mmCommitOutline (g := g) framed (v := []))
      (quietOutline framed (m := .overCommit) trivial)
    have flushed := flushOutline (g := g) framed g.shards
    have settled := framedAnd framed (flushedFramed (g := g) g.shards)
    have record := outlineAppend (setLastCommitsOutline (g := g) framed m)
      (mmCommitOutline framed)
    have here : (system g).Outline (fun s => Inv g [] s ∧ (F s ∧ Flushed g g.shards s))
        ((if wait && g.parallel then (shardNrs g).map .ipcWaitAll else []) ++
          [.setLastCommits m,.mmCommit]) (fun s => Inv g [] s ∧ F s) := by
      cases mode : g.parallel with
      | false =>
        rw [Bool.and_false]
        refine outlineFrom (stableFramed settled []) (fun {s} holds => ⟨holds.1,holds.2.1,?_⟩) record
        refine drainedRecordable holds.1 fun c l issued w mem below => ?_
        exact settledDone (holds.2.2 c l issued w mem below) (holds.1.direct mode _)
      | true => cases wait with
        | true =>
          refine outlineAppend (waitOutline framed g.shards)
            (outlineFrom (stableFramed (framedAnd settled (drainedFramed g.shards)) [])
              (fun {s} holds => ⟨holds.1,holds.2.1.1,?_⟩) record)
          exact drainedRecordable holds.1 holds.2.2
        | false =>
          have calm : ∀ s, F s → Calm g s := by simpa using quiet
          refine outlineFrom (stableFramed settled [])
            (fun {s} holds => ⟨holds.1,holds.2.1,fun e nr last => ?_⟩) record
          rw [calm s holds.2.1 mode e] at last
          cases last
    have whole := outlineAppend barrier (outlineAppend committed (outlineAppend flushed here))
    simpa [checkpoint,shardNrs,List.append_assoc] using whole

theorem idlesOutline (framed : Framed F) (ks : List Nat) :
    (system g).Outline (fun s => Inv g [] s ∧ F s) (ks.map (fun k => .ipcDo k .nop))
      (fun s => Inv g [] s ∧ F s) := by
  induction ks with
  | nil => exact outlineStay (stableFramed framed [])
  | cons k ks ih => exact outlineAppend (ipcDoOutline framed k .nop) ih

theorem stopsOutline (framed : Framed F) (ks : List Nat) :
    (system g).Outline (fun s => Inv g [] s ∧ F s) (ks.map .ipcWaitAll)
      (fun s => Inv g [] s ∧ F s) := by
  induction ks with
  | nil => exact outlineStay (stableFramed framed [])
  | cons k ks ih => exact outlineAppend (quietOutline framed (m := .ipcWaitAll k) trivial) ih

theorem doneOutline (framed : Framed F) (active : Bool) (m : Option Nat)
    (quiet : ∀ s, F s → Calm g s) :
    (system g).Outline (fun s => Inv g [] s ∧ F s) (done g active m)
      (fun s => Inv g [] s ∧ F s) := by
  have front := outlineAppend (quietOutline (g := g) framed (v := []) (m := .imDone) trivial)
    (checkpointOutline framed active m false (Or.inr quiet))
  cases active with
  | false => simpa [done] using front
  | true =>
    have stops : (system g).Outline (fun s => Inv g [] s ∧ F s)
        (if g.parallel then (shardNrs g).map .ipcWaitAll else []) (fun s => Inv g [] s ∧ F s) := by
      split
      · exact stopsOutline framed _
      · exact outlineStay (stableFramed framed [])
    have back := outlineAppend (mmCommitOutline (g := g) framed (v := []))
      (outlineAppend (idlesOutline framed (shardNrs g))
        (outlineAppend stops (quietOutline framed (m := .close) trivial)))
    simpa [done,List.append_assoc] using outlineAppend front back

def Rotates (s : State) (big : Bool) : Prop := s.im = true ∧ s.epochMax ≠ none ∧ big = true

theorem importerOutline (framed : Framed F) (s : State) (big : Bool)
    (quiet : Rotates s big → ∀ t, F t → Calm g t) :
    (system g).Outline (fun t => Inv g [] t ∧ F t) (importer g s big).2
      (fun t => Inv g [] t ∧ F t) := by
  have opened := fun e => quietOutline (g := g) framed (v := []) (m := .openEpoch e) trivial
  unfold importer
  split
  · rename_i e im max
    split
    · rename_i full
      have calm := quiet ⟨im,by simp [max],full⟩
      exact outlineAppend (outlineAppend (quietOutline framed (m := .imDone) trivial)
        (checkpointOutline framed true (some e) false (Or.inr calm))) (opened _)
    · exact outlineStay (stableFramed framed [])
  · split
    · split
      · exact opened _
      · exact opened _
    · exact opened _

def Complete (e nr : Nat) (s : State) : Prop := s.made e + 1 = nr ∧ Issued s e (s.made e)

theorem completeFramed (e nr : Nat) : Framed (Complete e nr) := by
  intro s t kept complete
  unfold Complete Issued
  rw [kept.made,kept.works]
  exact complete

theorem gitCommitOutline (e nr : Nat) (ws : List Work) :
    (system g).Outline (fun s => Inv g [] s ∧ Complete e nr s) [.gitCommit e ws]
      (fun s => Inv g (ws ++ []) s ∧ Complete e (nr + 1) s) := by
  refine outlineOne (stableFramed (completeFramed e nr) []) (stableFramed (completeFramed e _) _)
    fun {s t} holds exec => ?_
  obtain ⟨inv,made,known⟩ := gitCommitStep holds.1 exec
  rw [List.append_nil]
  refine ⟨inv,by rw [made,holds.2.1],fun n low high => known e n ?_⟩
  rcases Nat.lt_or_ge (s.made e) n with new | old
  · exact Or.inr ⟨rfl,by omega⟩
  · exact Or.inl (holds.2.2 n low old)

theorem setLastOutline {ws : List Work} (e nr : Nat) :
    (system g).Outline (fun s => Inv g ws s ∧ Complete e (nr + 1) s) [.setLast e nr]
      (fun s => Inv g ws s ∧ Complete e (nr + 1) s) := by
  refine outlineOne (stableFramed (completeFramed e _) ws) (stableFramed (completeFramed e _) ws)
    fun {s t} holds exec => ?_
  cases exec
  obtain ⟨inv,made,issued⟩ := holds
  refine ⟨⟨inv.stored,inv.shown,inv.sent,fun d n last => ?_,inv.fresh,inv.direct,inv.seen⟩,made,issued⟩
  rcases eq_or_ne d e with same | other
  · subst same
    simp only [setSelf,Option.some.injEq] at last
    rw [← last,show nr = s.made d by omega]
    exact issued
  · simp only [setOther s.lastCommit _ other] at last
    exact inv.last d n last

theorem overviewOutline {ws : List Work} (e nr : Nat) (low : 1 ≤ nr) :
    (system g).Outline (fun s => Inv g ws s ∧ Complete e (nr + 1) s) [.overview ⟨e,nr⟩ []]
      (fun s => Inv g ws s ∧ Complete e (nr + 1) s) := by
  refine outlineOne (stableFramed (completeFramed e _) ws) (stableFramed (completeFramed e _) ws)
    fun {s t} holds exec => ?_
  cases exec
  obtain ⟨inv,made,issued⟩ := holds
  obtain ⟨l,known⟩ := Option.ne_none_iff_exists'.mp (issued nr low (by omega))
  have same : recordWorks s.works ⟨e,nr⟩ [] = s.works := by
    funext c
    simp only [recordWorks]
    split
    · rename_i here
      rw [here,known]
      simp
    · rfl
  refine ⟨invSame inv rfl ?_ rfl rfl rfl inv.seen,made,?_⟩
  · exact same
  · unfold Issued
    simp only [same]
    exact issued

theorem removalsOutline (e : Nat) (found : List (List Nat)) (nr : Nat) :
    (system g).Outline (fun s => Inv g [] s ∧ Complete e nr s) (removals g e nr found)
      (fun s => Inv g [] s ∧ Complete e (nr + found.length) s) := by
  induction found generalizing nr with
  | nil => exact outlineStay (stableFramed (completeFramed e nr) [])
  | cons nums found ih =>
    have rest := ih (nr + 1)
    rw [show nr + 1 + found.length = nr + (nums :: found).length by simp only [List.length_cons]; omega]
      at rest
    exact outlineAppend (outlineAppend (gitCommitOutline e nr _)
      (sendsOutline (completeFramed e (nr + 1)) _)) rest

theorem lastEpochCommitOutline (framed : Framed F) (e nr : Nat)
    (covered : ∀ s, F s → Covered g s e nr) :
    (system g).Outline (fun s => Inv g [] s ∧ F s) [.lastEpochCommit e nr]
      (fun s => Inv g [] s ∧ F s) := by
  refine outlineOne (stableFramed framed []) (stableFramed framed []) fun {s t} holds exec => ?_
  cases exec
  have inv := holds.1
  refine ⟨⟨inv.stored,fun d n shown => ?_,inv.sent,inv.last,inv.fresh,inv.direct,inv.seen⟩,
    framed s _ (keptSame rfl rfl rfl rfl) holds.2⟩
  simp only [Txn.write,set] at shown
  split at shown
  · rename_i same
    cases shown
    rw [same]
    exact covered s holds.2
  · exact inv.shown d n shown

/- What index_sync counts on for an epoch it has not come to: it is covered up to the recorded
commit, and nothing is known of the commits behind that. -/
def Awaits (g : Config) (start : State) (es : List Nat) (s : State) : Prop :=
  (∀ d, start.head d ≤ s.made d) ∧ ∀ d ∈ es, Covered g s d ((start.mm.shown d).getD 0) ∧
    ∀ c ∈ range start d, s.works c = none

theorem awaitsFramed (start : State) (es : List Nat) : Framed (Awaits g start es) := by
  intro s t kept awaits
  refine ⟨fun d => by rw [kept.made]; exact awaits.1 d,fun d mem =>
    ⟨coveredFramed d _ s t kept (awaits.2 d mem).1,fun c inside => ?_⟩⟩
  rw [kept.works]
  exact (awaits.2 d mem).2 c inside

theorem emptyStep {s t : State} {c : Commit} (inv : Inv g [] s) (new : s.works c = none)
    (made : c.nr ≤ s.made c.epoch) (exec : (Micro.overview c []).exec g s = some t) :
    Inv g [] t ∧ t.works c = some [] ∧ (∀ d, d ≠ c → t.works d = s.works d) ∧
      (∀ e nr, Covered g s e nr → Covered g t e nr) ∧ t.made = s.made ∧
      t.lastCommit = s.lastCommit := by
  cases exec
  have here : recordWorks s.works c [] c = some [] := by simp [recordWorks,new]
  have other : ∀ d, d ≠ c → recordWorks s.works c [] d = s.works d := by
    intro d different
    simp [recordWorks,different]
  have covered : ∀ e nr, Covered g s e nr → Covered g { s with
      «over» := s.over.write (c :: ·)
      works := recordWorks s.works c [] } e nr := by
    intro e nr cov n low high
    obtain ⟨l,issued,done⟩ := cov n low high
    refine ⟨l,?_,done⟩
    simp only
    rw [other _ fun same => by rw [same,new] at issued; cases issued]
    exact issued
  refine ⟨⟨fun e nr stored => covered e nr (inv.stored e nr stored),
    fun e nr shown => covered e nr (inv.shown e nr shown),fun d l issued w mem => ?_,
    fun e nr last n low high => ?_,fun e n high => ?_,inv.direct,inv.seen⟩,here,other,covered,rfl,rfl⟩
  · simp only at issued
    rcases eq_or_ne d c with same | different
    · rw [same,here] at issued
      cases issued
      cases mem
    · rw [other d different] at issued
      exact inv.sent d l issued w mem
  · have known := inv.last e nr last n low high
    simp only
    rw [other ⟨e,n⟩ fun same => known (by rw [same]; exact new)]
    exact known
  · simp only at high ⊢
    rw [other]
    · exact inv.fresh e n high
    · intro same
      subst same
      simp only at made
      omega

def Indexing (g : Config) (start : State) (es : List Nat) (e nr k : Nat) (s : State) : Prop :=
  Calm g s ∧ Covered g s e nr ∧
    (∀ c ∈ (List.range' (nr + 1) k).map (Commit.mk e), s.works c = none) ∧ Awaits g start es s

theorem indexingFramed (start : State) (es : List Nat) (e nr k : Nat) :
    Framed (Indexing g start es e nr k) := by
  intro s t kept holds
  refine ⟨calmFramed s t kept holds.1,coveredFramed e nr s t kept holds.2.1,fun c mem => ?_,
    awaitsFramed start es s t kept holds.2.2.2⟩
  rw [kept.works]
  exact holds.2.2.1 c mem

theorem coveredSucc {s : State} {e nr : Nat} (below : Covered g s e nr)
    (next : s.works ⟨e,nr + 1⟩ = some []) : Covered g s e (nr + 1) := by
  intro n low high
  rcases Nat.lt_or_ge nr n with new | old
  · rw [show n = nr + 1 by omega]
    exact ⟨[],next,by simp⟩
  · exact below n low old

theorem indexTodoOutline (start : State) (es : List Nat) (m : Option Nat)
    (asks : Commit → List (Sub × Nat)) (stop : Commit → Bool) {e : Nat} (other : e ∉ es) (k nr : Nat)
    (inside : nr + k ≤ start.head e)
    (nothing : ∀ c ∈ (List.range' (nr + 1) k).map (Commit.mk e), asks c = []) :
    (system g).Outline (fun s => Inv g [] s ∧ Indexing g start es e nr k s)
      (indexTodo g m asks stop ((List.range' (nr + 1) k).map (Commit.mk e)))
      (fun s => Inv g [] s ∧ Indexing g start es e (nr + k) 0 s) := by
  induction k generalizing nr with
  | zero => exact outlineStay (stableFramed (indexingFramed start es e nr 0) [])
  | succ k ih =>
    rw [List.range'_succ,List.map_cons] at nothing ⊢
    have rest := ih (nr + 1) (by omega) fun c mem => nothing c (List.mem_cons_of_mem _ mem)
    rw [show nr + 1 + k = nr + (k + 1) by omega] at rest
    have framed := indexingFramed (g := g) start es e (nr + 1) k
    have row : (system g).Outline
        (fun s => Inv g [] s ∧ Indexing g start es e nr (k + 1) s) [.overview ⟨e,nr + 1⟩ []]
        (fun s => Inv g [] s ∧ Indexing g start es e (nr + 1) k s) := by
      refine outlineOne (stableFramed (indexingFramed start es e nr (k + 1)) [])
        (stableFramed framed []) fun {s t} holds exec => ?_
      obtain ⟨inv,calm,covered,unknown,heads,awaits⟩ := holds
      rw [List.range'_succ,List.map_cons] at unknown
      have made : nr + 1 ≤ s.made e := Nat.le_trans (by omega) (heads e)
      obtain ⟨after,here,same,kept,madeSame,lastSame⟩ :=
        emptyStep inv (unknown _ List.mem_cons_self) made exec
      refine ⟨after,fun mode d => by rw [lastSame]; exact calm mode d,
        coveredSucc (kept e nr covered) here,fun c mem => ?_,fun d => by rw [madeSame]; exact heads d,
        fun d mem => ⟨kept d _ (awaits d mem).1,fun c inRange => ?_⟩⟩
      · rw [same c]
        · exact unknown c (List.mem_cons_of_mem _ mem)
        · intro first
          subst first
          obtain ⟨n,later,same⟩ := List.mem_map.mp mem
          have low := (List.mem_range'_1.mp later).1
          have high := (Commit.mk.inj same).2
          omega
      · rw [same c]
        · exact (awaits d mem).2 c inRange
        · intro first
          subst first
          simp only [range,List.mem_map,Commit.mk.injEq] at inRange
          obtain ⟨_,_,epoch,_⟩ := inRange
          exact other (epoch ▸ mem)
    have stops : (system g).Outline (fun s => Inv g [] s ∧ Indexing g start es e (nr + 1) k s)
        (if stop ⟨e,nr + 1⟩ then
          .lastEpochCommit e (nr + 1) :: done g true m ++ [.idxInit] else [])
        (fun s => Inv g [] s ∧ Indexing g start es e (nr + 1) k s) := by
      split
      · exact outlineAppend (outlineAppend (lastEpochCommitOutline framed e (nr + 1) fun s h => h.2.1)
          (doneOutline framed true m fun s h => h.1)) (quietOutline framed (m := .idxInit) trivial)
      · exact outlineStay (stableFramed framed [])
    have first := outlineAppend row (outlineAppend stops rest)
    have asked := nothing _ List.mem_cons_self
    simpa [indexTodo,asked] using first

theorem indexUnitsOutline (start : State) (m : Option Nat) (asks : Commit → List (Sub × Nat))
    (stop : Commit → Bool) (es : List Nat) (nodup : es.Nodup)
    (nothing : ∀ e ∈ es, ∀ c ∈ range start e, asks c = []) :
    (system g).Outline (fun s => Inv g [] s ∧ (Calm g s ∧ Awaits g start es s))
      (es.flatMap (indexUnit g start m asks stop))
      (fun s => Inv g [] s ∧ (Calm g s ∧ Awaits g start [] s)) := by
  induction es with
  | nil => exact outlineStay (stableFramed (framedAnd calmFramed (awaitsFramed start [])) [])
  | cons e es ih =>
    obtain ⟨other,nodup⟩ := List.nodup_cons.mp nodup
    have rest := ih nodup fun d mem => nothing d (List.mem_cons_of_mem _ mem)
    rw [List.flatMap_cons]
    refine outlineAppend ?_ rest
    have stable := stableFramed (g := g) (framedAnd (calmFramed (g := g))
      (awaitsFramed (g := g) start (e :: es))) []
    have after := framedAnd (calmFramed (g := g)) (awaitsFramed (g := g) start es)
    unfold indexUnit
    split
    · rename_i none
      rw [none]
      exact .nil stable (stableFramed after [])
        fun holds => ⟨holds.1,holds.2.1,holds.2.2.1,fun d mem => holds.2.2.2 d (List.mem_cons_of_mem _ mem)⟩
    · rename_i more
      have long : (start.mm.shown e).getD 0 ≤ start.head e := by
        by_contra short
        exact more (by simp [range,show start.head e - (start.mm.shown e).getD 0 = 0 by omega])
      have todo := indexTodoOutline (g := g) start es m asks stop other
        (start.head e - (start.mm.shown e).getD 0) ((start.mm.shown e).getD 0) (by omega)
        (nothing e List.mem_cons_self)
      rw [show (start.mm.shown e).getD 0 + (start.head e - (start.mm.shown e).getD 0) =
        start.head e by omega] at todo
      have framed := indexingFramed (g := g) start es e (start.head e) 0
      have record := lastEpochCommitOutline framed e (start.head e) fun s h => h.2.1
      refine outlineFrom stable (fun {s} holds => ?_) (outlineAppend todo
        (outlineAppend record (.nil (stableFramed framed []) (stableFramed after [])
          fun holds => ⟨holds.1,holds.2.1,holds.2.2.2.2⟩)))
      have here := holds.2.2.2 e List.mem_cons_self
      exact ⟨holds.1,holds.2.1,here.1,here.2,holds.2.2.1,
        fun d mem => holds.2.2.2 d (List.mem_cons_of_mem _ mem)⟩

def Nothing (s : State) (asks : Commit → List (Sub × Nat)) : Prop :=
  ∀ m, s.maxGitEpoch = some m → ∀ e ≤ m, ∀ c ∈ range s e, asks c = [] ∧ s.works c = none

def Allowed (g : Config) : Op → State → Prop
  | .add none _, _ => True
  | .add (some _) big, s => Issued s (importer g s big).1 (s.made (importer g s big).1) ∧
    (Rotates s big → Calm g s)
  | .remove found big, s =>
    (found ≠ [] → Issued s (importer g s big).1 (s.made (importer g s big).1)) ∧
    (Rotates s big → Calm g s)
  | .checkpoint wait, s => wait = true ∨ s.active = false ∨ Calm g s
  | .done, s => s.active = false ∨ Calm g s
  | .indexSync asks _, s => s.maxGitEpoch = none ∨ Calm g s ∧ Nothing s asks
  | .fetch _ _, _ => True

theorem invStable : (system g).Stable (fun s => Inv g [] s) :=
  ⟨fun inv step => worksInv inv step,fun inv => inv.stored⟩

theorem openOutline (s : State) (big : Bool) (framed : Framed F) :
    (system g).Outline (fun t => Inv g [] t ∧ (F t ∧ (Rotates s big → Calm g t)))
      (.idxInit :: (importer g s big).2) (fun t => Inv g [] t ∧ F t) := by
  have both : Framed (fun t => F t ∧ (Rotates s big → Calm g t)) :=
    framedAnd framed fun a b kept calm rotates => calmFramed a b kept (calm rotates)
  have writes := importerOutline (g := g) both s big fun rotates t holds => holds.2 rotates
  exact outlineTo (outlineAppend (quietOutline both (m := .idxInit) trivial) writes)
    (stableFramed both []) (stableFramed framed []) fun holds => ⟨holds.1,holds.2.1⟩

theorem addOutline (s : State) (n : Nat) (big : Bool) {e : Nat} (epoch : (importer g s big).1 = e) :
    (system g).Outline (fun t => Inv g [] t ∧ (Complete e (s.made e + 1) t ∧
      (Rotates s big → Calm g t))) (add g s (some n) big) (fun t => Inv g [] t) := by
  have framed := completeFramed e (s.made e + 1)
  have sent := completeFramed e (s.made e + 1 + 1)
  have acts := outlineAppend (openOutline (g := g) s big framed) (outlineAppend
    (gitCommitOutline e (s.made e + 1) [⟨.addXapian,n,⟨e,s.made e + 1⟩⟩])
    (outlineAppend (setLastOutline e (s.made e + 1)) (outlineAppend
      (overviewOutline e (s.made e + 1) (by omega)) (sendOutline sent _))))
  have whole := outlineTo acts (stableFramed sent []) invStable fun holds => holds.1
  simpa [add,epoch] using whole

theorem removeOutline (s : State) (found : List (List Nat)) (big : Bool) {e : Nat}
    (epoch : (importer g s big).1 = e) (some : found ≠ []) :
    (system g).Outline (fun t => Inv g [] t ∧ (Complete e (s.made e + 1) t ∧
      (Rotates s big → Calm g t))) (remove g s found big) (fun t => Inv g [] t) := by
  have framed := completeFramed e (s.made e + 1)
  have removed := completeFramed e (s.made e + found.length + 1)
  have commits := removalsOutline (g := g) e found (s.made e + 1)
  rw [show s.made e + 1 + found.length = s.made e + found.length + 1 by omega] at commits
  have acts := outlineAppend (openOutline (g := g) s big framed) (outlineAppend commits
    (setLastOutline e (s.made e + found.length)))
  have whole := outlineTo acts (stableFramed removed []) invStable fun holds => holds.1
  simpa [remove,epoch,some] using whole

theorem indexSyncOutline (s : State) (asks : Commit → List (Sub × Nat)) (stop : Commit → Bool)
    {m : Nat} (max : s.maxGitEpoch = some m) (nothing : Nothing s asks) :
    (system g).Outline (fun t => Inv g [] t ∧ (Calm g t ∧ Awaits g s (List.range (m + 1)) t))
      (indexSync g s asks stop) (fun t => Inv g [] t) := by
  have framed := framedAnd (calmFramed (g := g)) (awaitsFramed (g := g) s (List.range (m + 1)))
  have after := framedAnd (calmFramed (g := g)) (awaitsFramed (g := g) s [])
  have start := outlineAppend (quietOutline (g := g) framed (v := []) (m := .idxInit) trivial)
    (quietOutline framed (m := .epochMaxIs (some m)) trivial)
  have again : (system g).Outline
      (fun t => Inv g [] t ∧ (Calm g t ∧ Awaits g s (List.range (m + 1)) t))
      (if (List.range (m + 1)).all (fun e => range s e = []) then [] else [.mmRollback])
      (fun t => Inv g [] t ∧ (Calm g t ∧ Awaits g s (List.range (m + 1)) t)) := by
    split
    · exact outlineStay (stableFramed framed [])
    · exact mmRollbackOutline framed
  have units := indexUnitsOutline (g := g) s (some m) asks stop (List.range (m + 1))
    List.nodup_range fun e mem c inside =>
      (nothing m max e (by have := List.mem_range.mp mem; omega) c inside).1
  have finish := outlineAppend (doneOutline (g := g) after true (some m) fun s h => h.1)
    (quietOutline after (m := .epochMaxIs s.epochMax) trivial)
  have whole := outlineTo (outlineAppend start (outlineAppend again (outlineAppend units finish)))
    (stableFramed after []) invStable fun holds => holds.1
  simpa [indexSync,max,List.append_assoc] using whole

theorem fetchOutline (e nr : Nat) :
    (system g).Outline (fun s => Inv g [] s) [.fetch e nr] (fun s => Inv g [] s) := by
  refine outlineOne invStable invStable fun {s t} inv exec => ?_
  cases exec
  refine ⟨inv.stored,inv.shown,inv.sent,inv.last,fun d n high => ?_,inv.direct,fun d => ?_⟩
  · simp only [set] at high
    split at high
    · rename_i same
      rw [same]
      exact inv.fresh e n (by omega)
    · exact inv.fresh d n high
  · have seen := inv.seen d
    simp only [set]
    split
    · rename_i same
      rw [same] at seen
      omega
    · exact seen

theorem opOutline (o : Op) (s : State) (inv : Inv g [] s) (may : Allowed g o s) :
    ∃ P, P s ∧ (system g).Outline P (program g o s) (fun s => Inv g [] s) := by
  have plainly : ∀ ms, (system g).Outline (fun t => Inv g [] t ∧ True) ms
      (fun t => Inv g [] t ∧ True) → ∃ P, P s ∧ (system g).Outline P ms (fun s => Inv g [] s) :=
    fun ms acts => ⟨fun t => Inv g [] t ∧ True,⟨inv,trivial⟩,
      outlineTo acts (stableFramed framedTrue []) invStable fun holds => holds.1⟩
  have calmly : Calm g s → ∀ ms, (system g).Outline (fun t => Inv g [] t ∧ Calm g t) ms
      (fun t => Inv g [] t ∧ Calm g t) → ∃ P, P s ∧ (system g).Outline P ms (fun s => Inv g [] s) :=
    fun calm ms acts => ⟨fun t => Inv g [] t ∧ Calm g t,⟨inv,calm⟩,
      outlineTo acts (stableFramed calmFramed []) invStable fun holds => holds.1⟩
  cases o with
  | add num big => cases num with
    | none => exact plainly _ (quietOutline framedTrue (m := .idxInit) trivial)
    | some n =>
      exact ⟨fun t => Inv g [] t ∧ (Complete (importer g s big).1
        (s.made (importer g s big).1 + 1) t ∧ (Rotates s big → Calm g t)),
        ⟨inv,⟨rfl,may.1⟩,may.2⟩,addOutline s n big rfl⟩
  | remove found big =>
    rcases eq_or_ne found [] with none | some
    · subst none
      refine ⟨fun t => Inv g [] t ∧ (True ∧ (Rotates s big → Calm g t)),⟨inv,trivial,may.2⟩,?_⟩
      have whole := outlineTo (openOutline (g := g) s big framedTrue) (stableFramed framedTrue [])
        invStable fun holds => holds.1
      simpa [program,remove,removals] using whole
    · exact ⟨fun t => Inv g [] t ∧ (Complete (importer g s big).1
        (s.made (importer g s big).1 + 1) t ∧ (Rotates s big → Calm g t)),
        ⟨inv,⟨rfl,may.1 some⟩,may.2⟩,removeOutline s found big rfl some⟩
  | checkpoint wait =>
    rcases may with waits | idle | calm
    · exact plainly _ (checkpointOutline framedTrue s.active s.epochMax wait (Or.inl waits))
    · simp only [program,checkpoint,idle]
      exact plainly _ (quietOutline framedTrue (m := .imBarrier) trivial)
    · exact calmly calm _ (checkpointOutline calmFramed s.active s.epochMax wait
        (Or.inr fun _ holds => holds))
  | done =>
    rcases may with idle | calm
    · have steps : program g .done s = [.imDone] ++ [.imBarrier] := by
        simp [program,done,checkpoint,idle]
      rw [steps]
      exact plainly _ (outlineAppend (quietOutline framedTrue (m := .imDone) trivial)
        (quietOutline framedTrue (m := .imBarrier) trivial))
    · exact calmly calm _ (doneOutline calmFramed s.active s.epochMax fun _ holds => holds)
  | indexSync asks stop =>
    cases max : s.maxGitEpoch with
    | none =>
      simp only [program,indexSync,max]
      exact plainly _ (outlineStay (stableFramed framedTrue []))
    | some m =>
      obtain ⟨calm,nothing⟩ := may.resolve_left (by simp [max])
      refine ⟨fun t => Inv g [] t ∧ (Calm g t ∧ Awaits g s (List.range (m + 1)) t),
        ⟨inv,calm,inv.seen,fun d mem => ⟨?_,fun c inside => ?_⟩⟩,
        indexSyncOutline s asks _ max nothing⟩
      · cases shown : s.mm.shown d with
        | none =>
          intro n low high
          simp only [Option.getD_none] at high
          omega
        | some nr => exact inv.shown d nr shown
      · exact (nothing m max d (by have := List.mem_range.mp mem; omega) c inside).2
  | fetch e nr =>
    simp only [program]
    split
    · exact plainly _ (outlineStay (stableFramed framedTrue []))
    · exact ⟨fun t => Inv g [] t,inv,fetchOutline e nr⟩

theorem initInv : Inv g [] State.init where
  stored := by intro e nr stored; cases stored
  shown := by intro e nr shown; cases shown
  sent := by intro c l issued; cases issued
  last := by intro e nr last; cases last
  fresh := fun _ _ _ => rfl
  direct := fun _ _ => rfl
  seen := fun _ => Nat.le_refl _

/- At every crash point of a run of operations that do not run ahead of the shards, what
msgmap stores as last_xap is committed in all of them. -/
theorem lastXapTruthful (cfg : Config) {ms : List Micro} {s : State}
    (reach : (system cfg).Reach (fun o s => Allowed cfg o s) ms s) : Truthful cfg s :=
  reachSafe (y := system cfg) initInv invStable opOutline reach

/- One schedule: none is the next step of the operation, `some k` one of shard `k`. -/
def play (cfg : Config) : List (Option Nat) → List Micro → State → Option (List Micro × State)
  | [], ms, s => some (ms,s)
  | none :: moves, m :: ms, s => (m.exec cfg s).bind (play cfg moves ms)
  | none :: _, [], _ => none
  | some k :: moves, ms, s => (s.shard k).take.bind fun w =>
    play cfg moves ms { s with shard := set s.shard k w }

theorem playReach {allowed : Op → State → Prop} {moves : List (Option Nat)} {ms ns : List Micro}
    {s t : State} (reach : (system g).Reach allowed ms s) (run : play g moves ms s = some (ns,t)) :
    (system g).Reach allowed ns t := by
  induction moves generalizing ms s with
  | nil =>
    cases run
    exact reach
  | cons move moves ih => cases move with
    | none => cases ms with
      | nil => cases run
      | cons m ms =>
        obtain ⟨after,exec,rest⟩ := Option.bind_eq_some_iff.mp run
        exact ih (.step reach exec) rest
    | some k =>
      obtain ⟨w,take,rest⟩ := Option.bind_eq_some_iff.mp run
      exact ih (.env reach ⟨k,w,take,rfl⟩) rest

def perform (cfg : Config) (moves : List (Option Nat)) (o : Op) (s : State) : State :=
  ((play cfg moves (program cfg o s) s).map Prod.snd).getD s

theorem performReach {allowed : Op → State → Prop} {v : List (Option Nat)} {o : Op} {s : State}
    (reach : (system g).Reach allowed [] s) (may : allowed o s)
    (ends : (play g v (program g o s) s).map (fun r => r.1.isEmpty) = some true) :
    (system g).Reach allowed [] (perform g v o s) := by
  obtain ⟨⟨ms,t⟩,run,none⟩ := Option.map_eq_some_iff.mp ends
  rw [List.isEmpty_iff] at none
  simp only at none
  subst none
  have there := playReach (.op o may reach) run
  simpa [perform,run] using there

def soloShard : Config := ⟨1,by decide,true⟩

def delivered : State := perform soloShard (List.replicate 6 none) (.add (some 1) false) .init

/- A delivery, then a checkpoint that does not wait: the pipe still holds everything. -/
theorem checkpointAhead : ¬ ∀ (cfg : Config) (ms : List Micro) (s : State),
    (system cfg).Reach (fun _ _ => True) ms s → Truthful cfg s := by
  intro truthful
  have first : (system soloShard).Reach (fun _ _ => True) [] delivered :=
    performReach .start trivial (by decide)
  have second := performReach (v := List.replicate 6 none) (o := .checkpoint false) first trivial
    (by decide)
  obtain ⟨l,issued,done⟩ := truthful _ _ _ second 0 1 (by decide) 1 (by omega) (by omega)
  cases issued
  exact absurd (done _ List.mem_cons_self) (by decide)

/- The same with a checkpoint that waits, while the shard works off its queue. -/
theorem barrierTruthful :
    let s := perform soloShard [none,none,none,none,some 0,some 0,none,none,none]
      (.checkpoint true) delivered
    s.mm.stored 0 = some 1 ∧ Truthful soloShard s := by
  have first : Allowed soloShard (.add (some 1) false) .init :=
    ⟨fun n low high => absurd (Nat.le_trans low high) (by decide),fun rotates => by cases rotates.1⟩
  have added : (system soloShard).Reach (fun o s => Allowed soloShard o s) [] delivered :=
    performReach .start first (by decide)
  exact ⟨by decide,lastXapTruthful soloShard (performReach added (Or.inl rfl) (by decide))⟩

end PublicInbox.Checkpoint
