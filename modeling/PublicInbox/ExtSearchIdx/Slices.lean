import PublicInbox.ExtSearchIdx.Check

/-! Which articles and which rows a check comes to. A slice ends at its last article, and the
next one reaches no further than its length beyond that. -/
namespace PublicInbox.ExtSearchIdx
open Keyed Ei Check
variable {B M H : Type} [LinearOrder B] [DecidableEq M] [DecidableEq H] {t : Mails B M H} {boost : Boost}
  {w : Around B} {ibx : Inbox B} {fast : Bool}

def Chain.For (ok : Article B → Prop) (c : Chain B M) : Prop := ∃ a : Article B,c.req = a.req ∧ ok a

def Job.For (ok : Article B → Prop) : Job B M → Prop
  | .start a => ok a
  | .compare c _ => c.For ok

def Frame.For (ok : Article B → Prop) : Frame B M → Prop
  | .pushing j => j.For ok
  | .stepping c => c.For ok
  | .draining c _ => c.For ok

structure Asked (ok : Article B → Prop) (v : Pipe B M) : Prop where
  lines : ∀ j ∈ v.fifo,j.For ok
  layers : ∀ f ∈ v.frames,f.For ok

theorem askedTurn {ok : Article B → Prop} {v v' : Pipe B M} {turn : Turn B} (asked : Asked ok v)
    (turned : Turned t boost v turn v') (fresh : ∀ a,turn = .request a → ok a) :
    Asked ok v' ∧ ∀ r,v'.ei.xref3.Has r → v.ei.xref3.Has r ∨ ok r.article := by
  obtain ⟨lines,layers⟩ := asked
  have same : ∀ {u : Pipe B M},u.ei = v.ei → ∀ r,u.ei.xref3.Has r → v.ei.xref3.Has r ∨ ok r.article :=
    fun same r has => Or.inl (same ▸ has)
  have pop : ∀ {j : Job B M} {rest : List (Job B M)},v.fifo = j :: rest → j.For ok ∧ ∀ k ∈ rest,k.For ok := by
    intro j rest first
    rw [first] at lines
    exact ⟨lines j List.mem_cons_self,fun k mem => lines k (List.mem_cons_of_mem _ mem)⟩
  have peel : ∀ {f : Frame B M} {frames : List (Frame B M)},v.frames = f :: frames →
      f.For ok ∧ ∀ g ∈ frames,g.For ok := by
    intro f frames top
    rw [top] at layers
    exact ⟨layers f List.mem_cons_self,fun k mem => layers k (List.mem_cons_of_mem _ mem)⟩
  have onto : ∀ {f : Frame B M} {frames : List (Frame B M)},f.For ok → (∀ g ∈ frames,g.For ok) →
      ∀ g ∈ f :: frames,g.For ok := fun new rest => List.forall_mem_cons.mpr ⟨new,rest⟩
  cases turned with
  | idle => exact ⟨⟨lines,layers⟩,same rfl⟩
  | request free => exact ⟨⟨lines,onto (fresh _ rfl) (fun g mem => absurd mem List.not_mem_nil)⟩,same rfl⟩
  | push top =>
    obtain ⟨own,rest⟩ := peel top
    refine ⟨⟨fun k mem => ?_,rest⟩,same rfl⟩
    rcases List.mem_append.mp mem with old | new
    · exact lines k old
    · rw [List.mem_singleton.mp new]
      exact own
  | started free first =>
    obtain ⟨own,rest⟩ := pop first
    exact ⟨⟨rest,onto ⟨_,rfl,own⟩ layers⟩,same rfl⟩
  | unread first => exact ⟨⟨(pop first).2,layers⟩,same rfl⟩
  | compared free first =>
    obtain ⟨own,rest⟩ := pop first
    refine ⟨⟨rest,onto ?_ layers⟩,same rfl⟩
    change Chain.For ok _
    split
    · exact own
    · exact own
  | bad free first =>
    obtain ⟨own,rest⟩ := pop first
    exact ⟨⟨rest,onto own layers⟩,same rfl⟩
  | missing free first =>
    obtain ⟨own,rest⟩ := pop first
    exact ⟨⟨rest,onto own layers⟩,same rfl⟩
  | looked top next =>
    obtain ⟨own,rest⟩ := peel top
    exact ⟨⟨lines,onto own rest⟩,same rfl⟩
  | finished top next =>
    obtain ⟨⟨a,req,yes⟩,rest⟩ := peel top
    refine ⟨⟨lines,rest⟩,fun r has => ?_⟩
    refine (((finalizeSpec t boost v.ei req).rows r).mp has).imp id ?_
    rintro ⟨d,-,rfl⟩
    exact yes
  | drained top dry =>
    obtain ⟨own,rest⟩ := peel top
    exact ⟨⟨lines,onto own rest⟩,fun r has => Or.inl (blobMissingHas.mp has).1⟩

def Valid (ibx : Inbox B) (a : Article B) : Prop := a.ibxId = ibx.id → ibx.arts.get? a.xnum = some a.oid

structure Grows (ibx : Inbox B) (v v' : Check B M) : Prop where
  unseen : ∀ a ∈ v.unseen,a ∈ v'.unseen
  queued : ∀ x ∈ v.queued,x ∈ v'.queued
  unreffed : ∀ a ∈ v'.unreffed,a ∈ v.unreffed ∨ ¬ Valid ibx a
  asked : Asked (Valid ibx) v.pipe → Asked (Valid ibx) v'.pipe ∧
    ∀ r,¬ Valid ibx r.article → v'.pipe.ei.xref3.Has r → v.pipe.ei.xref3.Has r

section
omit [DecidableEq M]

theorem Grows.refl (v : Check B M) : Grows ibx v v :=
  ⟨fun _ => id,fun _ => id,fun _ => Or.inl,fun asked => ⟨asked,fun _ _ => id⟩⟩

theorem Grows.trans {v v' v'' : Check B M} (one : Grows ibx v v') (two : Grows ibx v' v'') : Grows ibx v v'' := by
  refine ⟨fun a mem => two.unseen a (one.unseen a mem),fun x mem => two.queued x (one.queued x mem),?_,?_⟩
  · intro a mem
    rcases two.unreffed a mem with old | stale
    · exact one.unreffed a old
    · exact Or.inr stale
  · intro asked
    obtain ⟨between,first⟩ := one.asked asked
    obtain ⟨after,second⟩ := two.asked between
    exact ⟨after,fun r stale has => first r stale (second r stale has)⟩

theorem foldGrows {α : Type} {f : Check B M → α → Check B M} {xs : List α}
    (each : ∀ x ∈ xs,∀ v,Grows ibx v (f v x)) (v : Check B M) : Grows ibx v (xs.foldl f v) :=
  Batch.foldAlong (Grows ibx) .refl .trans each v

end

variable (t boost) in
theorem turnsAsked {ok : Article B → Prop} (turns : List (Turn B)) (inside : ∀ turn ∈ turns,Turn.inside turn = true)
    {p : Pipe B M} (asked : Asked ok p) : Asked ok (turns.foldl (Pipe.step t boost) p) ∧
      ∀ r,(turns.foldl (Pipe.step t boost) p).ei.xref3.Has r → p.ei.xref3.Has r ∨ ok r.article := by
  induction turns generalizing p with
  | nil => exact ⟨asked,fun r => Or.inl⟩
  | cons turn turns ih =>
    have fresh : ∀ a,turn = .request a → ok a := by
      rintro a rfl
      exact absurd (inside _ List.mem_cons_self) (by simp [Turn.inside])
    obtain ⟨next,rows⟩ := askedTurn asked (turned t boost p turn) fresh
    obtain ⟨last,more⟩ := ih (fun x mem => inside x (List.mem_cons_of_mem _ mem)) next
    refine ⟨last,fun r has => ?_⟩
    rcases more r has with old | yes
    · exact rows r old
    · exact Or.inr yes

theorem serveGrows (v : Check B M) : Grows ibx v (v.serve t boost w) := by
  refine ⟨fun _ => id,fun _ => id,fun _ => Or.inl,fun asked => ?_⟩
  obtain ⟨after,rows⟩ := turnsAsked t boost ((w.callbacks v.calls).filter Turn.inside)
    (fun turn mem => (List.mem_filter.mp mem).2) asked
  exact ⟨after,fun r stale has => (rows r has).resolve_right stale⟩

theorem reindexUnseenGrows (v : Check B M) {a : Article B} (valid : Valid ibx a) :
    Grows ibx v (v.reindexUnseen t boost w a) := by
  refine Grows.trans ?_ (serveGrows _)
  refine ⟨fun b mem => List.mem_append_left _ mem,fun _ => id,fun _ => Or.inl,fun asked => ?_⟩
  have fresh : ∀ b,Turn.request a = .request b → Valid ibx b := by
    rintro b ⟨⟩
    exact valid
  obtain ⟨after,rows⟩ := askedTurn asked (turned t boost v.pipe (.request a)) fresh
  exact ⟨after,fun r stale has => (rows r has).resolve_right stale⟩

section
omit [DecidableEq M]

theorem queueGrows (a : Article B) (v : Check B M) (docid : Nat) : Grows ibx v (queue a v docid) :=
  ⟨fun _ => id,fun _ mem => List.mem_append_left _ mem,fun _ => Or.inl,
    fun asked => ⟨⟨asked.lines,asked.layers⟩,fun _ _ => id⟩⟩

theorem unrefValid (v : Check B M) {r : Xref3 B} (valid : ibx.arts.get? r.xnum = some r.oidbin) :
    v.unref ibx r = v := by
  have still : stillValid r.oidbin (some ⟨ibx.id,some ibx.arts⟩) (some r.xnum) = true := decide_eq_true valid
  unfold Check.unref unrefDoc
  rw [if_pos still]

theorem unrefStale (v : Check B M) {r : Xref3 B} (stale : ibx.arts.get? r.xnum ≠ some r.oidbin) :
    (v.unref ibx r).unreffed = v.unreffed ++ [r.article] ∧ (v.unref ibx r).unseen = v.unseen ∧
      (v.unref ibx r).queued = v.queued ∧ (v.unref ibx r).pipe.fifo = v.pipe.fifo ∧
      (v.unref ibx r).pipe.frames = v.pipe.frames ∧ ∀ q,(v.unref ibx r).pipe.ei.xref3.Has q ↔
        v.pipe.ei.xref3.Has q ∧ ¬ (q.oidbin = r.oidbin ∧ q.ibxId = ibx.id ∧ q.xnum = r.xnum) := by
  have gone : stillValid r.oidbin (some ⟨ibx.id,some ibx.arts⟩) (some r.xnum) = false := decide_eq_false stale
  unfold Check.unref unrefDoc
  rw [gone]
  refine ⟨rfl,rfl,rfl,rfl,rfl,fun q => ?_⟩
  dsimp only
  rw [if_neg (by simp),unrefRestRows,unrefHas]
  simp [unrefs]

theorem unrefGrows (v : Check B M) {r : Xref3 B} (own : r.ibxId = ibx.id) : Grows ibx v (v.unref ibx r) := by
  by_cases valid : ibx.arts.get? r.xnum = some r.oidbin
  · rw [unrefValid v valid]
    exact .refl v
  · obtain ⟨log,unseen,queued,fifo,frames,rows⟩ := unrefStale v valid
    refine ⟨fun a mem => unseen ▸ mem,fun x mem => queued ▸ mem,fun a mem => ?_,fun asked => ⟨⟨?_,?_⟩,?_⟩⟩
    · rw [log] at mem
      rcases List.mem_append.mp mem with old | new
      · exact Or.inl old
      · rw [List.mem_singleton.mp new]
        exact Or.inr fun good => valid (good own)
    · rw [fifo]
      exact asked.lines
    · rw [frames]
      exact asked.layers
    · exact fun q _ has => ((rows q).mp has).1

theorem dropGrows (msgs : List (Nat × B)) (v : Check B M) {r : Xref3 B} (own : r.ibxId = ibx.id) :
    Grows ibx v (Check.drop ibx msgs v r) := by
  unfold Check.drop
  split
  · split
    · exact .refl v
    · split
      · exact .refl v
      · exact unrefGrows v own
  · exact unrefGrows v own

end

theorem examineGrows (x3 : List (Xref3 B)) (v : Check B M) {msg : Nat × B}
    (valid : ibx.arts.get? msg.1 = some msg.2) : Grows ibx v (examine t boost w ibx fast x3 v msg) := by
  unfold examine
  dsimp only
  split
  · exact reindexUnseenGrows v fun _ => valid
  · split
    · exact .refl v
    · exact foldGrows (fun docid _ u => queueGrows _ u docid) v

section
omit [DecidableEq M]

theorem foldReaches {α : Type} {f : Check B M → α → Check B M} {xs : List α}
    (each : ∀ x ∈ xs,∀ v,Grows ibx v (f v x)) {p : Check B M → Prop}
    (mono : ∀ u u',Asked (Valid ibx) u.pipe → Grows ibx u u' → p u → p u') {x : α} (mem : x ∈ xs)
    (now : ∀ u,Asked (Valid ibx) u.pipe → p (f u x)) {v : Check B M} (asked : Asked (Valid ibx) v.pipe) :
    p (xs.foldl f v) := by
  induction xs generalizing v with
  | nil => exact absurd mem List.not_mem_nil
  | cons y ys ih =>
    have next := ((each y List.mem_cons_self v).asked asked).1
    rcases List.mem_cons.mp mem with rfl | later
    · exact mono _ _ next (foldGrows (fun z inside => each z (List.mem_cons_of_mem _ inside)) _) (now v asked)
    · exact ih (fun z inside => each z (List.mem_cons_of_mem _ inside)) later next

theorem rowsOfMem {v : Check B M} {p : Nat → Bool} {r : Xref3 B} :
    r ∈ v.rowsOf ibx p ↔ v.pipe.ei.xref3.Has r ∧ r.ibxId = ibx.id ∧ p r.xnum = true := by
  unfold rowsOf
  rw [Rel.hasSelect,decide_eq_true_iff]

theorem goneStays {r : Xref3 B} (stale : ¬ Valid ibx r.article) (u u' : Check B M)
    (asked : Asked (Valid ibx) u.pipe) (grows : Grows ibx u u') (gone : ¬ u.pipe.ei.xref3.Has r) :
    ¬ u'.pipe.ei.xref3.Has r := fun has => gone ((grows.asked asked).2 r stale has)

theorem unrefGone {r : Xref3 B} (own : r.ibxId = ibx.id) (stale : ¬ Valid ibx r.article) (u : Check B M) :
    ¬ (u.unref ibx r).pipe.ei.xref3.Has r := by
  have differs : ibx.arts.get? r.xnum ≠ some r.oidbin := fun good => stale fun _ => good
  intro has
  exact (((unrefStale u differs).2.2.2.2.2 r).mp has).2 ⟨rfl,own,rfl⟩

theorem unrefRangeGrows {limit fuel : Nat} {p : Nat → Bool} {v v' : Check B M}
    (run : v.unrefStaleRange w ibx limit p fuel = some v') : Grows ibx v v' :=
  Batch.batchesKeep (Grows ibx) .refl .trans (fun u r mem x => by
    have inside := rowsOfMem.mp ((w.orderPerm _).mem_iff.mp mem)
    exact unrefGrows x inside.2.1) run

end

variable (w) in
omit [DecidableEq M] in
theorem unrefRangeEnd {limit : Nat} (fuel : Nat) (positive : 0 < limit) {p : Nat → Bool}
    (free : ∀ n,p n = true → ibx.arts.get? n = none) {v : Check B M} (asked : Asked (Valid ibx) v.pipe)
    (enough : (v.rowsOf ibx p).length < fuel) :
    ∃ v',v.unrefStaleRange w ibx limit p fuel = some v' ∧
      ∀ r,v'.pipe.ei.xref3.Has r → r.ibxId = ibx.id → p r.xnum = false := by
  have inside : ∀ {u : Check B M} {r : Xref3 B},r ∈ w.order (u.rowsOf ibx p) →
      r.ibxId = ibx.id ∧ p r.xnum = true ∧ u.pipe.ei.xref3.Has r := by
    intro u r mem
    have own := rowsOfMem.mp ((w.orderPerm _).mem_iff.mp mem)
    exact ⟨own.2.1,own.2.2,own.1⟩
  have stale : ∀ {r : Xref3 B},r.ibxId = ibx.id → p r.xnum = true → ¬ Valid ibx r.article := by
    intro r own range valid
    have there := valid own
    change ibx.arts.get? r.xnum = some r.oidbin at there
    rw [free r.xnum range] at there
    contradiction
  obtain ⟨v',run,none,-⟩ := Batch.batchesEnd (fun u => w.order (u.rowsOf ibx p))
    (Check.unref ibx) (fun u => Asked (Valid ibx) u.pipe) positive
    (fun u => (w.orderPerm _).nodup_iff.mpr (Rel.selectNodup _ _))
    (fun u r mem x asked => ((unrefGrows x (inside mem).1).asked asked).1)
    (fun u asked xs from_ y mem => by
      obtain ⟨own,range,has⟩ := inside mem
      have grows : Grows ibx u (xs.foldl (Check.unref ibx) u) :=
        foldGrows (fun x mem z => unrefGrows z (inside (from_ x mem)).1) u
      have before := (grows.asked asked).2 y (stale own range) has
      refine ⟨(w.orderPerm _).mem_iff.mpr (rowsOfMem.mpr ⟨before,own,range⟩),fun among => ?_⟩
      exact foldReaches (fun x mem z => unrefGrows z (inside (from_ x mem)).1)
        (goneStays (stale own range)) among (fun u _ => unrefGone own (stale own range) u) asked has)
    asked (by rwa [(w.orderPerm _).length_eq])
  refine ⟨v',run,fun r has own => ?_⟩
  cases range : p r.xnum with
  | false => rfl
  | true =>
    have mem := (w.orderPerm _).mem_iff.mpr (rowsOfMem.mpr ⟨has,own,range⟩)
    rw [none] at mem
    exact absurd mem List.not_mem_nil

def Examined (v : Check B M) (a : Article B) : Prop := a ∈ v.unseen ∨ ∃ docid,(a,docid) ∈ v.queued

omit [DecidableEq M] in
theorem Grows.examined {v v' : Check B M} (grows : Grows ibx v v') {a : Article B} (done : Examined v a) :
    Examined v' a :=
  done.imp (grows.unseen a) fun found => found.imp fun _ mem => grows.queued _ mem

theorem examineNow (x3 : List (Xref3 B)) (v : Check B M) (msg : Nat × B) :
    Examined (examine t boost w ibx false x3 v msg) ⟨ibx.id,msg.1,msg.2⟩ := by
  unfold examine
  dsimp only
  generalize (x3.filter (fun r => r.article = (⟨ibx.id,msg.1,msg.2⟩ : Article B))).map Xref3.docid = docids
  cases docids with
  | nil => exact Or.inl (List.mem_append_right _ List.mem_cons_self)
  | cons docid docids =>
    have more : Grows ibx _ (docids.foldl (queue ⟨ibx.id,msg.1,msg.2⟩) (queue ⟨ibx.id,msg.1,msg.2⟩ v docid)) :=
      foldGrows (fun d _ u => queueGrows ⟨ibx.id,msg.1,msg.2⟩ u d) _
    exact Or.inr ⟨docid,more.queued _ (List.mem_append_right _ List.mem_cons_self)⟩

section slice
variable {msgs : List (Nat × B)} {lo hi : Nat}

omit [DecidableEq M] in
theorem leftoverOwn {v : Check B M} {p : Nat → Bool} {r : Xref3 B}
    (mem : r ∈ w.order (leftover msgs (v.rowsOf ibx p))) : r.ibxId = ibx.id :=
  (rowsOfMem.mp (List.mem_filter.mp ((w.orderPerm _).mem_iff.mp mem)).1).2.1

omit [DecidableEq M] in
theorem dropsGrows (v u : Check B M) (p : Nat → Bool) :
    Grows ibx u ((w.order (leftover msgs (v.rowsOf ibx p))).foldl (Check.drop ibx msgs) u) :=
  foldGrows (fun _ mem u => dropGrows msgs u (leftoverOwn mem)) u

theorem sliceGrows (inside : ∀ msg ∈ msgs,ibx.arts.get? msg.1 = some msg.2) (v : Check B M) :
    Grows ibx v (v.slice t boost w ibx fast msgs lo hi) := by
  have examined : Grows ibx v (msgs.foldl (examine t boost w ibx fast (v.rowsOf ibx (fun x => lo ≤ x ∧ x ≤ hi))) v) :=
    foldGrows (fun msg mem u => examineGrows _ u (inside msg mem)) v
  unfold Check.slice
  dsimp only
  split
  · exact examined
  · exact (examined.trans (serveGrows _)).trans (dropsGrows v _ _)

theorem sliceExamines (inside : ∀ msg ∈ msgs,ibx.arts.get? msg.1 = some msg.2) {v : Check B M}
    (asked : Asked (Valid ibx) v.pipe) {msg : Nat × B} (mem : msg ∈ msgs) :
    Examined (v.slice t boost w ibx false msgs lo hi) ⟨ibx.id,msg.1,msg.2⟩ := by
  have examined : Examined (msgs.foldl (examine t boost w ibx false (v.rowsOf ibx (fun x => lo ≤ x ∧ x ≤ hi))) v)
      ⟨ibx.id,msg.1,msg.2⟩ :=
    foldReaches (fun msg mem u => examineGrows _ u (inside msg mem)) (fun u u' _ grows => grows.examined) mem
      (fun u _ => examineNow _ u msg) asked
  unfold Check.slice
  dsimp only
  split
  · exact examined
  · have served : Grows ibx _ ((msgs.foldl (examine t boost w ibx false
        (v.rowsOf ibx (fun x => lo ≤ x ∧ x ≤ hi))) v).serve t boost w) := serveGrows _
    exact (served.trans (dropsGrows v _ _)).examined examined

theorem sliceClears (inside : ∀ msg ∈ msgs,ibx.arts.get? msg.1 = some msg.2) {v : Check B M}
    (asked : Asked (Valid ibx) v.pipe) {r : Xref3 B} (stale : ¬ Valid ibx r.article)
    (has : (v.slice t boost w ibx fast msgs lo hi).pipe.ei.xref3.Has r) : ¬ (lo ≤ r.xnum ∧ r.xnum ≤ hi) := by
  intro range
  have before := ((sliceGrows inside v).asked asked).2 r stale has
  have own : r.ibxId = ibx.id := by
    by_contra other
    exact stale fun same => absurd same other
  have listed : r ∈ leftover msgs (v.rowsOf ibx (fun x => lo ≤ x ∧ x ≤ hi)) := by
    refine List.mem_filter.mpr ⟨rowsOfMem.mpr ⟨before,own,decide_eq_true range⟩,decide_eq_true fun mem => ?_⟩
    exact stale fun _ => inside _ mem
  have examined : Grows ibx v (msgs.foldl (examine t boost w ibx fast (v.rowsOf ibx (fun x => lo ≤ x ∧ x ≤ hi))) v) :=
    foldGrows (fun msg mem u => examineGrows _ u (inside msg mem)) v
  unfold Check.slice at has
  dsimp only at has
  split at has
  · rename_i none
    rw [none] at listed
    exact absurd listed List.not_mem_nil
  · rename_i rows other
    refine foldReaches (p := fun u => ¬ u.pipe.ei.xref3.Has r) (fun q mem u => dropGrows msgs u (leftoverOwn mem))
      (goneStays stale) ((w.orderPerm _).mem_iff.mpr listed) (fun u _ => ?_)
      ((examined.trans (serveGrows _)).asked asked).1 has
    · have differs : ibx.arts.get? r.xnum ≠ some r.oidbin := fun good => stale fun _ => good
      have dropped : Check.drop ibx msgs u r = u.unref ibx r := by
        unfold Check.drop
        split
        · rename_i named
          obtain ⟨msg,mem,same⟩ := List.mem_map.mp named
          have there := inside msg mem
          rw [same] at there
          rw [there] at differs ⊢
          dsimp only
          rw [if_neg fun blob => differs (congrArg some blob)]
        · rfl
      rw [dropped]
      exact unrefGone own stale u

end slice

section pages
variable {limit low high : Nat}

section
omit [LinearOrder B]

theorem xoverMem {msg : Nat × B} (mem : msg ∈ ibx.queryXover limit low high) :
    ibx.arts.get? msg.1 = some msg.2 ∧ low ≤ msg.1 ∧ msg.1 ≤ high := by
  obtain ⟨row,range⟩ := List.mem_filter.mp (List.mem_of_mem_take mem)
  exact ⟨Table.memRows.mp row,of_decide_eq_true range⟩

theorem xoverRange (ibx : Inbox B) (low high : Nat) {n : Nat} {b : B} (there : ibx.arts.get? n = some b)
    (above : low ≤ n) (below : n ≤ high) :
    (n,b) ∈ ibx.arts.rows.filter (fun x => low ≤ x.1 ∧ x.1 ≤ high) :=
  List.mem_filter.mpr ⟨Table.memRows.mpr there,decide_eq_true ⟨above,below⟩⟩

theorem rangeSorted (ibx : Inbox B) (low high : Nat) :
    (ibx.arts.rows.filter (fun x => low ≤ x.1 ∧ x.1 ≤ high)).Pairwise (fun a b => a.1 < b.1) :=
  ibx.arts.sorted.filter _

theorem xoverNil (positive : 0 < limit) (none : ibx.queryXover limit low high = []) {n : Nat} {b : B}
    (there : ibx.arts.get? n = some b) (above : low ≤ n) : high < n := by
  by_contra below
  have mem := xoverRange ibx low high there above (not_lt.mp below)
  rcases List.take_eq_nil_iff.mp none with zero | nil
  · omega
  · rw [nil] at mem
    exact absurd mem List.not_mem_nil

theorem xoverHead {lo : Nat × B} (head : (ibx.queryXover limit low high).head? = some lo) {n : Nat} {b : B}
    (there : ibx.arts.get? n = some b) (above : low ≤ n) : lo.1 ≤ n := by
  by_contra below
  have range := (xoverMem (List.mem_of_mem_head? head)).2.2
  have mem := xoverRange ibx low high there above (by omega)
  have sorted := rangeSorted ibx low high
  unfold Inbox.queryXover at head
  cases rows : ibx.arts.rows.filter (fun x => low ≤ x.1 ∧ x.1 ≤ high) with
  | nil =>
    rw [rows] at mem
    exact absurd mem List.not_mem_nil
  | cons x xs =>
    rw [rows] at mem sorted head
    have same : x = lo := by
      cases limit with
      | zero => simp at head
      | succ limit => simpa using head
    subst same
    rcases List.mem_cons.mp mem with here | later
    · rw [← here] at below
      omega
    · have more := (List.pairwise_cons.mp sorted).1 _ later
      omega

end

theorem xoverAll {top : Nat × B} (last : (ibx.queryXover limit low high).getLast? = some top) {n : Nat} {b : B}
    (there : ibx.arts.get? n = some b) (above : low ≤ n) (below : n ≤ top.1) :
    (n,b) ∈ ibx.queryXover limit low high := by
  have inside := List.mem_of_getLast? last
  have range := (xoverMem inside).2.2
  have mem := xoverRange ibx low high there above (by omega)
  have sorted := rangeSorted ibx low high
  unfold Inbox.queryXover at inside ⊢
  rw [← List.take_append_drop limit (ibx.arts.rows.filter (fun x => low ≤ x.1 ∧ x.1 ≤ high))] at mem sorted
  rcases List.mem_append.mp mem with taken | dropped
  · exact taken
  · have later := (List.pairwise_append.mp sorted).2.2 top inside _ dropped
    dsimp only at later
    omega

omit [LinearOrder B] in
theorem pageMem {k : Nat} {msg : Nat × B} (mem : msg ∈ ibx.pageAt limit k) :
    ibx.arts.get? msg.1 = some msg.2 := by
  cases k with
  | zero => exact (xoverMem mem).1
  | succ k =>
    unfold Inbox.pageAt at mem
    split at mem
    · exact (xoverMem mem).1
    · exact absurd mem List.not_mem_nil

def reach (limit : Nat) : Option Nat → Nat
  | none => limit
  | some hi => hi + 1 + limit

structure At (limit : Nat) (ibx : Inbox B) (k low high : Nat) (hi : Option Nat) : Prop where
  page : ibx.queryXover limit low high = ibx.pageAt limit k
  low : low = hi.getD 0 + 1
  high : high = min (reach limit hi) ibx.max
  before : (k = 0 ∧ hi = none) ∨ ∃ j,∃ top ∈ (ibx.pageAt limit j).getLast?,k = j + 1 ∧ hi = some top.1

omit [LinearOrder B] in
theorem atFirst : At limit ibx 0 1 (min limit ibx.max) none := ⟨rfl,rfl,rfl,Or.inl ⟨rfl,rfl⟩⟩

omit [LinearOrder B] in
theorem atNext {k : Nat} {hi : Option Nat} (here : At limit ibx k low high hi) {top : Nat × B}
    (last : (ibx.queryXover limit low high).getLast? = some top) :
    At limit ibx (k + 1) (top.1 + 1) (min (top.1 + 1 + limit) ibx.max) (some top.1) := by
  rw [here.page] at last
  exact ⟨by simp only [Inbox.pageAt,last],rfl,rfl,Or.inr ⟨k,top,last,rfl,rfl⟩⟩

omit [DecidableEq M] in
theorem rowsOfLength (v : Check B M) (p : Nat → Bool) : (v.rowsOf ibx p).length ≤ v.pipe.ei.xref3.keys.length := by
  unfold rowsOf Rel.select Table.keysWhere Table.keys Table.filter
  rw [List.length_map,List.length_map]
  exact List.length_filter_le _ _

omit [LinearOrder B] in
theorem fewerRows {n : Nat} {b : B} (there : ibx.arts.get? n = some b) (above : low ≤ n) :
    (ibx.arts.rows.filter (fun x => n + 1 ≤ x.1)).length < (ibx.arts.rows.filter (fun x => low ≤ x.1)).length := by
  have twice : ibx.arts.rows.filter (fun x => n + 1 ≤ x.1) =
      (ibx.arts.rows.filter (fun x => low ≤ x.1)).filter (fun x => n + 1 ≤ x.1) := by
    rw [List.filter_filter]
    refine List.filter_congr fun x _ => ?_
    rw [← Bool.decide_and]
    exact decide_eq_decide.mpr ⟨fun later => ⟨later,by omega⟩,And.left⟩
  rw [twice,List.length_filter_lt_length_iff_exists]
  exact ⟨(n,b),List.mem_filter.mpr ⟨Table.memRows.mpr there,decide_eq_true above⟩,by simp⟩

structure Walked (limit : Nat) (ibx : Inbox B) (k : Nat) (hi : Option Nat) (v : Check B M) (hi' : Option Nat)
    (v' : Check B M) : Prop where
  grows : Grows ibx v v'
  ends : ∃ k' low high,k ≤ k' ∧ At limit ibx k' low high hi' ∧ ibx.queryXover limit low high = [] ∧
    ∀ r,¬ Valid ibx r.article → v'.pipe.ei.xref3.Has r → ∀ j,k ≤ j → j < k' → ¬ Covers (ibx.pageAt limit j) r.xnum
  below : hi = none → ∀ r,¬ Valid ibx r.article → v'.pipe.ei.xref3.Has r →
    ¬ ∃ lo ∈ (ibx.pageAt limit 0).head?,r.xnum < lo.1
  examined : ∀ n b,ibx.arts.get? n = some b → hi.getD 0 < n → n ≤ hi'.getD 0 → Examined v' ⟨ibx.id,n,b⟩

variable (t boost w) in
theorem walkDone (positive : 0 < limit) (numbers : ∀ n b,ibx.arts.get? n = some b → 0 < n) (count : Nat)
    (fuel : Nat) {k : Nat} {hi : Option Nat} {v : Check B M} (here : At limit ibx k low high hi)
    (asked : Asked (Valid ibx) v.pipe) (few : hi = none → v.pipe.ei.xref3.keys.length ≤ count)
    (enough : (ibx.arts.rows.filter (fun x => low ≤ x.1)).length + count < fuel) :
    ∃ hi' v',walk t boost w ibx false limit fuel low high hi v = some (hi',v') ∧ Walked limit ibx k hi v hi' v' := by
  induction fuel generalizing k low high hi v with
  | zero => omega
  | succ fuel ih =>
    unfold walk
    dsimp only
    cases head : (ibx.queryXover limit low high).head? with
    | none =>
      have nothing := List.head?_eq_none_iff.mp head
      refine ⟨hi,v,rfl,.refl v,⟨k,low,high,le_refl _,here,nothing,fun r _ _ j le lt => by omega⟩,?_,?_⟩
      · rintro rfl r - - ⟨lo,first,-⟩
        rcases here.before with ⟨rfl,-⟩ | ⟨j,top,-,-,some⟩
        · rw [← here.page,head] at first
          contradiction
        · contradiction
      · intro n b _ above below
        omega
    | some lo =>
      cases last : (ibx.queryXover limit low high).getLast? with
      | none =>
        rw [List.getLast?_eq_none_iff.mp last] at head
        contradiction
      | some top =>
        dsimp only
        have inside : ∀ msg ∈ ibx.queryXover limit low high,ibx.arts.get? msg.1 = some msg.2 :=
          fun msg mem => (xoverMem mem).1
        have topMem := List.mem_of_getLast? last
        have fewer : (ibx.arts.rows.filter (fun x => top.1 + 1 ≤ x.1)).length <
            (ibx.arts.rows.filter (fun x => low ≤ x.1)).length := fewerRows (inside top topMem) (xoverMem topMem).2.1
        -- The rows below the first article go before the first slice.
        have swept : ∃ u,(if hi.isSome then some v else v.unrefStaleRange w ibx limit (fun x => x < lo.1) fuel) = some u ∧
            Grows ibx v u ∧ (hi = none → ∀ r,u.pipe.ei.xref3.Has r → r.ibxId = ibx.id → ¬ r.xnum < lo.1) := by
          cases hi with
          | some h => exact ⟨v,rfl,.refl v,fun none => by contradiction⟩
          | none =>
            have free : ∀ n,decide (n < lo.1) = true → ibx.arts.get? n = none := by
              intro n less
              cases there : ibx.arts.get? n with
              | none => rfl
              | some b =>
                have low1 : low = 1 := here.low
                have least := xoverHead head there (low1 ▸ numbers n b there)
                exact absurd (of_decide_eq_true less) (not_lt.mpr least)
            have length : (v.rowsOf ibx (fun x => x < lo.1)).length ≤ _ := rowsOfLength v _
            have bound := few rfl
            obtain ⟨u,run,clear⟩ := unrefRangeEnd w fuel positive free asked (by omega)
            refine ⟨u,run,unrefRangeGrows run,fun _ r has own => ?_⟩
            exact of_decide_eq_false (clear r has own)
        obtain ⟨u,run,first,clear⟩ := swept
        rw [run]
        dsimp only [Option.bind_some]
        have askedU := (first.asked asked).1
        have sliced : Grows ibx u (u.slice t boost w ibx false (ibx.queryXover limit low high) lo.1 top.1) :=
          sliceGrows inside u
        have askedS := (sliced.asked askedU).1
        obtain ⟨hi',v',rest,walked⟩ := ih (atNext here last) askedS (fun none => by contradiction) (by omega)
        refine ⟨hi',v',rest,(first.trans sliced).trans walked.grows,?_,?_,?_⟩
        · obtain ⟨k',low',high',le,there,nil,covers⟩ := walked.ends
          refine ⟨k',low',high',by omega,there,nil,fun r stale has j from_ to_ => ?_⟩
          rcases from_.eq_or_lt with rfl | later
          · rintro ⟨lo',head',top',last',range⟩
            rw [← here.page] at head' last'
            cases head.symm.trans head'
            cases last.symm.trans last'
            exact sliceClears inside askedU stale ((walked.grows.asked askedS).2 r stale has) range
          · exact covers r stale has j later to_
        · rintro rfl r stale has ⟨lo',head',less⟩
          rcases here.before with ⟨rfl,-⟩ | ⟨j,top,-,-,some⟩
          · rw [← here.page] at head'
            cases head.symm.trans head'
            have own : r.ibxId = ibx.id := by
              by_contra other
              exact stale fun same => absurd same other
            exact clear rfl r ((sliced.asked askedU).2 r stale ((walked.grows.asked askedS).2 r stale has)) own less
          · contradiction
        · intro n b there above below
          rcases Nat.lt_or_ge top.1 n with beyond | within
          · exact walked.examined n b there beyond below
          · have mem := xoverAll last there (by rw [here.low]; omega) within
            exact walked.grows.examined (sliceExamines inside askedU mem)

omit [LinearOrder B] in
theorem pageNil {k : Nat} (nil : ibx.pageAt limit k = []) {i : Nat} (later : k ≤ i) : ibx.pageAt limit i = [] := by
  induction i, later using Nat.le_induction with
  | base => exact nil
  | succ i _ ih => simp only [Inbox.pageAt,ih,List.getLast?_nil]

omit [LinearOrder B] in
theorem reachedAll (positive : 0 < limit) (numbers : ∀ n b,ibx.arts.get? n = some b → 0 < n)
    (reached : ibx.Reached limit) {k : Nat} {hi : Option Nat} (here : At limit ibx k low high hi)
    (nil : ibx.queryXover limit low high = []) {n : Nat} {b : B} (there : ibx.arts.get? n = some b) :
    n ≤ hi.getD 0 := by
  induction n using Nat.strong_induction_on generalizing b with
  | _ n ih =>
    by_contra beyond
    obtain ⟨bound,near⟩ := reached n b there
    have less := xoverNil positive nil there (by rw [here.low]; omega)
    rw [here.high] at less
    rcases near with near | ⟨m,some,before,near⟩
    · cases hi <;> simp only [reach] at less <;> omega
    · obtain ⟨c,has⟩ := Option.isSome_iff_exists.mp some
      have seen := ih m before has
      have positive := numbers m c has
      cases hi with
      | none =>
        rw [Option.getD_none] at seen
        omega
      | some h =>
        rw [Option.getD_some] at seen
        simp only [reach] at less
        omega

end pages

structure CheckMeets (ibx : Inbox B) (v : Check B M) : Prop where
  examined : ∀ n b,ibx.arts.get? n = some b → Examined v ⟨ibx.id,n,b⟩
  onlyStale : ∀ a ∈ v.unreffed,ibx.arts.get? a.xnum ≠ some a.oid
  allStale : ∀ r,v.pipe.ei.xref3.Has r → r.ibxId = ibx.id → ibx.arts.get? r.xnum = some r.oidbin

def Checks (t : Mails B M H) (boost : Boost) (w : Around B) (ibx : Inbox B) (limit : Nat) (s : Ei B M) : Prop :=
  ∃ least,∀ fuel,least ≤ fuel → ∃ v,reindexCheckIbx t boost w ibx false limit fuel s = some v ∧ CheckMeets ibx v

omit [DecidableEq M] in
theorem growsMeets {s : Ei B M} {v : Check B M} (grows : Grows ibx (Check.start s) v)
    (examined : ∀ n b,ibx.arts.get? n = some b → Examined v ⟨ibx.id,n,b⟩)
    (clear : ∀ r,¬ Valid ibx r.article → ¬ v.pipe.ei.xref3.Has r) : CheckMeets ibx v := by
  refine ⟨examined,fun a mem good => ?_,fun r has own => ?_⟩
  · rcases grows.unreffed a mem with old | stale
    · exact absurd old List.not_mem_nil
    · exact stale fun _ => good
  · by_contra differs
    exact clear r (fun valid => differs (valid own)) has

theorem reachedChecks {limit : Nat} (positive : 0 < limit) (numbers : ∀ n b,ibx.arts.get? n = some b → 0 < n)
    {s : Ei B M} (reached : ibx.Reached limit)
    (passed : ∀ r,s.xref3.Has r → ¬ Valid ibx r.article → ibx.Passed limit r.xnum) :
    Checks t boost w ibx limit s := by
  refine ⟨ibx.arts.rows.length + s.xref3.keys.length + 2,fun fuel enough => ?_⟩
  have asked : Asked (Valid ibx) (Check.start s).pipe :=
    ⟨fun j mem => absurd mem List.not_mem_nil,fun f mem => absurd mem List.not_mem_nil⟩
  have fewer := List.length_filter_le (fun x : Nat × B => decide (1 ≤ x.1)) ibx.arts.rows
  obtain ⟨hi,v,run,walked⟩ := walkDone t boost w positive numbers s.xref3.keys.length
    fuel atFirst asked (fun _ => le_refl _) (by omega)
  obtain ⟨k,low,high,-,here,nil,covers⟩ := walked.ends
  have below : ∀ n b,ibx.arts.get? n = some b → n ≤ hi.getD 0 :=
    fun n b there => reachedAll positive numbers reached here nil there
  have examined : ∀ n b,ibx.arts.get? n = some b → Examined v ⟨ibx.id,n,b⟩ :=
    fun n b there => walked.examined n b there (numbers n b there) (below n b there)
  have nilK : ibx.pageAt limit k = [] := here.page ▸ nil
  -- A stale row that is left has a number above the last slice.
  have above : ∀ r,¬ Valid ibx r.article → v.pipe.ei.xref3.Has r →
      ∃ h,hi = some h ∧ h < r.xnum ∧ r.xnum ≤ ibx.max := by
    intro r stale has
    have apart := covers r stale has
    rcases passed r ((walked.grows.asked asked).2 r stale has) stale with under | ⟨j,cover⟩ | ⟨j,top,last,next,range⟩
    · exact absurd under (walked.below rfl r stale has)
    · rcases Nat.lt_or_ge j k with less | more
      · exact absurd cover (apart j (Nat.zero_le j) less)
      · rw [pageNil nilK more] at cover
        obtain ⟨lo,head,-⟩ := cover
        contradiction
    · rcases here.before with ⟨rfl,rfl⟩ | ⟨i,top',last',rfl,rfl⟩
      · rw [pageNil nilK (Nat.zero_le j)] at last
        contradiction
      · have same : j = i := by
          rcases Nat.lt_trichotomy j i with less | same | more
          · rw [pageNil next (Nat.succ_le_of_lt less)] at last'
            contradiction
          · exact same
          · rw [pageNil nilK (Nat.succ_le_of_lt more)] at last
            contradiction
        subst same
        cases last.symm.trans last'
        exact ⟨top.1,rfl,range⟩
  unfold reindexCheckIbx
  rw [run]
  dsimp only [Option.bind_some]
  cases hi with
  | none =>
    refine ⟨v,rfl,growsMeets walked.grows examined fun r stale has => ?_⟩
    obtain ⟨h,none,-⟩ := above r stale has
    contradiction
  | some h =>
    dsimp only
    split
    · have free : ∀ n,decide (h < n ∧ n ≤ ibx.max) = true → ibx.arts.get? n = none := by
        intro n range
        cases there : ibx.arts.get? n with
        | none => rfl
        | some b =>
          have bound : n ≤ h := below n b there
          have more := (of_decide_eq_true range).1
          omega
      have length : (v.rowsOf ibx (fun x => h < x ∧ x ≤ ibx.max)).length ≤ s.xref3.keys.length := by
        refine (List.Nodup.subperm (Rel.selectNodup _ _) fun r mem => ?_).length_le
        obtain ⟨has,own,range⟩ := (rowsOfMem (v := v) (p := fun x => h < x ∧ x ≤ ibx.max)).mp mem
        refine Rel.hasKeys.mpr ((walked.grows.asked asked).2 r (fun valid => ?_) has)
        have there := valid own
        change ibx.arts.get? r.xnum = some r.oidbin at there
        rw [free _ range] at there
        contradiction
      obtain ⟨v',ran,clear⟩ := unrefRangeEnd w fuel positive free (walked.grows.asked asked).1 (by omega)
      have last := unrefRangeGrows ran
      refine ⟨v',ran,growsMeets (walked.grows.trans last) (fun n b there => last.examined (examined n b there)) ?_⟩
      intro r stale has
      obtain ⟨h',same,range⟩ := above r stale ((last.asked (walked.grows.asked asked).1).2 r stale has)
      cases same
      have own : r.ibxId = ibx.id := by
        by_contra other
        exact stale fun same => absurd same other
      exact absurd range (of_decide_eq_false (clear r has own))
    · rename_i full
      refine ⟨v,rfl,growsMeets walked.grows examined fun r stale has => ?_⟩
      obtain ⟨h',same,range⟩ := above r stale has
      cases same
      omega

def textless : Around B := ⟨fun _ => [.push,.respond .bad],id,fun rows => .refl rows⟩

/- What a part of the check leaves alone then: rows of the inbox whose number is not in `p`; it
examines only articles in `q`. -/
structure Quiet (ibx : Inbox B) (p : Nat → Prop) (q : Article B → Prop) (v v' : Check B M) : Prop where
  idle : v.pipe.fifo = [] ∧ v.pipe.frames = [] → v'.pipe.fifo = [] ∧ v'.pipe.frames = [] ∧
    ∀ r,r.ibxId = ibx.id → ¬ p r.xnum → v.pipe.ei.xref3.Has r → v'.pipe.ei.xref3.Has r
  examined : ∀ a,Examined v' a → Examined v a ∨ q a

section quiet
variable {p : Nat → Prop} {q : Article B → Prop}

omit [DecidableEq M] in
theorem Quiet.refl (v : Check B M) : Quiet ibx p q v v :=
  ⟨fun idle => ⟨idle.1,idle.2,fun _ _ _ => id⟩,fun _ => Or.inl⟩

omit [DecidableEq M] in
theorem Quiet.trans {v v' v'' : Check B M} (one : Quiet ibx p q v v') (two : Quiet ibx p q v' v'') :
    Quiet ibx p q v v'' := by
  refine ⟨fun idle => ?_,fun a done => ?_⟩
  · obtain ⟨fifo,frames,first⟩ := one.idle idle
    obtain ⟨fifo,frames,second⟩ := two.idle ⟨fifo,frames⟩
    exact ⟨fifo,frames,fun r own other has => second r own other (first r own other has)⟩
  · rcases two.examined a done with before | listed
    · exact one.examined a before
    · exact Or.inr listed

omit [LinearOrder B] in
theorem textlessTurns (n : Nat) :
    ((textless : Around B).callbacks n).filter Turn.inside = [.push,.respond .bad] := rfl

theorem serveQuiet (v : Check B M) : Quiet ibx p q v (v.serve t boost textless) := by
  refine ⟨?_,fun _ => Or.inl⟩
  rintro ⟨fifo,frames⟩
  have same : (v.serve t boost textless).pipe = v.pipe := by
    unfold Check.serve
    rw [textlessTurns]
    simp [Pipe.step,Pipe.busy,Pipe.respond,fifo,frames]
  rw [same]
  exact ⟨fifo,frames,fun _ _ _ => id⟩

theorem reindexUnseenQuiet (v : Check B M) {a : Article B} (listed : q a) :
    Quiet ibx p q v (v.reindexUnseen t boost textless a) := by
  refine ⟨?_,fun b done => ?_⟩
  · rintro ⟨fifo,frames⟩
    have same : (v.reindexUnseen t boost textless a).pipe = { v.pipe with log := v.pipe.log ++ [(a.oid,.bad)] } := by
      unfold Check.reindexUnseen Check.serve
      rw [textlessTurns]
      simp [Pipe.step,Pipe.busy,Pipe.respond,begin,fifo,frames]
    rw [same]
    exact ⟨fifo,frames,fun _ _ _ => id⟩
  · rcases done with mem | found
    · rcases List.mem_append.mp mem with old | new
      · exact Or.inl (Or.inl old)
      · rw [List.mem_singleton.mp new]
        exact Or.inr listed
    · exact Or.inl (Or.inr found)

section
omit [DecidableEq M]

theorem queueQuiet {a : Article B} (listed : q a) (v : Check B M) (docid : Nat) :
    Quiet ibx p q v (queue a v docid) := by
  refine ⟨fun idle => ⟨idle.1,idle.2,fun _ _ _ => id⟩,fun b done => ?_⟩
  rcases done with mem | ⟨d,mem⟩
  · exact Or.inl (Or.inl mem)
  · rcases List.mem_append.mp mem with old | new
    · exact Or.inl (Or.inr ⟨d,old⟩)
    · cases List.mem_singleton.mp new
      exact Or.inr listed

theorem unrefQuiet (v : Check B M) {r : Xref3 B} (within : p r.xnum) : Quiet ibx p q v (v.unref ibx r) := by
  by_cases valid : ibx.arts.get? r.xnum = some r.oidbin
  · rw [unrefValid v valid]
    exact .refl v
  · obtain ⟨-,unseen,queued,fifo,frames,rows⟩ := unrefStale v valid
    refine ⟨fun idle => ⟨fifo.trans idle.1,frames.trans idle.2,fun x own other has => ?_⟩,fun a done => Or.inl ?_⟩
    · exact (rows x).mpr ⟨has,fun gone => other (gone.2.2 ▸ within)⟩
    · unfold Examined at done ⊢
      rwa [unseen,queued] at done

theorem dropQuiet (msgs : List (Nat × B)) (v : Check B M) {r : Xref3 B} (within : p r.xnum) :
    Quiet ibx p q v (Check.drop ibx msgs v r) := by
  unfold Check.drop
  split
  · split
    · exact .refl v
    · split
      · exact .refl v
      · exact unrefQuiet v within
  · exact unrefQuiet v within

end

theorem examineQuiet (x3 : List (Xref3 B)) (v : Check B M) {msg : Nat × B} (listed : q ⟨ibx.id,msg.1,msg.2⟩) :
    Quiet ibx p q v (examine t boost textless ibx fast x3 v msg) := by
  unfold examine
  dsimp only
  split
  · exact reindexUnseenQuiet v listed
  · split
    · exact .refl v
    · exact Batch.foldAlong (Quiet ibx p q) .refl .trans (fun docid _ u => queueQuiet listed u docid) v

theorem sliceQuiet {msgs : List (Nat × B)} {lo hi : Nat} (listed : ∀ msg ∈ msgs,q ⟨ibx.id,msg.1,msg.2⟩)
    (within : ∀ x,lo ≤ x ∧ x ≤ hi → p x) (v : Check B M) :
    Quiet ibx p q v (v.slice t boost textless ibx fast msgs lo hi) := by
  have examined : Quiet ibx p q v
      (msgs.foldl (examine t boost textless ibx fast (v.rowsOf ibx (fun x => lo ≤ x ∧ x ≤ hi))) v) :=
    Batch.foldAlong (Quiet ibx p q) .refl .trans (fun msg mem u => examineQuiet _ u (listed msg mem)) v
  unfold Check.slice
  dsimp only
  split
  · exact examined
  · refine (examined.trans (serveQuiet _)).trans
      (Batch.foldAlong (Quiet ibx p q) .refl .trans (fun r mem u => dropQuiet msgs u ?_) _)
    have row := (rowsOfMem.mp (List.mem_filter.mp mem).1).2.2
    exact within _ (of_decide_eq_true row)

omit [DecidableEq M] in
theorem unrefRangeQuiet {limit fuel : Nat} {range : Nat → Bool} (within : ∀ x,range x = true → p x)
    {v v' : Check B M} (run : v.unrefStaleRange textless ibx limit range fuel = some v') : Quiet ibx p q v v' :=
  Batch.batchesKeep (Quiet ibx p q) .refl .trans
    (fun _ _ mem x => unrefQuiet x (within _ (rowsOfMem.mp mem).2.2)) run

def Listed (ibx : Inbox B) (limit : Nat) (a : Article B) : Prop := ∃ k,(a.xnum,a.oid) ∈ ibx.pageAt limit k

theorem walkQuiet {limit low high fuel k : Nat} {hi hi' : Option Nat} {v v' : Check B M} (here : At limit ibx k low high hi)
    (run : walk t boost textless ibx fast limit fuel low high hi v = some (hi',v')) :
    Quiet ibx (ibx.Passed limit) (Listed ibx limit) v v' ∧
      ∃ k' low high,At limit ibx k' low high hi' ∧ ibx.queryXover limit low high = [] := by
  induction fuel generalizing k low high hi v with
  | zero => contradiction
  | succ fuel ih =>
    unfold walk at run
    dsimp only at run
    split at run
    · rename_i lo top head last
      obtain ⟨u,swept,rest⟩ := Option.bind_eq_some_iff.mp run
      have first : Quiet ibx (ibx.Passed limit) (Listed ibx limit) v u := by
        split at swept
        · cases swept
          exact .refl v
        · rename_i none
          refine unrefRangeQuiet (fun x less => Or.inl ⟨lo,?_,of_decide_eq_true less⟩) swept
          rcases here.before with ⟨rfl,-⟩ | ⟨j,top,-,-,rfl⟩
          · rw [← here.page]
            exact head
          · exact absurd rfl none
      obtain ⟨later,ends⟩ := ih (atNext here last) rest
      refine ⟨(first.trans (sliceQuiet (fun msg mem => ⟨k,here.page ▸ mem⟩) (fun x range => ?_) u)).trans later,ends⟩
      exact Or.inr (Or.inl ⟨k,lo,by rw [← here.page]; exact head,top,by rw [← here.page]; exact last,range⟩)
    · rename_i none
      cases run
      refine ⟨.refl _,k,low,high,here,?_⟩
      cases rows : ibx.queryXover limit low high with
      | nil => rfl
      | cons x xs =>
        refine (none x _ ?_ (List.getLast?_eq_some_getLast (rows ▸ List.cons_ne_nil x xs))).elim
        rw [rows]
        rfl

end quiet

theorem checkQuiet {limit fuel : Nat} {s : Ei B M} {v : Check B M}
    (run : reindexCheckIbx t boost textless ibx fast limit fuel s = some v) :
    Quiet ibx (ibx.Passed limit) (Listed ibx limit) (Check.start s) v := by
  unfold reindexCheckIbx at run
  obtain ⟨⟨hi,u⟩,walked,rest⟩ := Option.bind_eq_some_iff.mp run
  obtain ⟨quiet,k,low,high,here,nil⟩ := walkQuiet atFirst walked
  dsimp only at rest
  split at rest
  · rename_i h
    split at rest
    · refine quiet.trans (unrefRangeQuiet (fun x range => ?_) rest)
      rcases here.before with ⟨-,none⟩ | ⟨j,top,last,rfl,some⟩
      · contradiction
      · cases some
        exact Or.inr (Or.inr ⟨j,top,last,here.page ▸ nil,of_decide_eq_true range⟩)
    · cases rest
      exact quiet
  · cases rest
    exact quiet

omit [LinearOrder B] in
theorem listedReached {limit n : Nat} {b : B} (listed : Listed ibx limit ⟨ibx.id,n,b⟩) :
    n ≤ ibx.max ∧ (n ≤ limit ∨ ∃ m,(ibx.arts.get? m).isSome ∧ m < n ∧ n ≤ m + 1 + limit) := by
  obtain ⟨k,mem⟩ := listed
  cases k with
  | zero =>
    have range := (xoverMem mem).2.2
    dsimp only at range
    exact ⟨by omega,Or.inl (by omega)⟩
  | succ k =>
    simp only [Inbox.pageAt] at mem
    split at mem
    · rename_i top last
      obtain ⟨-,low,high⟩ := xoverMem mem
      dsimp only at low high
      have there := pageMem (List.mem_of_getLast? last)
      exact ⟨by omega,Or.inr ⟨top.1,by rw [there]; rfl,by omega,by omega⟩⟩
    · exact absurd mem List.not_mem_nil

theorem checksReached {limit : Nat} {s : Ei B M} (checks : Checks t boost textless ibx limit s) :
    ibx.Reached limit ∧ ∀ r,s.xref3.Has r → ¬ Valid ibx r.article → ibx.Passed limit r.xnum := by
  obtain ⟨least,ends⟩ := checks
  obtain ⟨v,run,meets⟩ := ends least (le_refl _)
  have quiet := checkQuiet run
  constructor
  · intro n b there
    rcases quiet.examined _ (meets.examined n b there) with (none | ⟨d,none⟩) | listed
    · exact absurd none List.not_mem_nil
    · exact absurd none List.not_mem_nil
    · exact listedReached listed
  · intro r has stale
    by_contra other
    have own : r.ibxId = ibx.id := by
      by_contra differs
      exact stale fun same => absurd same differs
    have left := (quiet.idle ⟨rfl,rfl⟩).2.2 r own other has
    exact stale fun _ => meets.allStale r left own

theorem checkCovers {t : Mails B M H} {boost : Boost} {ibx : Inbox B} {s : Ei B M}
    (numbers : ∀ n b,ibx.arts.get? n = some b → 0 < n) :
    (∀ w,Checks t boost w ibx 10000 s) ↔ ibx.Reached 10000 ∧
      ∀ r,s.xref3.Has r → r.ibxId = ibx.id → ibx.arts.get? r.xnum ≠ some r.oidbin → ibx.Passed 10000 r.xnum := by
  constructor
  · intro checks
    obtain ⟨reached,passed⟩ := checksReached (checks textless)
    exact ⟨reached,fun r has own differs => passed r has fun valid => differs (valid own)⟩
  · rintro ⟨reached,passed⟩ w
    refine reachedChecks (by omega) numbers reached fun r has stale => ?_
    have own : r.ibxId = ibx.id := by
      by_contra other
      exact stale fun same => absurd same other
    exact passed r has own fun good => stale fun _ => good

def narrow : Inbox Nat := ⟨1,(Table.empty.insert 1 0).insert 9000 1,9000⟩

def staleRow : Ei Nat Mid := (Ei.empty.addOverview 1 3 [cleanMid "a"]).addXref3 1 5 3 1

theorem narrowChecked : Checks shelved none textless narrow 10000 staleRow := by
  have rows : ∀ n b,narrow.arts.get? n = some b → (n = 1 ∨ n = 9000) := by
    intro n b there
    simp only [narrow,Table.getInsert] at there
    split at there
    · exact Or.inr (by assumption)
    · split at there
      · exact Or.inl (by assumption)
      · contradiction
  refine (checkCovers fun n b there => ?_).mpr ⟨fun n b there => ?_,fun r has _ _ => ?_⟩ textless
  · rcases rows n b there with rfl | rfl <;> omega
  · change n ≤ 9000 ∧ _
    rcases rows n b there with rfl | rfl <;> omega
  · rcases Rel.hasAdd.mp has with rfl | none
    · exact Or.inr (Or.inl ⟨0,(1,0),rfl,(9000,1),rfl,by decide,by decide⟩)
    · exact absurd none (Rel.hasEmpty r)

def wide : Inbox Nat := ⟨1,(Table.empty.insert 1 0).insert 20002 1,20002⟩

theorem wideUnexamined : ¬ ∀ (w : Around Nat) (ibx : Inbox Nat) (s : Ei Nat Mid),
    (∀ n b,ibx.arts.get? n = some b → 0 < n) → Checks shelved none w ibx 10000 s := by
  intro complete
  have rows : ∀ n b,wide.arts.get? n = some b → (n = 1 ∨ n = 20002) := by
    intro n b there
    simp only [wide,Table.getInsert] at there
    split at there
    · exact Or.inr (by assumption)
    · split at there
      · exact Or.inl (by assumption)
      · contradiction
  have checks := complete textless wide .empty fun n b there => by rcases rows n b there with rfl | rfl <;> omega
  obtain ⟨-,near | ⟨m,some,before,near⟩⟩ := (checksReached checks).1 20002 1 rfl
  · omega
  · obtain ⟨b,there⟩ := Option.isSome_iff_exists.mp some
    rcases rows m b there with rfl | rfl <;> omega

end PublicInbox.ExtSearchIdx
