import PublicInbox.ExtSearchIdx.Pipeline

/-! Copies of one message. Two articles of equal content hash that share a Message-ID come to a
common document as long as every request in flight can still find the copies before it. -/
namespace PublicInbox.ExtSearchIdx
open Keyed Ei Stepwise
variable {B M H : Type} [LinearOrder B] [DecidableEq M] [DecidableEq H] (t : Mails B M H) (boost : Boost)

def Same (x y : B) : Prop := t.contentHash x = t.contentHash y ∧ ∃ m ∈ t.mids x,m ∈ t.mids y

def Req.article (q : Req B) : Option (Article B) :=
  match q.file with
  | .m xnum => some ⟨q.ibxId,xnum,q.oid⟩
  | .d => none

def Held (s : Ei B M) (a : Article B) : Prop := ∃ d,s.xref3.Has (a.row d)

def Attached (s : Ei B M) (a : Article B) (q : Req B) : Prop :=
  ∃ b ∈ q.article,∃ d,s.xref3.Has (a.row d) ∧ s.xref3.Has (b.row d)

def Within (links : Nat → List M) (sc : Scan B M) (d : Nat) : Prop :=
  d ∈ sc.chain.indexed ∨ d ∈ sc.cur.map Prod.fst ∨ Ahead links sc.chain.mids sc.chain.nextArg d

def Reaches (links : Nat → List M) (s : Ei B M) (sc : Scan B M) (a : Article B) : Prop :=
  ∃ d,s.xref3.Has (a.row d) ∧ Within links sc d

structure Owes (v : Pipe B M) (sc : Scan B M) (a : Article B) : Prop where
  held : Held v.ei a
  readable : (a.oid,.bad) ∉ v.log
  same : Same t a.oid sc.chain.req.oid
  kept : a.oid ∉ sc.lost

def StartMeets (v : Pipe B M) (a : Article B) : Prop :=
  ∀ b,Held v.ei b → (b.oid,.bad) ∉ v.log → Same t b.oid a.oid →
    Attached v.ei b a.req ∨ ∃ d,v.ei.xref3.Has (b.row d) ∧ ∃ m ∈ t.mids a.oid,m ∈ v.ei.links d

/- A document cannot be compared, since git has no such blob: the copies that it holds are within
reach by another document. -/
def SkipMeets (v : Pipe B M) (c : Chain B M) (cur : Nat × B) : Prop :=
  ∀ b,v.ei.xref3.Has (b.row cur.1) → (b.oid,.bad) ∉ v.log → b.oid ≠ cur.2 → Same t b.oid c.req.oid →
    Attached v.ei b c.req ∨ Reaches v.ei.links v.ei ⟨c,none,none⟩ b

-- A request in flight for a copy of the article `z`, which `c` has just attached, comes to it.
def Finds (v : Pipe B M) (c : Chain B M) (z : Article B) (sc : Scan B M) : Prop :=
  (z.oid,Found.bad) ∉ v.log → Same t z.oid sc.chain.req.oid → z.oid ∉ sc.lost → sc.chain.req ≠ c.req →
    Attached v.ei z sc.chain.req ∨ ∃ d ∈ c.docs v.ei,Within (relinked t boost v.ei c z) sc d

def StillFinds (v : Pipe B M) (c : Chain B M) (z : Article B) (sc : Scan B M) : Prop :=
  ∀ b,Owes t v sc b → Reaches v.ei.links v.ei sc b →
    Attached v.ei b sc.chain.req ∨ Reaches (relinked t boost v.ei c z) v.ei sc b

/- A request is done: every other request for a copy of its message comes to one of its
documents, and to the copies it came to before. -/
def AttachMeets (v : Pipe B M) (c : Chain B M) : Prop :=
  ∀ z ∈ c.req.article,∀ sc ∈ v.scans,Finds t boost v c z sc ∧ StillFinds t boost v c z sc

def LostMeets (v : Pipe B M) (oid : B) : Prop :=
  ∀ sc ∈ v.scans,sc.chain.req.oid = oid → ∀ b,Owes t v sc b → b.oid ≠ oid → Reaches v.ei.links v.ei sc b

def TurnMeets (v : Pipe B M) (turn : Turn B) : Prop :=
  match turn with
  | .respond found => v.busy = false → match v.fifo with
    | .start a :: _ => found = .blob → StartMeets t v a
    | .compare c cur :: _ => found ≠ .blob → SkipMeets t v c cur
    | [] => True
  | .doStep => match v.frames with
    | .stepping c :: frames => v.ei.candidate c = none → AttachMeets t boost { v with frames := frames } c
    | _ => True
  | .drained => match v.frames,v.fifo with
    | .draining _ cur :: _,[] => LostMeets t v cur.2
    | _,_ => True
  | _ => True

variable {t boost} {s : Ei B M} {v : Pipe B M}

def Covered (t : Mails B M H) (v : Pipe B M) : Prop :=
  ∀ sc ∈ v.scans,∀ b,Owes t v sc b → Attached v.ei b sc.chain.req ∨ Reaches v.ei.links v.ei sc b

def Joined (t : Mails B M H) (v : Pipe B M) : Prop :=
  ∀ a b,Held v.ei a → Held v.ei b → (a.oid,.bad) ∉ v.log → (b.oid,.bad) ∉ v.log → Same t a.oid b.oid →
    ∃ d,v.ei.xref3.Has (a.row d) ∧ v.ei.xref3.Has (b.row d)

structure Kept (v : Pipe B M) : Prop where
  lost : ∀ sc ∈ v.scans,∀ b ∈ sc.lost,(b,.missing) ∈ v.log
  seen : ∀ a ∈ v.seen,(a.oid,.missing) ∈ v.log ∨ Held v.ei a ∨ ∃ sc ∈ v.scans,sc.chain.req = a.req

omit [LinearOrder B] in
theorem reqArticle (a : Article B) : a.req.article = some a := rfl

omit [LinearOrder B] in
theorem rowInj {a b : Article B} {d e : Nat} (same : a.row d = b.row e) : a = b ∧ d = e := by
  cases a
  cases b
  simp only [Article.row,Xref3.mk.injEq] at same
  obtain ⟨rfl,rfl,rfl,rfl⟩ := same
  exact ⟨rfl,rfl⟩

omit [LinearOrder B] [DecidableEq M] [DecidableEq H] in
theorem sameSymm {x y : B} (same : Same t x y) : Same t y x := by
  obtain ⟨hash,m,left,right⟩ := same
  exact ⟨hash.symm,m,right,left⟩

omit [DecidableEq M] in
theorem Attached.mono {u : Ei B M} (rows : ∀ r,s.xref3.Has r → u.xref3.Has r) {a : Article B} {q : Req B}
    (attached : Attached s a q) : Attached u a q := by
  obtain ⟨b,own,d,left,right⟩ := attached
  exact ⟨b,own,d,rows _ left,rows _ right⟩

section
omit [DecidableEq M] [DecidableEq H]

theorem coveredFrom {w : Pipe B M} (covered : Covered t v) (ei : w.ei = v.ei) (log : ∀ x,x ∈ v.log → x ∈ w.log)
    (scans : ∀ sc ∈ w.scans,sc ∈ v.scans ∨ ∀ b,Owes t w sc b →
      Attached w.ei b sc.chain.req ∨ Reaches w.ei.links w.ei sc b) : Covered t w := by
  intro sc mem b owes
  rcases scans sc mem with old | new
  · rw [ei]
    exact covered sc old b ⟨ei ▸ owes.held,fun bad => owes.readable (log _ bad),owes.same,owes.kept⟩
  · exact new b owes

theorem joinedFrom {w : Pipe B M} (joined : Joined t v) (ei : w.ei = v.ei)
    (log : ∀ x,x ∈ v.log → x ∈ w.log) : Joined t w := by
  intro a b left right goodA goodB same
  rw [ei] at left right ⊢
  exact joined a b left right (fun bad => goodA (log _ bad)) (fun bad => goodB (log _ bad)) same

theorem skipReaches {c : Chain B M} {cur : Nat × B} {rest : List (Job B M)}
    (first : v.fifo = .compare c cur :: rest) (covered : Covered t v) (meets : SkipMeets t v c cur)
    {b : Article B} (held : Held v.ei b) (readable : (b.oid,.bad) ∉ v.log) (same : Same t b.oid c.req.oid)
    (kept : b.oid ≠ cur.2) : Attached v.ei b c.req ∨ Reaches v.ei.links v.ei ⟨c,none,none⟩ b := by
  rcases covered _ (firstScan first) b ⟨held,readable,same,by simp⟩ with attached | ⟨d,row,within⟩
  · exact Or.inl attached
  · rcases within with matched | here | ahead
    · exact Or.inr ⟨d,row,Or.inl matched⟩
    · cases here
      exact meets b row readable kept same
    · exact Or.inr ⟨d,row,Or.inr (Or.inr ahead)⟩

end

omit [DecidableEq M] in
theorem docsSome (c : Chain B M) (s : Ei B M) : ∃ d,d ∈ c.docs s := by
  unfold Chain.docs
  split
  · exact ⟨_,List.mem_cons_self⟩
  · rename_i matched
    exact List.exists_mem_of_ne_nil _ matched

omit [DecidableEq M] [DecidableEq H] in
theorem attachCovered {kind : Nat → H} {c : Chain B M} {frames : List (Frame B M)} (sound : Sound t kind v)
    (top : v.frames = .stepping c :: frames) (covered : Covered t v)
    (meets : AttachMeets t boost { v with frames := frames } c) :
    Covered t { v with ei := v.ei.doFinalize t boost c, frames := frames } := by
  obtain ⟨z,req⟩ := (sound.matched _ (topScan top List.mem_cons_self)).article
  have spec := finalizeSpec t boost v.ei req
  have grows : ∀ r,v.ei.xref3.Has r → (v.ei.doFinalize t boost c).xref3.Has r := fun r has => (spec.rows r).mpr (Or.inl has)
  have links : (v.ei.doFinalize t boost c).links = relinked t boost v.ei c z := funext spec.linked
  intro sc mem b owes
  obtain ⟨attach,unlink⟩ := meets z (by rw [req]; exact rfl) sc mem
  change Attached (v.ei.doFinalize t boost c) b sc.chain.req ∨
    Reaches (v.ei.doFinalize t boost c).links (v.ei.doFinalize t boost c) sc b
  rw [links]
  have before : Held v.ei b → Attached (v.ei.doFinalize t boost c) b sc.chain.req ∨
      Reaches (relinked t boost v.ei c z) (v.ei.doFinalize t boost c) sc b := by
    intro held
    have owed : Owes t v sc b := ⟨held,owes.readable,owes.same,owes.kept⟩
    have still : Attached v.ei b sc.chain.req ∨ Reaches (relinked t boost v.ei c z) v.ei sc b := by
      rcases covered sc (restScans top mem) b owed with attached | reaches
      · exact Or.inl attached
      · exact unlink b ⟨held,owes.readable,owes.same,owes.kept⟩ reaches
    refine still.imp (fun attached => attached.mono grows) ?_
    rintro ⟨d,row,within⟩
    exact ⟨d,grows _ row,within⟩
  obtain ⟨d,row⟩ := owes.held
  rcases (spec.rows _).mp row with old | ⟨d',made,same⟩
  · exact before ⟨d,old⟩
  · obtain ⟨rfl,rfl⟩ := rowInj same
    by_cases own : sc.chain.req = c.req
    · obtain ⟨e,doc⟩ := docsSome c v.ei
      have has := (spec.rows (b.row e)).mpr (Or.inr ⟨e,doc,rfl⟩)
      exact Or.inl ⟨b,by rw [own,req]; exact rfl,e,has,has⟩
    · rcases attach owes.readable owes.same owes.kept own with attached | ⟨e,doc,within⟩
      · exact Or.inl (attached.mono grows)
      · exact Or.inr ⟨e,(spec.rows _).mpr (Or.inr ⟨e,doc,rfl⟩),within⟩

omit [DecidableEq H] in
theorem attachJoined {kind : Nat → H} {c : Chain B M} {frames : List (Frame B M)} (sound : Sound t kind v)
    (top : v.frames = .stepping c :: frames) (next : v.ei.candidate c = none) (covered : Covered t v)
    (joined : Joined t v) : Joined t { v with ei := v.ei.doFinalize t boost c, frames := frames } := by
  have scan : ⟨c,none,none⟩ ∈ v.scans := topScan top List.mem_cons_self
  obtain ⟨z,req⟩ := (sound.matched _ scan).article
  have spec := finalizeSpec t boost v.ei req
  have grows : ∀ r,v.ei.xref3.Has r → (v.ei.doFinalize t boost c).xref3.Has r := fun r has => (spec.rows r).mpr (Or.inl has)
  have oid : c.req.oid = z.oid := by rw [req]; exact rfl
  have meeting : ∀ a,Held v.ei a → (a.oid,.bad) ∉ v.log → Same t a.oid z.oid →
      ∃ d,(v.ei.doFinalize t boost c).xref3.Has (a.row d) ∧ (v.ei.doFinalize t boost c).xref3.Has (z.row d) := by
    intro a held good same
    rcases covered _ scan a ⟨held,good,oid.symm ▸ same,by simp⟩ with ⟨b,own,d,left,right⟩ | ⟨d,row,within⟩
    · rw [req,reqArticle] at own
      cases own
      exact ⟨d,grows _ left,grows _ right⟩
    · rcases within with matched | here | ahead
      · have docs : d ∈ c.docs v.ei := by
          unfold Chain.docs
          rw [if_neg (List.ne_nil_of_mem matched)]
          exact matched
        exact ⟨d,grows _ row,(spec.rows _).mpr (Or.inr ⟨d,docs,rfl⟩)⟩
      · cases here
      · exact absurd ahead (candidateNone sound.sorted.linked next (sound.sorted.rows _ row).2.1)
  intro a b left right goodA goodB same
  obtain ⟨d,rowA⟩ := left
  obtain ⟨e,rowB⟩ := right
  rcases (spec.rows _).mp rowA with oldA | ⟨d',madeA,sameA⟩ <;> rcases (spec.rows _).mp rowB with oldB | ⟨e',madeB,sameB⟩
  · obtain ⟨x,left,right⟩ := joined a b ⟨d,oldA⟩ ⟨e,oldB⟩ goodA goodB same
    exact ⟨x,grows _ left,grows _ right⟩
  · obtain ⟨rfl,rfl⟩ := rowInj sameB
    exact meeting a ⟨d,oldA⟩ goodA same
  · obtain ⟨rfl,rfl⟩ := rowInj sameA
    obtain ⟨x,left,right⟩ := meeting b ⟨e,oldB⟩ goodB (sameSymm same)
    exact ⟨x,right,left⟩
  · obtain ⟨rfl,rfl⟩ := rowInj sameA
    obtain ⟨rfl,rfl⟩ := rowInj sameB
    exact ⟨d,rowA,rowA⟩

omit [DecidableEq M] in
theorem missingHeld {x : Nat × B} {a : Article B} {d : Nat} :
    (s.blobMissing x).xref3.Has (a.row d) ↔ s.xref3.Has (a.row d) ∧ a.oid ≠ x.2 := blobMissingHas

omit [DecidableEq H] [DecidableEq M] in
theorem lostJoined {x : Nat × B} {frames : List (Frame B M)} (joined : Joined t v) :
    Joined t { v with ei := v.ei.blobMissing x, frames := frames } := by
  rintro a b ⟨d,left⟩ ⟨e,right⟩ goodA goodB same
  obtain ⟨rowA,keptA⟩ := missingHeld.mp left
  obtain ⟨rowB,keptB⟩ := missingHeld.mp right
  obtain ⟨f,left,right⟩ := joined a b ⟨d,rowA⟩ ⟨e,rowB⟩ goodA goodB same
  exact ⟨f,missingHeld.mpr ⟨left,keptA⟩,missingHeld.mpr ⟨right,keptB⟩⟩

omit [DecidableEq H] [DecidableEq M] in
theorem lostCovered {c : Chain B M} {x : Nat × B} {frames : List (Frame B M)}
    (top : v.frames = .draining c x :: frames) (covered : Covered t v) (meets : LostMeets t v x.2) :
    Covered t { v with ei := v.ei.blobMissing x, frames := .stepping c :: frames } := by
  intro sc mem b owes
  obtain ⟨d,row⟩ := owes.held
  obtain ⟨row,other⟩ := missingHeld.mp row
  obtain ⟨-,links,-,-⟩ := blobMissingSpec v.ei x
  -- The request of this frame is in flight before, with the blob it waits for.
  have old : ∃ sc' ∈ v.scans,sc'.chain = sc.chain ∧ sc'.cur = sc.cur ∧ b.oid ∉ sc'.lost := by
    rcases topScans top mem with old | new
    · exact ⟨sc,old,rfl,rfl,owes.kept⟩
    · rw [List.mem_singleton.mp new]
      refine ⟨⟨c,none,some x.2⟩,topScan top List.mem_cons_self,rfl,rfl,fun lost => ?_⟩
      exact other (Option.some.inj lost).symm
  obtain ⟨sc',inside,chain,cur,kept⟩ := old
  have owed : Owes t v sc' b := ⟨⟨d,row⟩,owes.readable,chain ▸ owes.same,kept⟩
  have reaches : Reaches v.ei.links v.ei sc' b → Reaches (v.ei.blobMissing x).links (v.ei.blobMissing x) sc b := by
    rintro ⟨e,row,within⟩
    have has := missingHeld.mpr ⟨row,other⟩
    refine ⟨e,has,?_⟩
    have same := (links e).resolve_right fun none => none _ has rfl
    unfold Within Ahead at within ⊢
    rw [chain,cur] at within
    rw [same]
    exact within
  by_cases blob : sc.chain.req.oid = x.2
  · exact Or.inr (reaches (meets sc' inside (by rw [chain]; exact blob) b owed other))
  · rcases covered sc' inside b owed with ⟨a,own,e,left,right⟩ | reach
    · refine Or.inl ⟨a,chain ▸ own,e,missingHeld.mpr ⟨left,other⟩,missingHeld.mpr ⟨right,?_⟩⟩
      intro lost
      refine blob ?_
      rw [chain] at own
      unfold Req.article at own
      split at own
      · cases own
        exact lost
      · contradiction
    · exact Or.inr (reaches reach)

section
omit [DecidableEq H]

theorem meetsFirst {a : Article B} {rest : List (Job B M)} (free : v.busy = false)
    (first : v.fifo = .start a :: rest) (meets : TurnMeets t boost v (.respond .blob)) : StartMeets t v a := by
  have met := meets free
  simp only [first] at met
  exact met trivial

theorem meetsSkip {c : Chain B M} {cur : Nat × B} {rest : List (Job B M)} {found : Found} (free : v.busy = false)
    (first : v.fifo = .compare c cur :: rest) (not : found ≠ .blob)
    (meets : TurnMeets t boost v (.respond found)) : SkipMeets t v c cur := by
  have met := meets free
  simp only [first] at met
  exact met not

theorem startedCovered {a : Article B} {rest : List (Job B M)} (free : v.busy = false) (first : v.fifo = .start a :: rest)
    (meets : TurnMeets t boost v (.respond .blob)) (covered : Covered t v) :
    Covered t { v with fifo := rest, frames := .stepping ⟨a.req,t.mids a.oid,none,[]⟩ :: v.frames,
                       seen := v.seen ++ [a], log := v.log ++ [(a.oid,.blob)] } := by
  refine coveredFrom covered rfl (fun x mem => List.mem_append_left _ mem) fun sc mem =>
    (popScans first mem).imp id fun own b owes => ?_
  rw [List.mem_singleton.mp own] at owes ⊢
  have readable : (b.oid,.bad) ∉ v.log := fun bad => owes.readable (List.mem_append_left _ bad)
  refine (meetsFirst free first meets b owes.held readable owes.same).imp id ?_
  rintro ⟨d,row,m,mem,linked⟩
  exact ⟨d,row,Or.inr (Or.inr (Or.inl ⟨m,mem,linked⟩))⟩

end

omit [DecidableEq M] in
theorem comparedCovered {kind : Nat → H} (sound : Sound t kind v) {c : Chain B M} {cur : Nat × B} {rest : List (Job B M)}
    (first : v.fifo = .compare c cur :: rest) (covered : Covered t v) :
    Covered t { v with fifo := rest, log := v.log ++ [(cur.2,.blob)]
                       frames := .stepping (if t.contentHash cur.2 = t.contentHash c.req.oid
                         then { c with indexed := c.indexed ++ [cur.1] } else c) :: v.frames } := by
  refine coveredFrom covered rfl (fun x mem => List.mem_append_left _ mem) fun sc mem =>
    (popScans first mem).imp id fun own b owes => ?_
  rw [List.mem_singleton.mp own] at owes ⊢
  have readable : (b.oid,.bad) ∉ v.log := fun bad => owes.readable (List.mem_append_left _ bad)
  have own := (sound.matched _ (firstScan first)).cur cur rfl
  by_cases hash : t.contentHash cur.2 = t.contentHash c.req.oid
  · simp only [if_pos hash] at owes ⊢
    refine (covered _ (firstScan first) b ⟨owes.held,readable,owes.same,by simp⟩).imp id ?_
    rintro ⟨d,row,within⟩
    refine ⟨d,row,?_⟩
    rcases within with matched | here | ahead
    · exact Or.inl (List.mem_append_left _ matched)
    · cases here
      exact Or.inl (List.mem_append_right _ List.mem_cons_self)
    · exact Or.inr (Or.inr ahead)
  · simp only [if_neg hash] at owes ⊢
    refine (covered _ (firstScan first) b ⟨owes.held,readable,owes.same,by simp⟩).imp id ?_
    rintro ⟨d,row,within⟩
    refine ⟨d,row,?_⟩
    rcases within with matched | here | ahead
    · exact Or.inl matched
    · cases here
      exact absurd (own.1.trans ((sound.sorted.rows _ row).1.symm.trans owes.same.1)) hash
    · exact Or.inr (Or.inr ahead)

omit [DecidableEq H] in
theorem lookedCovered {kind : Nat → H} (sound : Sound t kind v) {c : Chain B M} {frames : List (Frame B M)} {mid : M}
    {ms : List M} {x : Nat × B} (top : v.frames = .stepping c :: frames) (next : v.ei.candidate c = some (mid,ms,x))
    (covered : Covered t v) :
    Covered t { v with frames := .pushing (.compare { c with mids := ms, nextArg := some (mid,x.1) } x) :: frames } := by
  refine coveredFrom covered rfl (fun x mem => mem) fun sc mem => (topScans top mem).imp id fun own b owes => ?_
  rw [List.mem_singleton.mp own] at owes ⊢
  refine (covered ⟨c,none,none⟩ (topScan top List.mem_cons_self) b
    ⟨owes.held,owes.readable,owes.same,owes.kept⟩).imp id ?_
  rintro ⟨d,row,within⟩
  refine ⟨d,row,?_⟩
  rcases within with matched | here | ahead
  · exact Or.inl matched
  · cases here
  · rcases (candidateSome sound.sorted.linked next).2 d (sound.sorted.rows _ row).2.1 ahead with rfl | later
    · exact Or.inr (Or.inl rfl)
    · exact Or.inr (Or.inr later)

theorem coveredTurn {kind : Nat → H} {v' : Pipe B M} {turn : Turn B} (sound : Sound t kind v)
    (turned : Turned t boost v turn v') (meets : TurnMeets t boost v turn) (covered : Covered t v) :
    Covered t v' := by
  cases turned with
  | idle => exact covered
  | request free =>
    refine coveredFrom covered rfl (fun x mem => mem) fun sc mem => Or.inl ?_
    rw [memScans] at mem ⊢
    rcases mem with inside | ⟨f,mem,own⟩
    · exact Or.inl inside
    · rw [List.mem_singleton.mp mem] at own
      exact absurd own List.not_mem_nil
  | push top => exact coveredFrom covered rfl (fun x mem => mem) fun sc mem => Or.inl ((pushScans top).mp mem)
  | started free first => exact startedCovered free first meets covered
  | unread first =>
    refine coveredFrom covered rfl (fun x mem => List.mem_append_left _ mem) fun sc mem => Or.inl ?_
    refine (scansFrom (v := v) [] ?_ ?_ mem).resolve_right (by simp)
    · intro k later
      rw [first]
      exact List.mem_cons_of_mem _ later
    · exact fun g inside => Or.inl inside
  | compared free first => exact comparedCovered sound first covered
  | bad free first =>
    rename_i c cur rest
    refine coveredFrom covered rfl (fun x mem => List.mem_append_left _ mem) fun sc mem =>
      (popScans first mem).imp id fun own b owes => ?_
    rw [List.mem_singleton.mp own] at owes ⊢
    have readable : (b.oid,.bad) ∉ v.log := fun bad => owes.readable (List.mem_append_left _ bad)
    refine skipReaches first covered (meetsSkip free first (by simp) meets) owes.held readable owes.same ?_
    intro lost
    exact owes.readable (List.mem_append_right _ (by rw [lost]; exact List.mem_cons_self))
  | missing free first =>
    rename_i c cur rest
    refine coveredFrom covered rfl (fun x mem => List.mem_append_left _ mem) fun sc mem =>
      (popScans first mem).imp id fun own b owes => ?_
    rw [List.mem_singleton.mp own] at owes ⊢
    have readable : (b.oid,.bad) ∉ v.log := fun bad => owes.readable (List.mem_append_left _ bad)
    refine skipReaches first covered (meetsSkip free first (by simp) meets) owes.held readable owes.same ?_
    intro lost
    exact owes.kept (by rw [lost]; exact rfl)
  | looked top next => exact lookedCovered sound top next covered
  | finished top next =>
    rename_i c frames
    have met : AttachMeets t boost { v with frames := frames } c := by
      unfold TurnMeets at meets
      simp only [top] at meets
      exact meets next
    exact attachCovered sound top covered met
  | drained top dry =>
    rename_i c cur frames
    have met : LostMeets t v cur.2 := by
      unfold TurnMeets at meets
      simp only [top,dry] at meets
      exact meets
    exact lostCovered top covered met

theorem joinedTurn {kind : Nat → H} {v' : Pipe B M} {turn : Turn B} (sound : Sound t kind v)
    (turned : Turned t boost v turn v') (covered : Covered t v) (joined : Joined t v) : Joined t v' := by
  cases turned with
  | idle => exact joined
  | request | push | looked => exact joinedFrom joined rfl fun x mem => mem
  | started | unread | compared | bad | missing =>
    exact joinedFrom joined rfl fun x mem => List.mem_append_left _ mem
  | finished top next => exact attachJoined sound top next covered joined
  | drained top dry => exact lostJoined joined

theorem carried {v' : Pipe B M} {turn : Turn B}
    (turned : Turned t boost v turn v') {sc : Scan B M} (mem : sc ∈ v.scans) {a : Article B}
    (req : sc.chain.req = a.req) : Held v'.ei a ∨ ∃ sc' ∈ v'.scans,sc'.chain.req = a.req := by
  -- The first line's request, or the top frame's, goes on in a frame of its own.
  have jobs : ∀ {j : Job B M} {rest : List (Job B M)},v.fifo = j :: rest →
      sc ∈ j.scans ∨ (∃ k ∈ rest,sc ∈ k.scans) ∨ ∃ f ∈ v.frames,sc ∈ f.scans := by
    intro j rest first
    rw [memScans,first] at mem
    rcases mem with ⟨k,inside,own⟩ | ⟨f,inside,own⟩
    · rcases List.mem_cons.mp inside with rfl | later
      · exact Or.inl own
      · exact Or.inr (Or.inl ⟨k,later,own⟩)
    · exact Or.inr (Or.inr ⟨f,inside,own⟩)
  have layers : ∀ {f : Frame B M} {frames : List (Frame B M)},v.frames = f :: frames →
      sc ∈ f.scans ∨ (∃ k ∈ v.fifo,sc ∈ k.scans) ∨ ∃ g ∈ frames,sc ∈ g.scans := by
    intro f frames top
    rw [memScans,top] at mem
    rcases mem with ⟨k,inside,own⟩ | ⟨g,inside,own⟩
    · exact Or.inr (Or.inl ⟨k,inside,own⟩)
    · rcases List.mem_cons.mp inside with rfl | later
      · exact Or.inl own
      · exact Or.inr (Or.inr ⟨g,later,own⟩)
  have go : ∀ {w : Pipe B M} {f : Frame B M} {frames : List (Frame B M)} {own : Scan B M},w.frames = f :: frames →
      own ∈ f.scans → own.chain.req = a.req → ∃ sc' ∈ w.scans,sc'.chain.req = a.req :=
    fun top own same => ⟨_,topScan top own,same⟩
  have rest : ∀ {w : Pipe B M},((∃ k ∈ w.fifo,sc ∈ k.scans) ∨ ∃ f ∈ w.frames,sc ∈ f.scans) →
      ∃ sc' ∈ w.scans,sc'.chain.req = a.req := fun inside => ⟨sc,memScans.mpr inside,req⟩
  cases turned with
  | idle => exact Or.inr ⟨sc,mem,req⟩
  | request free =>
    refine Or.inr (rest ?_)
    rw [memScans,free] at mem
    exact Or.inl (mem.resolve_right (by simp))
  | push top => exact Or.inr ⟨sc,(pushScans top).mpr mem,req⟩
  | started free first =>
    rcases jobs first with own | later
    · exact absurd own List.not_mem_nil
    · exact Or.inr (rest (later.imp id fun inside => inside.imp fun f both => ⟨List.mem_cons_of_mem _ both.1,both.2⟩))
  | unread first =>
    rcases jobs first with own | later
    · exact absurd own List.not_mem_nil
    · exact Or.inr (rest later)
  | compared free first =>
    rcases jobs first with own | later
    · rw [List.mem_singleton.mp own] at req
      refine Or.inr (go rfl List.mem_cons_self ?_)
      dsimp only
      split <;> exact req
    · exact Or.inr (rest (later.imp id fun inside => inside.imp fun f both => ⟨List.mem_cons_of_mem _ both.1,both.2⟩))
  | bad free first | missing free first =>
    rcases jobs first with own | later
    · rw [List.mem_singleton.mp own] at req
      exact Or.inr (go rfl List.mem_cons_self req)
    · exact Or.inr (rest (later.imp id fun inside => inside.imp fun f both => ⟨List.mem_cons_of_mem _ both.1,both.2⟩))
  | looked top next =>
    rcases layers top with own | later
    · rw [List.mem_singleton.mp own] at req
      exact Or.inr (go rfl List.mem_cons_self req)
    · exact Or.inr (rest (later.imp id fun inside => inside.imp fun f both => ⟨List.mem_cons_of_mem _ both.1,both.2⟩))
  | finished top next =>
    rcases layers top with own | later
    · rw [List.mem_singleton.mp own] at req
      have spec := finalizeSpec t boost v.ei req
      obtain ⟨d,doc⟩ := docsSome _ v.ei
      exact Or.inl ⟨d,(spec.rows _).mpr (Or.inr ⟨d,doc,rfl⟩)⟩
    · exact Or.inr (rest later)
  | drained top dry =>
    rcases layers top with own | later
    · rw [List.mem_singleton.mp own] at req
      exact Or.inr (go rfl List.mem_cons_self req)
    · exact Or.inr (rest (later.imp id fun inside => inside.imp fun f both => ⟨List.mem_cons_of_mem _ both.1,both.2⟩))

theorem lostTurn {v' : Pipe B M} {turn : Turn B} (turned : Turned t boost v turn v')
    (lost : ∀ sc ∈ v.scans,∀ b ∈ sc.lost,(b,.missing) ∈ v.log) :
    (∀ x,x ∈ v.log → x ∈ v'.log) ∧ ∀ sc ∈ v'.scans,∀ b ∈ sc.lost,(b,.missing) ∈ v'.log := by
  cases turned with
  | idle => exact ⟨fun x mem => mem,lost⟩
  | request free =>
    refine ⟨fun x mem => mem,fun sc mem => ?_⟩
    rw [memScans] at mem
    rcases mem with inside | ⟨f,mem,own⟩
    · exact lost sc (memScans.mpr (Or.inl inside))
    · rw [List.mem_singleton.mp mem] at own
      exact absurd own List.not_mem_nil
  | push top => exact ⟨fun x mem => mem,fun sc mem => lost sc ((pushScans top).mp mem)⟩
  | started free first | compared free first | bad free first =>
    refine ⟨fun x mem => List.mem_append_left _ mem,fun sc mem b out => ?_⟩
    rcases popScans first mem with old | own
    · exact List.mem_append_left _ (lost sc old b out)
    · rw [List.mem_singleton.mp own] at out
      cases out
  | unread first =>
    refine ⟨fun x mem => List.mem_append_left _ mem,fun sc mem b out => List.mem_append_left _ (lost sc ?_ b out)⟩
    refine (scansFrom (v := v) [] ?_ ?_ mem).resolve_right (by simp)
    · intro k later
      rw [first]
      exact List.mem_cons_of_mem _ later
    · exact fun g inside => Or.inl inside
  | missing free first =>
    refine ⟨fun x mem => List.mem_append_left _ mem,fun sc mem b out => ?_⟩
    rcases popScans first mem with old | own
    · exact List.mem_append_left _ (lost sc old b out)
    · rw [List.mem_singleton.mp own] at out
      cases out
      exact List.mem_append_right _ List.mem_cons_self
  | looked top next | drained top dry =>
    refine ⟨fun x mem => mem,fun sc mem b out => ?_⟩
    rcases topScans top mem with old | own
    · exact lost sc old b out
    · rw [List.mem_singleton.mp own] at out
      cases out
  | finished top next => exact ⟨fun x mem => mem,fun sc mem => lost sc (restScans top mem)⟩

theorem keptTurn {kind : Nat → H} {v' : Pipe B M} {turn : Turn B} (sound : Sound t kind v)
    (turned : Turned t boost v turn v') (kept : Kept v) : Kept v' := by
  obtain ⟨log,lost⟩ := lostTurn turned kept.lost
  refine ⟨lost,?_⟩
  have held : ∀ a,Held v.ei a → (a.oid,.missing) ∈ v'.log ∨ Held v'.ei a := by
    rintro a ⟨d,row⟩
    cases turned with
    | finished top next =>
      obtain ⟨z,req⟩ := (sound.matched _ (topScan top List.mem_cons_self)).article
      exact Or.inr ⟨d,((finalizeSpec t boost v.ei req).rows _).mpr (Or.inl row)⟩
    | drained top dry =>
      rename_i c cur frames
      by_cases same : a.oid = cur.2
      · exact Or.inl (kept.lost _ (topScan top List.mem_cons_self) _ (congrArg some same.symm))
      · exact Or.inr ⟨d,missingHeld.mpr ⟨row,same⟩⟩
    | _ => exact Or.inr ⟨d,row⟩
  have old : ∀ a ∈ v.seen,(a.oid,.missing) ∈ v'.log ∨ Held v'.ei a ∨ ∃ sc ∈ v'.scans,sc.chain.req = a.req := by
    intro a mem
    rcases kept.seen a mem with gone | has | ⟨sc,flying,req⟩
    · exact Or.inl (log _ gone)
    · exact (held a has).imp id Or.inl
    · exact Or.inr (carried turned flying req)
  cases turned with
  | started free first =>
    intro a mem
    rcases List.mem_append.mp mem with earlier | new
    · exact old a earlier
    · rw [List.mem_singleton.mp new]
      exact Or.inr (Or.inr ⟨_,topScan rfl List.mem_cons_self,rfl⟩)
  | _ => exact old

structure Copied (t : Mails B M H) (v : Pipe B M) : Prop where
  sound : ∃ kind,Sound t kind v
  covered : Covered t v
  joined : Joined t v
  kept : Kept v

omit [DecidableEq M] [DecidableEq H] in
theorem emptyCopied (kind : Nat → H) : Copied t (Pipe.empty : Pipe B M) := by
  have rowless : ∀ r,¬ (Pipe.empty : Pipe B M).ei.xref3.Has r := Rel.hasEmpty
  have none : ∀ n,(Pipe.empty : Pipe B M).ei.over.get? n = none := Table.getEmpty
  refine ⟨⟨kind,⟨fun r has => absurd has (rowless r),fun n b found => ?_,fun n => Iff.rfl⟩,
    fun sc mem => absurd mem List.not_mem_nil⟩,fun sc mem => absurd mem List.not_mem_nil,?_,
    fun sc mem => absurd mem List.not_mem_nil,fun a mem => absurd mem List.not_mem_nil⟩
  · rw [none] at found
    contradiction
  · rintro a b ⟨d,row⟩
    exact absurd row (rowless _)

theorem copiedTurn (copied : Copied t v) {turn : Turn B} (meets : TurnMeets t boost v turn) :
    Copied t (v.step t boost turn) := by
  obtain ⟨⟨kind,sound⟩,covered,joined,kept⟩ := copied
  have turned := turned t boost v turn
  obtain ⟨kind',later,-⟩ := soundTurn sound turned
  exact ⟨⟨kind',later⟩,coveredTurn sound turned meets covered,joinedTurn sound turned covered joined,
    keptTurn sound turned kept⟩

/- Once no request is in flight, every article that was read has a document, unless git was
since without its blob, and two copies of a message have one in common. -/
def Deduplicated (t : Mails B M H) (v : Pipe B M) : Prop :=
  v.fifo = [] → v.frames = [] →
    (∀ a ∈ v.seen,(a.oid,.missing) ∉ v.log → ∃ d,v.ei.xref3.Has (a.row d)) ∧
    ∀ a b : Article B,(∃ d,v.ei.xref3.Has (a.row d)) → (∃ d,v.ei.xref3.Has (b.row d)) →
      (a.oid,.bad) ∉ v.log → (b.oid,.bad) ∉ v.log →
      t.contentHash a.oid = t.contentHash b.oid → (∃ m ∈ t.mids a.oid,m ∈ t.mids b.oid) →
      ∃ d,v.ei.xref3.Has (a.row d) ∧ v.ei.xref3.Has (b.row d)

theorem copiesMeet {turns : List (Turn B)} (met : Along (Pipe.step t boost) (TurnMeets t boost) .empty turns) :
    Deduplicated t (turns.foldl (Pipe.step t boost) .empty) := by
  intro fifo frames
  rcases isEmpty_or_nonempty H with none | ⟨⟨h⟩⟩
  · exact ⟨fun a => none.elim (t.contentHash a.oid),fun a => none.elim (t.contentHash a.oid)⟩
  · have copied : Copied t (turns.foldl (Pipe.step t boost) .empty) :=
      keeps (Copied t) (fun _ _ copied meets => copiedTurn copied meets) (emptyCopied fun _ => h) met
    refine ⟨fun a mem found => ?_,fun a b left right goodA goodB hash mids =>
      copied.joined a b left right goodA goodB ⟨hash,mids⟩⟩
    rcases copied.kept.seen a mem with gone | held | ⟨sc,flying,-⟩
    · exact absurd gone found
    · exact held
    · rw [memScans,fifo,frames] at flying
      simp at flying

instance (x y : B) : Decidable (Same t x y) := inferInstanceAs (Decidable (_ ∧ _))

instance heldAll {p : Article B → Prop} [DecidablePred p] : Decidable (∀ b,Held s b → p b) :=
  decidable_of_iff (∀ r ∈ s.xref3.keys,p r.article) (by
    constructor
    · rintro all b ⟨d,row⟩
      exact all _ (Rel.hasKeys.mpr row)
    · exact fun all r mem => all _ ⟨r.docid,Rel.hasKeys.mp mem⟩)

instance rowSome {p : Nat → Prop} [DecidablePred p] (a : Article B) : Decidable (∃ d,s.xref3.Has (a.row d) ∧ p d) :=
  decidable_of_iff (∃ r ∈ s.xref3.keys,r.article = a ∧ p r.docid) (by
    constructor
    · rintro ⟨r,mem,rfl,yes⟩
      exact ⟨r.docid,Rel.hasKeys.mp mem,yes⟩
    · rintro ⟨d,row,yes⟩
      exact ⟨_,Rel.hasKeys.mpr row,rfl,yes⟩)

instance (a : Article B) (q : Req B) : Decidable (Attached s a q) :=
  inferInstanceAs (Decidable (∃ b ∈ q.article,∃ d,s.xref3.Has (a.row d) ∧ s.xref3.Has (b.row d)))

instance (links : Nat → List M) (sc : Scan B M) (d : Nat) : Decidable (Within links sc d) :=
  inferInstanceAs (Decidable (_ ∨ _ ∨ _))

instance (links : Nat → List M) (sc : Scan B M) (a : Article B) : Decidable (Reaches links s sc a) :=
  inferInstanceAs (Decidable (∃ d,s.xref3.Has (a.row d) ∧ Within links sc d))

omit [DecidableEq M] [DecidableEq H] in
theorem owesAll {sc : Scan B M} {p : Article B → Prop} : (∀ b,Owes t v sc b → p b) ↔
    ∀ b,Held v.ei b → (b.oid,Found.bad) ∉ v.log ∧ Same t b.oid sc.chain.req.oid ∧ b.oid ∉ sc.lost → p b :=
  ⟨fun all b held rest => all b ⟨held,rest.1,rest.2.1,rest.2.2⟩,
    fun all b owes => all b owes.held ⟨owes.readable,owes.same,owes.kept⟩⟩

instance (a : Article B) : Decidable (StartMeets t v a) :=
  inferInstanceAs (Decidable (∀ b,Held v.ei b → _ → _ → _ ∨ ∃ d,v.ei.xref3.Has (b.row d) ∧ _))

instance (c : Chain B M) (cur : Nat × B) : Decidable (SkipMeets t v c cur) :=
  decidable_of_iff (∀ b,Held v.ei b → v.ei.xref3.Has (b.row cur.1) → (b.oid,Found.bad) ∉ v.log → b.oid ≠ cur.2 →
      Same t b.oid c.req.oid → Attached v.ei b c.req ∨ Reaches v.ei.links v.ei ⟨c,none,none⟩ b)
    ⟨fun all b row => all b ⟨_,row⟩ row,fun all b _ => all b⟩

instance (oid : B) : Decidable (LostMeets t v oid) :=
  decidable_of_iff (∀ sc ∈ v.scans,sc.chain.req.oid = oid → ∀ b,Held v.ei b →
      (b.oid,Found.bad) ∉ v.log ∧ Same t b.oid sc.chain.req.oid ∧ b.oid ∉ sc.lost → b.oid ≠ oid →
        Reaches v.ei.links v.ei sc b)
    (by simp only [LostMeets,owesAll])

instance (c : Chain B M) (z : Article B) (sc : Scan B M) : Decidable (Finds t boost v c z sc) :=
  inferInstanceAs (Decidable (_ → _ → _ → _ → _))

instance (c : Chain B M) (z : Article B) (sc : Scan B M) : Decidable (StillFinds t boost v c z sc) :=
  decidable_of_iff (∀ b,Held v.ei b →
      (b.oid,Found.bad) ∉ v.log ∧ Same t b.oid sc.chain.req.oid ∧ b.oid ∉ sc.lost →
        Reaches v.ei.links v.ei sc b →
        Attached v.ei b sc.chain.req ∨ Reaches (relinked t boost v.ei c z) v.ei sc b)
    (by simp only [StillFinds,owesAll])

instance (c : Chain B M) : Decidable (AttachMeets t boost v c) :=
  inferInstanceAs (Decidable (∀ z ∈ c.req.article,∀ sc ∈ v.scans,_ ∧ _))

instance (turn : Turn B) : Decidable (TurnMeets t boost v turn) := by
  cases turn with
  | respond found =>
    unfold TurnMeets
    cases v.fifo with
    | nil => exact isTrue fun _ => trivial
    | cons j rest => cases j <;> infer_instance
  | doStep =>
    unfold TurnMeets
    cases v.frames with
    | nil => exact isTrue trivial
    | cons f frames => cases f <;> infer_instance
  | drained =>
    unfold TurnMeets
    cases v.frames with
    | nil => exact isTrue trivial
    | cons f frames => cases f <;> cases v.fifo <;> infer_instance
  | _ => exact isTrue trivial

def crossPosted : List (Turn Nat) :=
  [.request ⟨1,1,3⟩,.push,.respond .blob,.doStep,.request ⟨1,2,0⟩,.push,.request ⟨2,1,0⟩,.push,
    .respond .blob,.doStep,.push,.respond .blob,.doStep,.push,.respond .blob,.doStep,
    .respond .blob,.doStep,.push,.respond .blob,.doStep]

theorem crossPostedMeets : Along (Pipe.step shelved none) (TurnMeets shelved none) .empty crossPosted := by
  decide +kernel

theorem crossPostedMeet :
    ∃ d,(crossPosted.foldl (Pipe.step shelved none) .empty).ei.xref3.Has ((⟨1,2,0⟩ : Article Nat).row d) ∧
      (crossPosted.foldl (Pipe.step shelved none) .empty).ei.xref3.Has ((⟨2,1,0⟩ : Article Nat).row d) :=
  (copiesMeet crossPostedMeets (by decide +kernel) (by decide +kernel)).2 ⟨1,2,0⟩ ⟨2,1,0⟩
    ⟨2,by decide +kernel⟩ ⟨2,by decide +kernel⟩ (by decide +kernel) (by decide +kernel) rfl (by decide +kernel)

/- Three copies one after the other: the second is under both Message-IDs and joins the first,
whose document has no link to the Message-ID of the third. -/
def bridged : List (Turn Nat) :=
  [.request ⟨1,1,0⟩,.push,.respond .blob,.doStep,
    .request ⟨1,2,1⟩,.push,.respond .blob,.doStep,.push,.respond .blob,.doStep,
    .request ⟨1,3,2⟩,.push,.respond .blob,.doStep]

theorem bridgedApart : ¬ ∀ turns : List (Turn Nat),
    Deduplicated shelved (turns.foldl (Pipe.step shelved none) .empty) := by
  intro meets
  have meet := (meets bridged (by decide +kernel) (by decide +kernel)).2 ⟨1,2,1⟩ ⟨1,3,2⟩
    ⟨1,by decide +kernel⟩ ⟨2,by decide +kernel⟩ (by decide +kernel) (by decide +kernel) rfl (by decide +kernel)
  revert meet
  decide +kernel

end PublicInbox.ExtSearchIdx
