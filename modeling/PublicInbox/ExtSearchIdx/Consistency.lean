import PublicInbox.Library.Stepwise
import PublicInbox.ExtSearchIdx.Tables

/-! xref3 against over. One request is indexed or unindexed after the other; do_step and the
answers of git take turns, and a gc runs between two requests. -/
namespace PublicInbox.ExtSearchIdx
open Keyed Ei Stepwise
variable {B M H : Type} [LinearOrder B] [DecidableEq M] [DecidableEq H] (t : Mails B M H)
  (boost : Boost)

inductive Phase (B M : Type) where
  | idle
  | ready (c : Chain B M)
  | waiting (c : Chain B M) (cur : Nat × B)
  | scanning (ibxId : Nat) (rows : List (Xref3 B))

structure Indexer (B M : Type) [LinearOrder B] where
  ei : Ei B M
  phase : Phase B M

/- `gcRow` takes the next row of the scan; `late` is whether the SELECT still returns a row
that was deleted before it got there. -/
inductive Act (B : Type) where
  | request (q : Req B) (found : Found)
  | doStep
  | answer (found : Found)
  | gcInbox (ibxId : Nat)
  | gcRow (late : Bool)
  | gcRows
  | gcDocs
  | gcQueue

def gcRows (s : Ei B M) : Ei B M :=
  { s with xref3 := s.xref3.delete (fun r => (s.over.get? r.docid).isNone) }

def gcDocs (s : Ei B M) : Ei B M :=
  { s with «over» := s.over.filter (fun num _ => num = 0 ∨ s.getXref3 num ≠ []) }

def gcQueue (s : Ei B M) : Ei B M :=
  { s with eidxq := s.eidxq.delete (fun n => (s.over.get? n).isNone) }

def gcUnref (s : Ei B M) (r : Xref3 B) : Ei B M :=
  (s.unrefDoc r.docid none (some ⟨r.ibxId,none⟩) (some r.xnum) r.oidbin).1

def step (v : Indexer B M) (a : Act B) : Indexer B M :=
  match a,v.phase with
  | .request q found,.idle => match begin t q found with
    | some c => { v with phase := .ready c }
    | none => v
  | .doStep,.ready c => match v.ei.doStep t boost c with
    | (s,some (c',cur)) => ⟨s,.waiting c' cur⟩
    | (s,none) => ⟨s,.idle⟩
  | .answer found,.waiting c cur =>
    let r := v.ei.ckAnswer t c cur found
    ⟨r.1,.ready r.2⟩
  | .gcInbox ibxId,.idle =>
    if v.ei.inboxes.Has ibxId
    then { v with phase := .scanning ibxId (v.ei.xref3.select (fun r => r.ibxId = ibxId)) } else v
  | .gcRow late,.scanning ibxId (r :: rows) =>
    ⟨if v.ei.xref3.Has r ∨ late then gcUnref v.ei r else v.ei,.scanning ibxId rows⟩
  | .gcRow _,.scanning ibxId [] =>
    ⟨{ v.ei with inboxes := v.ei.inboxes.delete (fun i => i = ibxId) },.idle⟩
  | .gcRows,.idle => { v with ei := gcRows v.ei }
  | .gcDocs,.idle => { v with ei := gcDocs v.ei }
  | .gcQueue,.idle => { v with ei := gcQueue v.ei }
  | _,_ => v

def start : Indexer B M := ⟨.empty,.idle⟩

structure Consistent (s : Ei B M) : Prop where
  documented : ∀ r, s.xref3.Has r → (s.over.get? r.docid).isSome
  referenced : ∀ n b, s.over.get? n = some b → ∃ r, s.xref3.Has r ∧ r.docid = n ∧ r.oidbin = b

def Spares (s : Ei B M) (docids : List Nat) (oid : B) (ibx : Option (Ibx B)) (xnum : Option Nat) : Prop :=
  ∀ d, d ∉ docids → s.over.get? d = some oid →
    ∃ r, s.xref3.Has r ∧ r.docid = d ∧ r.oidbin = oid ∧ unrefs oid ibx xnum r = false

/- do_finalize: the documents found are still there, or a boost writes them anew; an unindex
spares all documents it did not find. -/
def FinalizeMeets (s : Ei B M) (c : Chain B M) : Prop :=
  match c.req.file with
  | .m _ => ∀ d ∈ c.indexed, (s.over.get? d).isSome ∨ boost.isSome
  | .d => c.indexed ≠ [] → Spares s c.indexed c.req.oid (some ⟨c.req.ibxId,none⟩) none

def Meets (v : Indexer B M) (a : Act B) : Prop :=
  match a,v.phase with
  | .doStep,.ready c => v.ei.candidate c = none → FinalizeMeets boost v.ei c
  | .answer .missing,.waiting _ cur => Spares v.ei [cur.1] cur.2 none none
  | .gcRow late,.scanning _ (r :: _) => v.ei.xref3.Has r ∨ late →
    Spares v.ei [r.docid] r.oidbin (some ⟨r.ibxId,none⟩) (some r.xnum)
  | _,_ => True

variable {t boost} {s : Ei B M}

/- Consistent but for documents of `docids`, which may have the blob `oid` in over without a
row for it. -/
structure Off (oid : B) (docids : List Nat) (s : Ei B M) : Prop where
  documented : ∀ r, s.xref3.Has r → (s.over.get? r.docid).isSome
  referenced : ∀ n b, s.over.get? n = some b →
    (∃ r, s.xref3.Has r ∧ r.docid = n ∧ r.oidbin = b) ∨ (b = oid ∧ n ∈ docids)

section
omit [DecidableEq M]

theorem offNil {oid : B} : Off oid [] s ↔ Consistent s := by
  constructor
  · intro off
    refine ⟨off.documented,fun n b found => ?_⟩
    rcases off.referenced n b found with row | ⟨-,mem⟩
    · exact row
    · exact absurd mem List.not_mem_nil
  · intro consistent
    exact ⟨consistent.documented,fun n b found => Or.inl (consistent.referenced n b found)⟩

theorem unrefOff (consistent : Consistent s) {docids : List Nat} {oid : B} {ibx : Option (Ibx B)}
    {xnum : Option Nat} (spares : Spares s docids oid ibx xnum) : Off oid docids (s.unref oid ibx xnum) := by
  refine ⟨fun r has => consistent.documented r (unrefHas.mp has).1,fun n b found => ?_⟩
  obtain ⟨r,has,docid,same⟩ := consistent.referenced n b found
  cases gone : unrefs oid ibx xnum r with
  | false => exact Or.inl ⟨r,unrefHas.mpr ⟨has,gone⟩,docid,same⟩
  | true =>
    have own : r.oidbin = oid := (of_decide_eq_true gone).1
    have blob : b = oid := same.symm.trans own
    by_cases mem : n ∈ docids
    · exact Or.inr ⟨blob,mem⟩
    · obtain ⟨r,has,docid,same,stays⟩ := spares n mem (blob ▸ found)
      exact Or.inl ⟨r,unrefHas.mpr ⟨has,stays⟩,docid,same.trans blob.symm⟩

theorem getXref3Nil {docid : Nat} (none : s.getXref3 docid = []) {r : Xref3 B} (has : s.xref3.Has r) :
    r.docid ≠ docid := by
  intro same
  have mem := memGetXref3.mpr ⟨has,same⟩
  rw [none] at mem
  exact absurd mem List.not_mem_nil

theorem unrefRestOff {docid : Nat} {docids : List Nat} {oid : B} {smsg : Option B}
    (known : ∀ b, smsg = some b → b = oid)
    (off : Off oid (docid :: docids) s) : Off oid docids (s.unrefRest docid smsg oid).1 := by
  unfold unrefRest
  split
  · rename_i none
    refine ⟨fun r has => ?_,fun n b found => ?_⟩
    · change ((s.over.erase docid).get? r.docid).isSome
      rw [Table.getErase,if_neg (getXref3Nil none has)]
      exact off.documented r has
    · change (s.over.erase docid).get? n = some b at found
      rw [Table.getErase] at found
      split at found
      · contradiction
      · rename_i other
        refine (off.referenced n b found).imp id fun mine => ⟨mine.1,?_⟩
        exact (List.mem_cons.mp mine.2).resolve_left other
  · rename_i r rs rows
    obtain ⟨has,own⟩ := memGetXref3.mp (rows ▸ List.mem_cons_self : r ∈ s.getXref3 docid)
    dsimp only
    split
    · refine ⟨fun q has => ?_,fun n b found => ?_⟩
      · change ((s.over.update docid (fun _ => r.oidbin)).get? q.docid).isSome
        rw [Table.getUpdate]
        have old := off.documented q has
        split
        · rwa [Option.isSome_map]
        · exact old
      · change (s.over.update docid (fun _ => r.oidbin)).get? n = some b at found
        rw [Table.getUpdate] at found
        split at found
        · rename_i same
          obtain ⟨-,-,rfl⟩ := Option.map_eq_some_iff.mp found
          exact Or.inl ⟨r,has,own.trans same.symm,rfl⟩
        · rename_i other
          refine (off.referenced n b found).imp id fun mine => ⟨mine.1,?_⟩
          exact (List.mem_cons.mp mine.2).resolve_left other
    · rename_i differs
      refine ⟨off.documented,fun n b found => ?_⟩
      rcases off.referenced n b found with row | ⟨rfl,mem⟩
      · exact Or.inl row
      · rcases List.mem_cons.mp mem with rfl | later
        · refine absurd ?_ differs
          change s.over.get? n = some b at found
          cases smsg with
          | none => exact found
          | some b' => exact congrArg some (known b' rfl)
        · exact Or.inr ⟨rfl,later⟩

theorem unrefDocConsistent (consistent : Consistent s) {docid : Nat} {oid : B} {smsg : Option B}
    {ibx : Option (Ibx B)} {xnum : Option Nat} (known : ∀ b, smsg = some b → b = oid)
    (invalid : stillValid oid ibx xnum = false) (spares : Spares s [docid] oid ibx xnum) :
    Consistent (s.unrefDoc docid smsg ibx xnum oid).1 := by
  unfold unrefDoc
  rw [invalid]
  exact offNil.mp (unrefRestOff known (unrefOff consistent spares))

theorem unrefAgain {oid : B} {ibx : Option (Ibx B)} {xnum : Option Nat}
    (gone : ∀ r, s.xref3.Has r → unrefs oid ibx xnum r = false) : s.unref oid ibx xnum = s := by
  have same : s.xref3.delete (unrefs oid ibx xnum) = s.xref3 := Rel.ext fun r => by
    rw [Rel.hasDelete]
    exact and_iff_left_of_imp (gone r)
  unfold unref
  rw [same]

end

omit [DecidableEq H] [DecidableEq M] in
theorem unindexOff {q : Req B} (file : q.file = .d) {docids : List Nat}
    (gone : ∀ r, s.xref3.Has r → unrefs q.oid (some ⟨q.ibxId,none⟩) none r = false)
    (off : Off q.oid docids s) : Consistent (docids.foldl (doXpost t boost q) s) := by
  induction docids generalizing s with
  | nil => exact offNil.mp off
  | cons docid docids ih =>
    have first : doXpost t boost q s docid = (s.unrefRest docid none q.oid).1 := by
      unfold doXpost unrefDoc
      rw [file]
      simp only [stillValid,Bool.false_eq_true,if_false,unrefAgain gone]
    rw [List.foldl_cons,first]
    refine ih (fun r has => gone r ?_) (unrefRestOff (fun b none => by contradiction) off)
    rwa [unrefRestRows] at has

omit [DecidableEq M] in
theorem xpostConsistent (consistent : Consistent s) {docid xnum ibxId : Nat} {oid : B}
    (there : (s.over.get? docid).isSome) : Consistent (s.addXref3 docid xnum oid ibxId) := by
  refine ⟨fun r has => ?_,fun n b found => ?_⟩
  · rcases Rel.hasAdd.mp has with rfl | old
    · exact there
    · exact consistent.documented r old
  · obtain ⟨r,has,rest⟩ := consistent.referenced n b found
    exact ⟨r,Rel.hasAdd.mpr (Or.inr has),rest⟩

omit [DecidableEq M] in
theorem overviewConsistent {docid : Nat} {oid : B} {mids : List M}
    (documented : ∀ r, s.xref3.Has r → r.docid ≠ docid → (s.over.get? r.docid).isSome)
    (referenced : ∀ n b, n ≠ docid → s.over.get? n = some b →
      ∃ r, s.xref3.Has r ∧ r.docid = n ∧ r.oidbin = b)
    {r : Xref3 B} (has : s.xref3.Has r) (own : r.docid = docid) (blob : r.oidbin = oid) :
    Consistent (s.addOverview docid oid mids) := by
  have table : ∀ n, (s.addOverview docid oid mids).over.get? n =
      if n = docid then some oid else s.over.get? n := fun n => Table.getInsert _ _ _ _
  refine ⟨fun q has => ?_,fun n b found => ?_⟩
  · rw [table]
    split
    · rfl
    · rename_i other
      exact documented q has other
  · rw [table] at found
    split at found
    · rename_i same
      cases found
      exact ⟨r,has,own.trans same.symm,blob⟩
    · rename_i other
      exact referenced n b other found

omit [LinearOrder B] in
theorem topMem {id2pos : Nat → Option Nat} {rows : List (Xref3 B)} {r : Xref3 B}
    (top : topXref3 id2pos rows = some r) : r ∈ rows :=
  (List.mem_insertionSort _).mp (List.mem_of_mem_head? top)

omit [DecidableEq H] [DecidableEq M] in
theorem boostConsistent {id2pos : Nat → Option Nat} {docid : Nat} {oid : B}
    (documented : ∀ r, s.xref3.Has r → r.docid ≠ docid → (s.over.get? r.docid).isSome)
    (referenced : ∀ n b, s.over.get? n = some b → ∃ r, s.xref3.Has r ∧ r.docid = n ∧ r.oidbin = b)
    (there : (s.over.get? docid).isSome ∨ ∃ r, topXref3 id2pos (s.getXref3 docid) = some r ∧ r.oidbin = oid) :
    Consistent (applyBoost t id2pos s docid oid) := by
  have stays : (s.over.get? docid).isSome → Consistent s := fun there =>
    ⟨fun r has => by
      by_cases same : r.docid = docid
      · rwa [same]
      · exact documented r has same,referenced⟩
  unfold applyBoost
  split
  · rename_i none
    rcases there with there | ⟨r,some,-⟩
    · exact stays there
    · rw [none] at some
      contradiction
  · rename_i r top
    obtain ⟨has,own⟩ := memGetXref3.mp (topMem top)
    split
    · rename_i blob
      exact overviewConsistent documented (fun n b _ found => referenced n b found) has own blob
    · rename_i other
      rcases there with there | ⟨r',some,blob⟩
      · exact stays there
      · cases top.symm.trans some
        exact absurd blob other

omit [DecidableEq M] in
theorem addXref3Alone {docid xnum ibxId : Nat} {oid : B} (none : ∀ r, s.xref3.Has r → r.docid ≠ docid) :
    (s.addXref3 docid xnum oid ibxId).getXref3 docid = [⟨docid,ibxId,xnum,oid⟩] := by
  have only : ∀ r, r ∈ (s.addXref3 docid xnum oid ibxId).getXref3 docid ↔ r = ⟨docid,ibxId,xnum,oid⟩ := by
    intro r
    rw [memGetXref3]
    constructor
    · rintro ⟨has,own⟩
      exact (Rel.hasAdd.mp has).resolve_right fun old => none r old own
    · rintro rfl
      exact ⟨Rel.hasAdd.mpr (Or.inl rfl),rfl⟩
  have nodup : ((s.addXref3 docid xnum oid ibxId).getXref3 docid).Nodup := Rel.selectNodup _ _
  generalize (s.addXref3 docid xnum oid ibxId).getXref3 docid = rows at only nodup
  match rows with
  | [] => exact absurd ((only _).mpr rfl) List.not_mem_nil
  | [r] => rw [(only r).mp List.mem_cons_self]
  | r :: q :: rest =>
    have same := ((only r).mp List.mem_cons_self).trans
      ((only q).mp (List.mem_cons_of_mem _ List.mem_cons_self)).symm
    exact absurd (same ▸ List.mem_cons_self) (List.nodup_cons.mp nodup).1

section
omit [DecidableEq M] [DecidableEq H]

theorem indexOneConsistent (consistent : Consistent s) {q : Req B} {xnum : Nat} (file : q.file = .m xnum)
    {docid : Nat} (there : (s.over.get? docid).isSome ∨ boost.isSome) :
    Consistent (doXpost t boost q s docid) := by
  have added : ∀ n b, (s.addXref3 docid xnum q.oid q.ibxId).over.get? n = some b →
      ∃ r, (s.addXref3 docid xnum q.oid q.ibxId).xref3.Has r ∧ r.docid = n ∧ r.oidbin = b := by
    intro n b found
    obtain ⟨r,has,rest⟩ := consistent.referenced n b found
    exact ⟨r,Rel.hasAdd.mpr (Or.inr has),rest⟩
  have documented : ∀ r, (s.addXref3 docid xnum q.oid q.ibxId).xref3.Has r → r.docid ≠ docid →
      ((s.addXref3 docid xnum q.oid q.ibxId).over.get? r.docid).isSome := by
    intro r has other
    rcases Rel.hasAdd.mp has with rfl | old
    · exact absurd rfl other
    · exact consistent.documented r old
  unfold doXpost
  rw [file]
  dsimp only
  cases found : s.over.get? docid with
  | some b =>
    have here : (s.over.get? docid).isSome := by rw [found]; rfl
    split
    · exact xpostConsistent consistent here
    · exact boostConsistent documented added (Or.inl here)
  | none =>
    rw [found] at there
    obtain ⟨id2pos,rfl⟩ := Option.isSome_iff_exists.mp (there.resolve_left (by simp))
    refine boostConsistent documented added (Or.inr ⟨⟨docid,q.ibxId,xnum,q.oid⟩,?_,rfl⟩)
    rw [addXref3Alone fun r has own => by
      have gone := consistent.documented r has
      rw [own,found] at gone
      contradiction]
    simp [topXref3]

theorem doXpostKeeps {q : Req B} {xnum : Nat} (file : q.file = .m xnum) (s : Ei B M) (docid : Nat) {d : Nat}
    (there : (s.over.get? d).isSome) : ((doXpost t boost q s docid).over.get? d).isSome := by
  unfold doXpost
  rw [file]
  dsimp only
  split
  · exact there
  · unfold applyBoost
    split
    · exact there
    · split
      · change ((s.over.insert docid q.oid).get? d).isSome
        rw [Table.getInsert]
        split
        · rfl
        · exact there
      · exact there

theorem indexConsistent (consistent : Consistent s) {q : Req B} {xnum : Nat} (file : q.file = .m xnum)
    {docids : List Nat}
    (there : ∀ d ∈ docids, (s.over.get? d).isSome ∨ boost.isSome) :
    Consistent (docids.foldl (doXpost t boost q) s) := by
  induction docids generalizing s with
  | nil => exact consistent
  | cons docid docids ih =>
    refine ih (indexOneConsistent consistent file (there docid List.mem_cons_self)) fun d mem => ?_
    exact (there d (List.mem_cons_of_mem _ mem)).imp (doXpostKeeps file s docid) id

theorem indexUnseenConsistent (consistent : Consistent s) (oid : B) (ibxId xnum : Nat) :
    Consistent (s.indexUnseen t oid ibxId xnum) := by
  have row : (s.indexUnseen t oid ibxId xnum).xref3.Has ⟨s.eidxDocid + 1,ibxId,xnum,oid⟩ :=
    Rel.hasAdd.mpr (Or.inl rfl)
  have table : ∀ n, (s.indexUnseen t oid ibxId xnum).over.get? n =
      if n = s.eidxDocid + 1 then some oid else s.over.get? n := fun n => Table.getInsert _ _ _ _
  refine ⟨fun r has => ?_,fun n b found => ?_⟩
  · rw [table]
    split
    · rfl
    · rename_i other
      rcases Rel.hasAdd.mp has with rfl | old
      · exact absurd rfl other
      · exact consistent.documented r old
  · rw [table] at found
    split at found
    · rename_i same
      cases found
      exact ⟨_,row,same.symm,rfl⟩
    · obtain ⟨r,has,rest⟩ := consistent.referenced n b found
      exact ⟨r,Rel.hasAdd.mpr (Or.inr has),rest⟩

theorem finalizeConsistent (consistent : Consistent s) {c : Chain B M} (meets : FinalizeMeets boost s c) :
    Consistent (s.doFinalize t boost c) := by
  unfold FinalizeMeets at meets
  unfold doFinalize
  split
  · rename_i docid docids indexed
    cases file : c.req.file with
    | m xnum =>
      rw [file,indexed] at meets
      exact indexConsistent consistent file meets
    | d =>
      rw [file,indexed] at meets
      have off := unrefOff consistent (meets (List.cons_ne_nil _ _))
      have again : ∀ r, (s.unref c.req.oid (some ⟨c.req.ibxId,none⟩) none).xref3.Has r →
          unrefs c.req.oid (some ⟨c.req.ibxId,none⟩) none r = false := fun r has => (unrefHas.mp has).2
      have first : doXpost t boost c.req s docid =
          doXpost t boost c.req (s.unref c.req.oid (some ⟨c.req.ibxId,none⟩) none) docid := by
        unfold doXpost unrefDoc
        rw [file]
        simp only [stillValid,Bool.false_eq_true,if_false,unrefAgain again]
      rw [List.foldl_cons,first,← List.foldl_cons]
      exact unindexOff file again off
  · exact indexUnseenConsistent consistent _ _ _
  · exact consistent

end

omit [DecidableEq M] in
theorem gcRowsConsistent (consistent : Consistent s) : gcRows s = s := by
  have same : s.xref3.delete (fun r => (s.over.get? r.docid).isNone) = s.xref3 := Rel.ext fun r => by
    rw [Rel.hasDelete]
    refine and_iff_left_of_imp fun has => ?_
    rw [Option.isNone_eq_false_iff]
    exact consistent.documented r has
  unfold gcRows
  rw [same]

omit [DecidableEq M] in
theorem gcDocsConsistent (consistent : Consistent s) : gcDocs s = s := by
  have same : s.over.filter (fun num _ => num = 0 ∨ s.getXref3 num ≠ []) = s.over := by
    refine Table.ext fun n => ?_
    rw [Table.getFilter]
    cases found : s.over.get? n with
    | none => rfl
    | some b =>
      obtain ⟨r,has,own,-⟩ := consistent.referenced n b found
      have some : s.getXref3 n ≠ [] := List.ne_nil_of_mem (memGetXref3.mpr ⟨has,own⟩)
      simp [some]
  unfold gcDocs
  rw [same]

theorem stepConsistent {v : Indexer B M} (consistent : Consistent v.ei) {a : Act B}
    (meets : Meets boost v a) : Consistent (step t boost v a).ei := by
  obtain ⟨s,phase⟩ := v
  cases a with
  | request q found => cases phase <;> unfold step <;> dsimp only <;> (try split) <;> exact consistent
  | doStep => cases phase with
    | ready c =>
      change Consistent s at consistent
      simp only [step,doStep]
      cases next : s.candidate c with
      | some x => exact consistent
      | none => exact finalizeConsistent consistent (meets next)
    | _ => exact consistent
  | answer found => cases phase with
    | waiting c cur => cases found with
      | missing =>
        exact unrefDocConsistent consistent (fun b known => (Option.some.inj known).symm) rfl meets
      | bad => exact consistent
      | blob =>
        change Consistent (s.ckAnswer t c cur .blob).1
        unfold ckAnswer
        dsimp only
        split <;> exact consistent
    | _ => exact consistent
  | gcInbox ibxId => cases phase <;> unfold step <;> dsimp only <;> (try split) <;> exact consistent
  | gcRow late => cases phase with
    | scanning ibxId rows => cases rows with
      | nil => exact ⟨consistent.documented,consistent.referenced⟩
      | cons r rows =>
        simp only [step]
        split
        · rename_i reached
          exact unrefDocConsistent consistent (fun b none => by contradiction) rfl (meets reached)
        · exact consistent
    | _ => exact consistent
  | gcRows => cases phase with
    | idle =>
      change Consistent (gcRows s)
      rw [gcRowsConsistent consistent]
      exact consistent
    | _ => exact consistent
  | gcDocs => cases phase with
    | idle =>
      change Consistent (gcDocs s)
      rw [gcDocsConsistent consistent]
      exact consistent
    | _ => exact consistent
  | gcQueue => cases phase <;> exact ⟨consistent.documented,consistent.referenced⟩

omit [DecidableEq M] in
theorem startConsistent : Consistent (start : Indexer B M).ei :=
  ⟨fun r has => absurd has (Rel.hasEmpty r),fun n b found => by
    change Table.get? .empty n = some b at found
    rw [Table.getEmpty] at found
    contradiction⟩

theorem xref3FollowsOver {acts : List (Act B)} (met : Along (step t boost) (Meets boost) start acts)
    {reached : List (Act B)} (pre : reached <+: acts) (n : Nat) :
    let s := (reached.foldl (step t boost) start).ei
    ((s.over.get? n).isSome ↔ ∃ r, s.xref3.Has r ∧ r.docid = n) ∧
      ∀ b, s.over.get? n = some b → ∃ r, s.xref3.Has r ∧ r.docid = n ∧ r.oidbin = b := by
  obtain ⟨rest,rfl⟩ := pre
  have consistent := keeps (fun v => Consistent v.ei)
    (fun v a consistent meets => stepConsistent consistent meets) startConsistent (alongAppend.mp met).1
  refine ⟨⟨fun some => ?_,?_⟩,consistent.referenced n⟩
  · obtain ⟨b,found⟩ := Option.isSome_iff_exists.mp some
    obtain ⟨r,has,own,-⟩ := consistent.referenced n b found
    exact ⟨r,has,own⟩
  · rintro ⟨r,has,rfl⟩
    exact consistent.documented r has

instance (s : Ei B M) (docids : List Nat) (oid : B) (ibx : Option (Ibx B)) (xnum : Option Nat) :
    Decidable (Spares s docids oid ibx xnum) :=
  decidable_of_iff (∀ d ∈ s.over.keysWhere (fun _ b => b = oid),d ∉ docids →
      ∃ r ∈ s.xref3.keys,r.docid = d ∧ r.oidbin = oid ∧ unrefs oid ibx xnum r = false) (by
    unfold Spares
    simp only [Table.memKeysWhere,Rel.hasKeys,decide_eq_true_eq,exists_eq_right]
    exact forall_congr' fun d => forall_comm)

instance (s : Ei B M) (c : Chain B M) : Decidable (FinalizeMeets boost s c) :=
  match file : c.req.file with
  | .m _ => decidable_of_iff (∀ d ∈ c.indexed,(s.over.get? d).isSome ∨ boost.isSome) (by unfold FinalizeMeets; rw [file])
  | .d => decidable_of_iff (c.indexed ≠ [] → Spares s c.indexed c.req.oid (some ⟨c.req.ibxId,none⟩) none)
      (by unfold FinalizeMeets; rw [file])

instance (v : Indexer B M) (a : Act B) : Decidable (Meets boost v a) := by
  obtain ⟨s,phase⟩ := v
  cases a with
  | doStep => cases phase with
    | ready c => exact inferInstanceAs (Decidable (s.candidate c = none → FinalizeMeets boost s c))
    | _ => exact isTrue trivial
  | answer found => cases phase with
    | waiting c cur => cases found with
      | missing => exact inferInstanceAs (Decidable (Spares s [cur.1] cur.2 none none))
      | _ => exact isTrue trivial
    | _ => cases found <;> exact isTrue trivial
  | gcRow late => cases phase with
    | scanning ibxId rows => cases rows with
      | nil => exact isTrue trivial
      | cons r rows => exact inferInstanceAs (Decidable (s.xref3.Has r ∨ late →
          Spares s [r.docid] r.oidbin (some ⟨r.ibxId,none⟩) (some r.xnum)))
    | _ => exact isTrue trivial
  | _ => cases phase <;> exact isTrue trivial

def joined : List (Act Nat) :=
  [.request ⟨0,1,.m 1⟩ .blob,.doStep,.request ⟨2,1,.m 2⟩ .blob,.doStep,
    .request ⟨1,1,.m 3⟩ .blob,.doStep,.answer .blob,.doStep,.answer .blob,.doStep,
    .request ⟨2,2,.m 9⟩ .blob,.doStep,.answer .blob,.doStep,
    .request ⟨0,1,.d⟩ .blob,.doStep,.answer .blob,.doStep,
    .request ⟨2,1,.d⟩ .blob,.doStep,.answer .blob,.doStep]

theorem joinedMeets : Along (step shelved none) (Meets none) start joined := by decide +kernel

theorem joinedAgrees :
    let s := (joined.foldl (step shelved none) start).ei
    ((s.over.get? 2).isSome ↔ ∃ r, s.xref3.Has r ∧ r.docid = 2) ∧
      ∀ b, s.over.get? 2 = some b → ∃ r, s.xref3.Has r ∧ r.docid = 2 ∧ r.oidbin = b :=
  xref3FollowsOver joinedMeets (List.prefix_refl _) 2

def lost : List (Act Nat) := joined ++ [.request ⟨3,3,.m 1⟩ .blob,.doStep,.answer .missing]

theorem lostStaysInOver : ¬ ∀ acts : List (Act Nat),
    let s := (acts.foldl (step shelved none) start).ei
    ∀ n, ((s.over.get? n).isSome ↔ ∃ r, s.xref3.Has r ∧ r.docid = n) ∧
      ∀ b, s.over.get? n = some b → ∃ r, s.xref3.Has r ∧ r.docid = n ∧ r.oidbin = b := by
  intro follows
  obtain ⟨r,has,own,blob⟩ := (follows lost 2).2 1 (by decide +kernel)
  have rows : ((lost.foldl (step shelved none) start).ei).xref3.keys = [⟨2,2,9,2⟩] := by decide +kernel
  have listed := Rel.hasKeys.mpr has
  rw [rows,List.mem_singleton] at listed
  subst listed
  exact absurd blob (by decide)

end PublicInbox.ExtSearchIdx
