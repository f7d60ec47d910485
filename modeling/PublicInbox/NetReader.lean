import Mathlib.Data.List.Sort
import Mathlib.Logic.Function.Basic
import PublicInbox.Library.Stepwise

/-! NetReader.pm: _imap_fetch_all and _imap_fetch_bodies for one mailbox under one UIDVALIDITY, with
the row of IMAPTracker. Between any two commands the mailbox may gain and lose messages, and other
runs may be under way. `sharded` runs and single UIDs are left out. -/
namespace PublicInbox.NetReader

structure Mailbox where
  uids : List Nat
  uidnext : Nat
  deleted : List Nat
  ascending : uids.Pairwise (· < ·)
  below : ∀ u ∈ uids,0 < u ∧ u < uidnext
  begun : 0 < uidnext

namespace Mailbox

def arrive (box : Mailbox) (gap : Nat) : Mailbox where
  uids := box.uids ++ [box.uidnext + gap]
  uidnext := box.uidnext + gap + 1
  deleted := box.deleted
  ascending := List.pairwise_append.mpr ⟨box.ascending,List.pairwise_singleton _ _,fun u mem v same => by
    have low := (box.below u mem).2
    rw [List.mem_singleton.mp same]
    omega⟩
  below := fun u mem => by
    rcases List.mem_append.mp mem with old | new
    · have low := box.below u old
      omega
    · have positive := box.begun
      rw [List.mem_singleton.mp new]
      omega
  begun := Nat.succ_pos _

def expunge (box : Mailbox) (uid : Nat) : Mailbox where
  uids := box.uids.filter (· ≠ uid)
  uidnext := box.uidnext
  deleted := box.deleted
  ascending := box.ascending.filter _
  below := fun u mem => box.below u (List.mem_filter.mp mem).1
  begun := box.begun

def flag (box : Mailbox) (deleted : List Nat) : Mailbox := { box with deleted := deleted }

/- UID SEARCH UID $l_uid:* finds the UIDs between $l_uid and the largest one, whichever is less. -/
def search (box : Mailbox) (lUid : Nat) : List Nat :=
  match box.uids.getLast? with
  | none => []
  | some last => box.uids.filter (fun u => min lUid last ≤ u)

end Mailbox

structure Order where
  arrange : List Nat → List Nat
  perm : ∀ uids,(arrange uids).Perm uids

def Order.sorted (order : Order) (uids : List Nat) : List Nat := (order.arrange uids).insertionSort (· ≤ ·)

/- What one command of a run meets: whether it fails, the order of an answer to SEARCH, whether
{quit} is set once a message was handed over, and whether it is set afterwards. -/
structure Turn where
  fails : Bool
  order : Order
  quit : Nat → Bool
  quitting : Bool

inductive Phase where
  | searching (lUid : Nat)
  | fetching (lUid : Nat) (uids : List Nat)
  -- from the end of _imap_fetch_bodies to `until'
  | storing (lUid : Nat) (stop : Bool)
  | done
  deriving DecidableEq

structure Run where
  useFl : Bool
  bs : Nat
  positive : 0 < bs
  phase : Phase
  round : List (Nat × Bool)

def Run.lastUid (run : Run) : Option Nat := (run.round.map Prod.fst).getLast?

/- `for my $uid (@batch)', over the messages that FETCH found. flags2kw returns undef for \Deleted,
and _imap_do_msg leaves the callback out. -/
def handOver (box : Mailbox) (useFl : Bool) (quit : Nat → Bool) : List Nat → List (Nat × Bool) × Bool
  | [] => ([],false)
  | uid :: batch =>
    if uid ∈ box.uids then
      let msg := (uid,useFl && decide (uid ∈ box.deleted))
      if quit uid then ([msg],true)
      else
        let (taken,stop) := handOver box useFl quit batch
        (msg :: taken,stop)
    -- messages get deleted, so holes appear
    else handOver box useFl quit batch

def Run.turn (run : Run) (box : Mailbox) (t : Turn) : Run × List (Nat × Bool) × Option Nat :=
  match run.phase with
  | .searching lUid =>
    let uids := t.order.sorted (box.search lUid)
    match uids.head?,uids.getLast? with
    | some first,some last =>
      if t.fails ∨ first < lUid then ({ run with phase := .done },[],none)
      else ({ run with phase := .fetching (last + 1) uids },[],none)
    | _,_ => ({ run with phase := .done },[],none)
  | .fetching lUid uids =>
    if t.fails then ({ run with phase := .storing lUid true },[],none)
    else
      let (taken,stop) := handOver box run.useFl t.quit (uids.take run.bs)
      let stop := stop || t.quitting
      let next := if stop ∨ uids.drop run.bs = [] then .storing lUid stop else .fetching lUid (uids.drop run.bs)
      ({ run with phase := next, round := run.round ++ taken },taken,none)
  | .storing lUid stop =>
    let next := if stop ∨ t.quitting then .done else .searching lUid
    ({ run with phase := next, round := [] },[],run.lastUid)
  | .done => (run,[],none)

structure World (R : Type) where
  box : Mailbox
  stored : Option Nat
  taken : List (Nat × Bool)
  runs : R → Option Run

inductive Event (R : Type) where
  | arrive (gap : Nat)
  | expunge (uid : Nat)
  | flag (deleted : List Nat)
  -- SELECT or EXAMINE; `fails` where they, the UIDVALIDITY or each_old_flags end the run
  | start (r : R) (useFl : Bool) (bs : Nat) (positive : 0 < bs) (fails : Bool)
  | turn (r : R) (t : Turn)
  | died (r : R)

-- What happens while the mailbox does not grow and the run `r' is not started anew
def Event.quiet {R : Type} [DecidableEq R] (r : R) : Event R → Bool
  | .arrive _ => false
  | .start r' _ _ _ _ => r' ≠ r
  | _ => true

def Event.turnOf {R : Type} [DecidableEq R] (r : R) : Event R → Bool
  | .turn r' _ => r' = r
  | _ => false

namespace World
variable {R : Type} [DecidableEq R]

def fresh (box : Mailbox) : World R := ⟨box,none,[],fun _ => none⟩

def active (w : World R) (r : R) : Prop := ∃ run,w.runs r = some run ∧ run.phase ≠ .done

instance (w : World R) (r : R) : Decidable (w.active r) :=
  match found : w.runs r with
  | none => .isFalse fun ⟨_,here,_⟩ => by rw [found] at here; cases here
  | some run => if ended : run.phase = .done then .isFalse fun ⟨_,here,live⟩ => by
      rw [found] at here
      exact live (Option.some.inj here ▸ ended)
    else .isTrue ⟨run,found,ended⟩

def begin (w : World R) (fails : Bool) : Phase :=
  let lUid := w.stored.getD 0
  let rUid := w.box.uidnext - 1
  if fails ∨ rUid ≤ lUid then .done else .searching (if lUid = 0 then 1 else lUid)

def step (w : World R) : Event R → World R
  | .arrive gap => { w with box := w.box.arrive gap }
  | .expunge uid => { w with box := w.box.expunge uid }
  | .flag deleted => { w with box := w.box.flag deleted }
  | .start r useFl bs positive fails =>
    if w.active r then w
    else { w with runs := Function.update w.runs r (some ⟨useFl,bs,positive,w.begin fails,[]⟩) }
  | .turn r t => match w.runs r with
    | none => w
    | some run =>
      let (run,taken,last) := run.turn w.box t
      { w with
        -- update_last returns where $last_uid is undef
        stored := last <|> w.stored
        taken := w.taken ++ taken
        runs := Function.update w.runs r (some run) }
  | .died r => { w with runs := Function.update w.runs r none }

end World

theorem memSearch {box : Mailbox} {lUid u : Nat} (mem : u ∈ box.uids) (late : lUid ≤ u) : u ∈ box.search lUid := by
  unfold Mailbox.search
  split
  · rename_i empty
    rw [List.getLast?_eq_none_iff.mp empty] at mem
    cases mem
  · exact List.mem_filter.mpr ⟨mem,decide_eq_true ((Nat.min_le_left _ _).trans late)⟩

theorem searchMem {box : Mailbox} {lUid u : Nat} (found : u ∈ box.search lUid) : u ∈ box.uids := by
  unfold Mailbox.search at found
  split at found
  · cases found
  · exact (List.mem_filter.mp found).1

theorem searchSublist (box : Mailbox) (lUid : Nat) : List.Sublist (box.search lUid) box.uids := by
  unfold Mailbox.search
  split
  · exact List.nil_sublist _
  · exact List.filter_sublist

theorem sortedPerm (order : Order) (uids : List Nat) : (order.sorted uids).Perm uids :=
  (List.perm_insertionSort _ _).trans (order.perm uids)

theorem sortedAscending (order : Order) {uids : List Nat} (ascending : uids.Pairwise (· < ·)) :
    (order.sorted uids).Pairwise (· < ·) := by
  have distinct : (order.sorted uids).Nodup := (sortedPerm order uids).nodup_iff.mpr (ascending.imp fun less => less.ne)
  have weak : (order.sorted uids).Pairwise (· ≤ ·) := List.pairwise_insertionSort _ _
  exact (weak.and distinct).imp fun both => lt_of_le_of_ne both.1 both.2

theorem headLeast {uids : List Nat} (ascending : uids.Pairwise (· < ·)) {first : Nat} (head : uids.head? = some first) :
    ∀ u ∈ uids,first ≤ u := by
  obtain ⟨rest,rfl⟩ := List.head?_eq_some_iff.mp head
  intro u mem
  rcases List.mem_cons.mp mem with rfl | later
  · exact Nat.le_refl _
  · exact (List.rel_of_pairwise_cons ascending later).le

theorem lastGreatest {uids : List Nat} (ascending : uids.Pairwise (· < ·)) {last : Nat} (final : uids.getLast? = some last) :
    last ∈ uids ∧ ∀ u ∈ uids,u ≤ last := by
  obtain ⟨front,rfl⟩ := List.getLast?_eq_some_iff.mp final
  refine ⟨by simp,fun u mem => ?_⟩
  rcases List.mem_append.mp mem with earlier | same
  · exact ((List.pairwise_append.mp ascending).2.2 u earlier last (by simp)).le
  · exact (List.mem_singleton.mp same).le

structure Found (box : Mailbox) (lUid last : Nat) (uids : List Nat) : Prop where
  ascending : uids.Pairwise (· < ·)
  exact : ∀ u,u ∈ uids ↔ u ∈ box.uids ∧ lUid ≤ u
  newest : last ∈ uids
  greatest : ∀ u ∈ uids,u ≤ last

theorem searchTurn {run : Run} {lUid : Nat} (here : run.phase = .searching lUid) (box : Mailbox) (t : Turn) :
    run.turn box t = ({ run with phase := .done },[],none) ∨
      ∃ last uids,Found box lUid last uids ∧ run.turn box t = ({ run with phase := .fetching (last + 1) uids },[],none) := by
  have ascending := sortedAscending t.order (box.ascending.sublist (searchSublist box lUid))
  have same : ∀ u,u ∈ t.order.sorted (box.search lUid) ↔ u ∈ box.search lUid := fun u => (sortedPerm t.order _).mem_iff
  simp only [Run.turn,here]
  split
  · rename_i first last head final
    split
    · exact .inl rfl
    · rename_i going
      obtain ⟨newest,greatest⟩ := lastGreatest ascending final
      refine .inr ⟨last,_,⟨ascending,fun u => ?_,newest,greatest⟩,rfl⟩
      constructor
      · intro mem
        have least := headLeast ascending head u mem
        have low := not_lt.mp (not_or.mp going).2
        exact ⟨searchMem ((same u).mp mem),low.trans least⟩
      · intro mem
        exact (same u).mpr (memSearch mem.1 mem.2)
  · exact .inl rfl

theorem handOverSublist (box : Mailbox) (useFl : Bool) (quit : Nat → Bool) (batch : List Nat) :
    List.Sublist ((handOver box useFl quit batch).1.map Prod.fst) batch := by
  induction batch with
  | nil => exact List.Sublist.slnil
  | cons uid batch ih =>
    simp only [handOver]
    split
    · split
      · exact (List.nil_sublist batch).cons_cons uid
      · exact ih.cons_cons uid
    · exact ih.cons uid

theorem handOverAll {box : Mailbox} {useFl : Bool} {quit : Nat → Bool} {batch : List Nat}
    (ascending : batch.Pairwise (· < ·)) {u : Nat} (asked : u ∈ batch) (mem : u ∈ box.uids)
    (reached : (handOver box useFl quit batch).2 = false ∨ ∃ v ∈ (handOver box useFl quit batch).1.map Prod.fst,u ≤ v) :
    u ∈ (handOver box useFl quit batch).1.map Prod.fst := by
  induction batch with
  | nil => cases asked
  | cons uid batch ih =>
    rcases List.mem_cons.mp asked with rfl | later
    · simp only [handOver,if_pos mem]
      split <;> exact List.mem_cons_self
    · have after := List.rel_of_pairwise_cons ascending later
      have rest := ih (List.Pairwise.of_cons ascending) later
      simp only [handOver] at reached ⊢
      by_cases here : uid ∈ box.uids
      · rw [if_pos here] at reached ⊢
        by_cases stop : quit uid = true
        · simp only [stop,if_true,List.map_cons,List.map_nil,List.mem_singleton,Bool.true_eq_false,false_or,exists_eq_left] at reached
          omega
        · simp only [stop,Bool.false_eq_true,if_false,List.map_cons,List.mem_cons,exists_eq_or_imp] at reached ⊢
          refine .inr (rest ?_)
          rcases reached with whole | below | higher
          · exact .inl whole
          · omega
          · exact .inr higher
      · rw [if_neg here] at reached ⊢
        exact rest reached

theorem handOverFlags (box : Mailbox) (useFl : Bool) (quit : Nat → Bool) (batch : List Nat) :
    ∀ msg ∈ (handOver box useFl quit batch).1,msg.2 = true → useFl = true ∧ msg.1 ∈ box.deleted := by
  induction batch with
  | nil => exact List.forall_mem_nil _
  | cons uid batch ih =>
    have own : (useFl && decide (uid ∈ box.deleted)) = true → useFl = true ∧ uid ∈ box.deleted := by simp
    simp only [handOver]
    split
    · split
      · exact List.forall_mem_singleton.mpr own
      · exact List.forall_mem_cons.mpr ⟨own,ih⟩
    · exact ih

/- Every message below `bound` that the server still has is among `took`, and the server gives later
messages no UID below it. -/
def Behind (box : Mailbox) (took : List Nat) (bound : Nat) : Prop :=
  bound ≤ box.uidnext ∧ ∀ u ∈ box.uids,u < bound → u ∈ took

structure Later (box next : Mailbox) : Prop where
  grows : box.uidnext ≤ next.uidnext
  fresh : ∀ u ∈ next.uids,u ∈ box.uids ∨ box.uidnext ≤ u

theorem Later.refl (box : Mailbox) : Later box box := ⟨Nat.le_refl _,fun _ mem => .inl mem⟩

theorem laterArrive (box : Mailbox) (gap : Nat) : Later box (box.arrive gap) := by
  refine ⟨by simp only [Mailbox.arrive]; omega,fun u mem => ?_⟩
  rcases List.mem_append.mp mem with old | new
  · exact .inl old
  · exact .inr (by rw [List.mem_singleton.mp new]; omega)

theorem laterExpunge (box : Mailbox) (uid : Nat) : Later box (box.expunge uid) :=
  ⟨Nat.le_refl _,fun _ mem => .inl (List.mem_filter.mp mem).1⟩

theorem Behind.later {box next : Mailbox} {took took' : List Nat} {bound : Nat} (behind : Behind box took bound)
    (later : Later box next) (more : took ⊆ took') : Behind next took' bound := by
  refine ⟨behind.1.trans later.grows,fun u mem below => ?_⟩
  have low := behind.1
  rcases later.fresh u mem with old | new
  · exact more (behind.2 u old below)
  · omega

def PhaseOk (box : Mailbox) (took round : List Nat) : Phase → Prop
  | .searching lUid => round = [] ∧ Behind box took lUid
  | .fetching lUid uids => Behind box (took ++ uids) lUid ∧ uids.Pairwise (· < ·) ∧ (∀ u ∈ uids,u < lUid) ∧
      ∀ v ∈ round,∀ u ∈ uids,v < u
  | .storing lUid stop => stop = false → Behind box took lUid
  | .done => True

structure RunOk (box : Mailbox) (took : List Nat) (run : Run) : Prop where
  ascending : (run.round.map Prod.fst).Pairwise (· < ·)
  progress : ∀ last ∈ run.lastUid,Behind box took (last + 1)
  phase : PhaseOk box took (run.round.map Prod.fst) run.phase

theorem RunOk.later {box next : Mailbox} {took took' : List Nat} {run : Run} (ok : RunOk box took run)
    (later : Later box next) (more : took ⊆ took') : RunOk next took' run := by
  refine ⟨ok.ascending,fun last mem => (ok.progress last mem).later later more,?_⟩
  have phase := ok.phase
  cases here : run.phase with
  | searching lUid =>
    rw [here] at phase
    exact ⟨phase.1,phase.2.later later more⟩
  | fetching lUid uids =>
    rw [here] at phase
    exact ⟨phase.1.later later (List.append_subset.mpr ⟨fun u mem => List.mem_append_left _ (more mem),
      List.subset_append_right _ _⟩),phase.2⟩
  | storing lUid stop =>
    rw [here] at phase
    exact fun going => (phase going).later later more
  | done => trivial

theorem Found.behind {box : Mailbox} {lUid last : Nat} {uids took : List Nat} (found : Found box lUid last uids)
    (behind : Behind box took lUid) : Behind box (took ++ uids) (last + 1) := by
  refine ⟨(box.below last ((found.exact last).mp found.newest).1).2,fun u mem _ => List.mem_append.mpr ?_⟩
  by_cases old : u < lUid
  · exact .inl (behind.2 u mem old)
  · exact .inr ((found.exact u).mpr ⟨mem,not_lt.mp old⟩)

theorem batchTaken {box : Mailbox} {took batch rest : List Nat} {lUid : Nat} {useFl : Bool} {quit : Nat → Bool}
    (behind : Behind box (took ++ (batch ++ rest)) lUid) (ascending : (batch ++ rest).Pairwise (· < ·))
    (below : ∀ u ∈ batch ++ rest,u < lUid) :
    (∀ last ∈ (handOver box useFl quit batch).1.map Prod.fst,
      Behind box (took ++ (handOver box useFl quit batch).1.map Prod.fst) (last + 1)) ∧
    ((handOver box useFl quit batch).2 = false →
      Behind box (took ++ (handOver box useFl quit batch).1.map Prod.fst ++ rest) lUid) := by
  have parts := List.pairwise_append.mp ascending
  have sub := (handOverSublist box useFl quit batch).subset
  constructor
  · intro last mem
    have low := below last (List.mem_append_left _ (sub mem))
    refine ⟨Nat.succ_le_of_lt (low.trans_le behind.1),fun u here early => List.mem_append.mpr ?_⟩
    have upto : u ≤ last := Nat.lt_succ_iff.mp early
    rcases List.mem_append.mp (behind.2 u here (by omega)) with old | asked
    · exact .inl old
    · rcases List.mem_append.mp asked with now | after
      · exact .inr (handOverAll parts.1 now here (.inr ⟨last,mem,upto⟩))
      · have := parts.2.2 last (sub mem) u after
        omega
  · intro whole
    refine ⟨behind.1,fun u here early => ?_⟩
    rcases List.mem_append.mp (behind.2 u here early) with old | asked
    · exact List.mem_append_left _ (List.mem_append_left _ old)
    · rcases List.mem_append.mp asked with now | after
      · exact List.mem_append_left _ (List.mem_append_right _ (handOverAll parts.1 now here (.inl whole)))
      · exact List.mem_append_right _ after

theorem lastAppend {round taken : List (Nat × Bool)} {last : Nat}
    (final : ((round ++ taken).map Prod.fst).getLast? = some last) :
    last ∈ taken.map Prod.fst ∨ (round.map Prod.fst).getLast? = some last := by
  rw [List.map_append,List.getLast?_append] at final
  rcases Option.or_eq_some_iff.mp final with new | ⟨-,old⟩
  · exact .inl (List.mem_of_getLast? new)
  · exact .inr old

theorem turnOk {box : Mailbox} {took : List Nat} {run : Run} (ok : RunOk box took run) (t : Turn) :
    RunOk box (took ++ (run.turn box t).2.1.map Prod.fst) (run.turn box t).1 ∧
      ∀ last ∈ (run.turn box t).2.2,Behind box took (last + 1) := by
  obtain ⟨ascending,progress,phase⟩ := ok
  cases here : run.phase with
  | searching lUid =>
    rw [here] at phase
    rcases searchTurn here box t with ended | ⟨last,uids,found,going⟩
    · rw [ended]
      simp only [List.map_nil,List.append_nil,Option.not_mem_none,false_imp_iff,implies_true,and_true]
      exact ⟨ascending,progress,trivial⟩
    · rw [going]
      simp only [List.map_nil,List.append_nil,Option.not_mem_none,false_imp_iff,implies_true,and_true]
      refine ⟨ascending,progress,found.behind phase.2,found.ascending,fun u mem => Nat.lt_succ_of_le (found.greatest u mem),?_⟩
      rw [phase.1]
      exact List.forall_mem_nil _
  | fetching lUid uids =>
    rw [here] at phase
    obtain ⟨behind,sorted,below,after⟩ := phase
    simp only [Run.turn,here]
    by_cases fails : t.fails = true
    · rw [if_pos fails]
      simp only [List.map_nil,List.append_nil,Option.not_mem_none,false_imp_iff,implies_true,and_true]
      exact ⟨ascending,progress,fun going => nomatch going⟩
    · rw [if_neg fails]
      simp only [Option.not_mem_none,false_imp_iff,implies_true,and_true]
      have whole : uids.take run.bs ++ uids.drop run.bs = uids := List.take_append_drop _ _
      have taken := @batchTaken box took (uids.take run.bs) (uids.drop run.bs) lUid run.useFl t.quit (whole.symm ▸ behind)
        (whole.symm ▸ sorted) (whole.symm ▸ below)
      have sub := handOverSublist box run.useFl t.quit (uids.take run.bs)
      have parts := List.pairwise_append.mp (whole.symm ▸ sorted : (uids.take run.bs ++ uids.drop run.bs).Pairwise (· < ·))
      generalize handOver box run.useFl t.quit (uids.take run.bs) = given at taken sub
      have order : ∀ v ∈ (run.round ++ given.1).map Prod.fst,∀ u ∈ uids.drop run.bs,v < u := by
        rw [List.map_append]
        intro v mem u later
        rcases List.mem_append.mp mem with old | new
        · exact after v old u (List.mem_of_mem_drop later)
        · exact parts.2.2 v (sub.subset new) u later
      refine ⟨?_,fun last final => ?_,?_⟩
      · rw [List.map_append]
        refine List.pairwise_append.mpr ⟨ascending,parts.1.sublist sub,fun v old u new => ?_⟩
        exact after v old u (List.mem_of_mem_take (sub.subset new))
      · rcases lastAppend final with new | old
        · exact taken.1 last new
        · exact (progress last old).later (Later.refl box) (List.subset_append_left _ _)
      · dsimp only
        split
        · rename_i ends
          intro going
          obtain ⟨unseen,-⟩ := Bool.or_eq_false_iff.mp going
          have done := taken.2 unseen
          rwa [(ends.resolve_left (by rw [going]; exact Bool.false_ne_true)),List.append_nil] at done
        · rename_i ends
          have unseen := (Bool.or_eq_false_iff.mp (Bool.not_eq_true _ ▸ (not_or.mp ends).1)).1
          exact ⟨taken.2 unseen,sorted.sublist (List.drop_sublist _ _),fun u mem => below u (List.mem_of_mem_drop mem),order⟩
  | storing lUid stop =>
    rw [here] at phase
    simp only [Run.turn,here,List.map_nil,List.append_nil]
    refine ⟨⟨List.Pairwise.nil,fun last none => (nomatch none),?_⟩,progress⟩
    dsimp only
    split
    · trivial
    · rename_i going
      exact ⟨rfl,phase (Bool.not_eq_true _ ▸ (not_or.mp going).1)⟩
  | done =>
    simp only [Run.turn,here,List.map_nil,List.append_nil]
    exact ⟨⟨ascending,progress,phase⟩,fun last none => nomatch none⟩

def PhaseAbove (low : Nat) (round : List Nat) : Phase → Prop
  | .searching lUid => low ≤ lUid
  | .fetching lUid uids => low ≤ lUid ∧ (∀ u ∈ uids,low ≤ u ∧ u < lUid) ∧ ∀ v ∈ round,low ≤ v ∧ v < lUid
  | .storing lUid _ => low ≤ lUid ∧ ∀ v ∈ round,low ≤ v ∧ v < lUid
  | .done => True

theorem turnAbove {box : Mailbox} {took : List Nat} {run : Run} (ok : RunOk box took run) {low : Nat}
    (above : PhaseAbove low (run.round.map Prod.fst) run.phase) (t : Turn) :
    PhaseAbove ((run.turn box t).2.2.getD low) ((run.turn box t).1.round.map Prod.fst) (run.turn box t).1.phase ∧
      ∀ last ∈ (run.turn box t).2.2,low ≤ last := by
  have phase := ok.phase
  cases here : run.phase with
  | searching lUid =>
    rw [here] at above phase
    rcases searchTurn here box t with ended | ⟨last,uids,found,going⟩
    · rw [ended]
      exact ⟨trivial,fun _ none => nomatch none⟩
    · rw [going]
      have late : ∀ u ∈ uids,low ≤ u := fun u mem => Nat.le_trans above ((found.exact u).mp mem).2
      refine ⟨⟨(late last found.newest).trans (Nat.le_succ last),fun u mem => ⟨late u mem,Nat.lt_succ_of_le (found.greatest u mem)⟩,?_⟩,
        fun _ none => nomatch none⟩
      dsimp only
      rw [phase.1]
      exact List.forall_mem_nil _
  | fetching lUid uids =>
    rw [here] at above
    obtain ⟨floor,asked,had⟩ := above
    simp only [Run.turn,here]
    split
    · exact ⟨⟨floor,had⟩,fun _ none => nomatch none⟩
    · have sub := (handOverSublist box run.useFl t.quit (uids.take run.bs)).subset
      have all : ∀ v ∈ (run.round ++ (handOver box run.useFl t.quit (uids.take run.bs)).1).map Prod.fst,low ≤ v ∧ v < lUid := by
        rw [List.map_append]
        intro v mem
        rcases List.mem_append.mp mem with old | new
        · exact had v old
        · exact asked v (List.mem_of_mem_take (sub new))
      refine ⟨?_,fun _ none => nomatch none⟩
      dsimp only
      split
      · exact ⟨floor,all⟩
      · exact ⟨floor,fun u mem => asked u (List.mem_of_mem_drop mem),all⟩
  | storing lUid stop =>
    rw [here] at above
    obtain ⟨floor,had⟩ := above
    have last : ∀ v ∈ run.lastUid,low ≤ v ∧ v < lUid := fun v final => had v (List.mem_of_getLast? final)
    simp only [Run.turn,here]
    refine ⟨?_,fun v final => (last v final).1⟩
    split
    · trivial
    · cases stored : run.lastUid with
      | none => exact floor
      | some v => exact (last v stored).2.le
  | done =>
    simp only [Run.turn,here]
    exact ⟨trivial,fun _ none => nomatch none⟩

def searchWork (box : Mailbox) (lUid : Nat) : Nat :=
  let ahead := (box.uids.filter (lUid ≤ ·)).length
  if ahead = 0 then 1 else ahead + 4

def Phase.work (box : Mailbox) : Phase → Nat
  | .searching lUid => searchWork box lUid
  | .fetching lUid uids => uids.length + 2 + searchWork box lUid
  | .storing lUid _ => 1 + searchWork box lUid
  | .done => 0

theorem searchWorkPositive (box : Mailbox) (lUid : Nat) : 0 < searchWork box lUid := by
  simp only [searchWork]
  split <;> omega

theorem Found.work {box : Mailbox} {lUid last : Nat} {uids : List Nat} (found : Found box lUid last uids) :
    uids.length + 2 + searchWork box (last + 1) < searchWork box lUid := by
  have newest := (found.exact last).mp found.newest
  have none : box.uids.filter (last + 1 ≤ ·) = [] := by
    refine List.filter_eq_nil_iff.mpr fun u mem beyond => ?_
    have above : last + 1 ≤ u := of_decide_eq_true beyond
    have := found.greatest u ((found.exact u).mpr ⟨mem,by omega⟩)
    omega
  have same : uids.Perm (box.uids.filter (lUid ≤ ·)) := by
    refine (List.perm_ext_iff_of_nodup (found.ascending.imp fun less => less.ne)
      ((box.ascending.imp fun less => less.ne).filter _)).mpr fun u => ?_
    rw [found.exact u,List.mem_filter,decide_eq_true_iff]
  have some := List.length_pos_of_mem found.newest
  rw [same.length_eq] at some ⊢
  simp only [searchWork,none,List.length_nil,if_true]
  split <;> omega

theorem turnWork {run : Run} (live : run.phase ≠ .done) (box : Mailbox) (t : Turn) :
    (run.turn box t).1.phase.work box < run.phase.work box := by
  cases here : run.phase with
  | searching lUid =>
    rcases searchTurn here box t with ended | ⟨last,uids,found,going⟩
    · rw [ended]
      exact searchWorkPositive box lUid
    · rw [going]
      exact found.work
  | fetching lUid uids =>
    simp only [Run.turn,here]
    split
    · simp only [Phase.work]
      omega
    · dsimp only
      split
      · simp only [Phase.work]
        omega
      · rename_i ends
        have rest : uids.drop run.bs ≠ [] := (not_or.mp ends).2
        have shorter : (uids.drop run.bs).length < uids.length := by
          have := List.length_pos_of_ne_nil rest
          have := run.positive
          rw [List.length_drop] at *
          omega
        simp only [Phase.work]
        omega
  | storing lUid stop =>
    simp only [Run.turn,here]
    have := searchWorkPositive box lUid
    split <;> simp only [Phase.work] <;> omega
  | done => exact absurd here live

theorem workLess {box next : Mailbox} (fewer : List.Sublist next.uids box.uids) (phase : Phase) :
    phase.work next ≤ phase.work box := by
  have search : ∀ lUid,searchWork next lUid ≤ searchWork box lUid := fun lUid => by
    have := (fewer.filter (lUid ≤ ·)).length_le
    simp only [searchWork]
    split <;> split <;> omega
  cases phase with
  | searching lUid => exact search lUid
  | fetching lUid uids => exact Nat.add_le_add_left (search lUid) _
  | storing lUid stop => exact Nat.add_le_add_left (search lUid) _
  | done => exact Nat.le_refl _

theorem Behind.lower {box : Mailbox} {took : List Nat} {low high : Nat} (behind : Behind box took high) (le : low ≤ high) :
    Behind box took low :=
  ⟨le.trans behind.1,fun u mem below => behind.2 u mem (below.trans_le le)⟩

namespace World
variable {R : Type}

def took (w : World R) : List Nat := w.taken.map Prod.fst

structure Sound (w : World R) : Prop where
  stored : ∀ last ∈ w.stored,Behind w.box w.took (last + 1)
  runs : ∀ r run,w.runs r = some run → RunOk w.box w.took run

theorem freshSound (box : Mailbox) : (fresh box : World R).Sound :=
  ⟨fun _ none => (nomatch none),fun _ _ none => nomatch none⟩

theorem beginOk {w : World R} (stored : ∀ last ∈ w.stored,Behind w.box w.took (last + 1)) (fails : Bool) :
    PhaseOk w.box w.took [] (w.begin fails) := by
  simp only [begin]
  split
  · trivial
  · rename_i going
    have room := not_le.mp (not_or.mp going).2
    refine ⟨rfl,?_⟩
    cases known : w.stored with
    | none =>
      rw [known] at room
      simp only [Option.getD_none,if_true]
      refine ⟨by omega,fun u mem early => ?_⟩
      have := (w.box.below u mem).1
      omega
    | some last =>
      have behind := stored last known
      simp only [Option.getD_some]
      refine behind.lower ?_
      split <;> omega

theorem soundLater {w : World R} (sound : w.Sound) {next : Mailbox} (later : Later w.box next) :
    ({ w with box := next } : World R).Sound :=
  ⟨fun last mem => (sound.stored last mem).later later (List.Subset.refl _),
    fun r run here => (sound.runs r run here).later later (List.Subset.refl _)⟩

variable [DecidableEq R]

theorem updatedRun {runs : R → Option Run} {r r' : R} {new : Option Run} {run : Run}
    (here : Function.update runs r new r' = some run) : r' = r ∧ new = some run ∨ r' ≠ r ∧ runs r' = some run := by
  by_cases own : r' = r
  · subst own
    rw [Function.update_self] at here
    exact .inl ⟨rfl,here⟩
  · rw [Function.update_of_ne own] at here
    exact .inr ⟨own,here⟩

theorem activeUpdated {w next : World R} {r : R} {new : Option Run} (runs : next.runs = Function.update w.runs r new) {a : R}
    (active : next.active a) : a = r ∧ (∃ run,new = some run ∧ run.phase ≠ .done) ∨ a ≠ r ∧ w.active a := by
  obtain ⟨run,here,live⟩ := active
  rw [runs] at here
  rcases updatedRun here with ⟨same,new⟩ | ⟨other,old⟩
  · exact .inl ⟨same,run,new,live⟩
  · exact .inr ⟨other,run,old,live⟩

omit [DecidableEq R] in
theorem storedCases {new old : Option Nat} {last : Nat} (mem : last ∈ (new <|> old)) :
    last ∈ new ∨ new = none ∧ last ∈ old := by
  cases new with
  | none => exact .inr ⟨rfl,mem⟩
  | some kept => exact .inl mem

theorem stepSound {w : World R} (sound : w.Sound) (e : Event R) : (w.step e).Sound := by
  cases e with
  | arrive gap => exact soundLater sound (laterArrive _ _)
  | expunge uid => exact soundLater sound (laterExpunge _ _)
  | flag deleted => exact soundLater sound ⟨Nat.le_refl _,fun _ mem => .inl mem⟩
  | start r useFl bs positive fails =>
    simp only [step]
    split
    · exact sound
    · refine ⟨sound.stored,fun r' run here => ?_⟩
      rcases updatedRun here with ⟨-,same⟩ | ⟨-,old⟩
      · cases same
        exact ⟨List.Pairwise.nil,fun _ none => (nomatch none),beginOk sound.stored fails⟩
      · exact sound.runs r' run old
  | turn r t =>
    simp only [step]
    split
    · exact sound
    · rename_i run known
      obtain ⟨ok,late⟩ := turnOk (sound.runs r run known) t
      have more : w.took ⊆ w.took ++ (run.turn w.box t).2.1.map Prod.fst := List.subset_append_left _ _
      have same : (w.taken ++ (run.turn w.box t).2.1).map Prod.fst = w.took ++ (run.turn w.box t).2.1.map Prod.fst :=
        List.map_append
      refine ⟨fun last mem => ?_,fun r' run' here => ?_⟩
      · rw [took,same]
        rcases storedCases mem with new | ⟨-,old⟩
        · exact (late last new).later (Later.refl _) more
        · exact (sound.stored last old).later (Later.refl _) more
      · rw [took,same]
        rcases updatedRun here with ⟨-,own⟩ | ⟨-,old⟩
        · cases own
          exact ok
        · exact (sound.runs r' run' old).later (Later.refl _) more
  | died r =>
    refine ⟨sound.stored,fun r' run here => ?_⟩
    rcases updatedRun here with ⟨-,none⟩ | ⟨-,old⟩
    · cases none
    · exact sound.runs r' run old

def Alone (w : World R) : Event R → Prop
  | .start _ _ _ _ _ => ∀ r,¬ w.active r
  | _ => True

structure Orderly (w : World R) : Prop where
  sound : w.Sound
  alone : ∀ r r',w.active r → w.active r' → r = r'
  above : ∀ r run,w.runs r = some run → PhaseAbove (w.stored.getD 0) (run.round.map Prod.fst) run.phase

omit [DecidableEq R] in
theorem turnDone {run : Run} (ended : run.phase = .done) (box : Mailbox) (t : Turn) : run.turn box t = (run,[],none) := by
  simp only [Run.turn,ended]

theorem stepOrderly {w : World R} (orderly : w.Orderly) {e : Event R} (only : w.Alone e) :
    (w.step e).Orderly ∧ ∀ last ∈ w.stored,∃ next ∈ (w.step e).stored,last ≤ next := by
  obtain ⟨sound,alone,above⟩ := orderly
  have kept : ∀ last ∈ w.stored,∃ next ∈ w.stored,last ≤ next := fun last mem => ⟨last,mem,Nat.le_refl _⟩
  have next := stepSound sound e
  cases e with
  | arrive gap => exact ⟨⟨next,alone,above⟩,kept⟩
  | expunge uid => exact ⟨⟨next,alone,above⟩,kept⟩
  | flag deleted => exact ⟨⟨next,alone,above⟩,kept⟩
  | start r useFl bs positive fails =>
    simp only [step,if_neg (only r)] at next ⊢
    refine ⟨⟨next,fun a b activeA activeB => ?_,fun r' run here => ?_⟩,kept⟩
    · rcases activeUpdated rfl activeA with ⟨rfl,-⟩ | ⟨-,old⟩
      · rcases activeUpdated rfl activeB with ⟨rfl,-⟩ | ⟨-,old⟩
        · rfl
        · exact absurd old (only b)
      · exact absurd old (only a)
    · rcases updatedRun here with ⟨-,same⟩ | ⟨-,old⟩
      · cases same
        simp only [begin]
        split
        · trivial
        · simp only [PhaseAbove]
          split <;> omega
      · exact above r' run old
  | turn r t =>
    cases known : w.runs r with
    | none =>
      simp only [step,known]
      exact ⟨⟨sound,alone,above⟩,kept⟩
    | some run =>
      simp only [step,known] at next ⊢
      obtain ⟨ahead,late⟩ := turnAbove (sound.runs r run known) (above r run known) t
      have floor : ((run.turn w.box t).2.2 <|> w.stored).getD 0 = (run.turn w.box t).2.2.getD (w.stored.getD 0) := by
        cases (run.turn w.box t).2.2 <;> rfl
      have was : ∀ a (after : World R),after.runs = Function.update w.runs r (some (run.turn w.box t).1) →
          after.active a → w.active a := by
        intro a after runs active
        rcases activeUpdated runs active with ⟨rfl,run',same,live⟩ | ⟨-,old⟩
        · refine ⟨run,known,fun ended => live ?_⟩
          rw [← Option.some.inj same,turnDone ended]
          exact ended
        · exact old
      refine ⟨⟨next,fun a b activeA activeB => alone a b (was a _ rfl activeA) (was b _ rfl activeB),fun r' run' here => ?_⟩,?_⟩
      · rcases updatedRun here with ⟨-,same⟩ | ⟨other,old⟩
        · rw [floor,← Option.some.inj same]
          exact ahead
        · by_cases ended : run'.phase = .done
          · rw [ended]
            trivial
          · have idle : run.phase = .done := by
              by_contra live
              exact other (alone r' r ⟨run',old,ended⟩ ⟨run,known,live⟩)
            rw [turnDone idle]
            exact above r' run' old
      · intro last mem
        cases stored : (run.turn w.box t).2.2 with
        | none => exact ⟨last,mem,Nat.le_refl _⟩
        | some new =>
          have := late new stored
          rw [Option.mem_def.mp mem] at this
          exact ⟨new,rfl,this⟩
  | died r =>
    refine ⟨⟨next,fun a b activeA activeB => ?_,fun r' run here => ?_⟩,kept⟩
    · rcases activeUpdated rfl activeA with ⟨-,_,none,-⟩ | ⟨-,oldA⟩
      · cases none
      · rcases activeUpdated rfl activeB with ⟨-,_,none,-⟩ | ⟨-,oldB⟩
        · cases none
        · exact alone a b oldA oldB
    · rcases updatedRun here with ⟨-,none⟩ | ⟨-,old⟩
      · cases none
      · exact above r' run old

omit [DecidableEq R] in
def work (w : World R) (r : R) : Nat := (w.runs r).elim 0 (fun run => run.phase.work w.box)

theorem stepWork (w : World R) {r : R} {e : Event R} (quiet : e.quiet r = true) :
    (w.step e).work r ≤ w.work r - (e.turnOf r).toNat := by
  have smaller : ∀ next : Mailbox,List.Sublist next.uids w.box.uids → World.work { w with box := next } r ≤ w.work r := by
    intro next fewer
    simp only [work]
    cases w.runs r with
    | none => exact Nat.le_refl _
    | some run => exact workLess fewer run.phase
  cases e with
  | arrive gap => cases quiet
  | expunge uid => exact smaller (w.box.expunge uid) List.filter_sublist
  | flag deleted => exact Nat.le_refl _
  | start r' useFl bs positive fails =>
    have other : r ≠ r' := fun same => of_decide_eq_true quiet same.symm
    simp only [step]
    split
    · exact Nat.le_refl _
    · simp only [work,Function.update_of_ne other]
      exact Nat.le_refl _
  | turn r' t =>
    cases known : w.runs r' with
    | none =>
      simp only [step,known,Event.turnOf]
      by_cases own : r' = r
      · subst own
        simp only [work,known,Option.elim_none,Nat.zero_le]
      · simp only [own,decide_false,Bool.toNat_false,Nat.sub_zero,Nat.le_refl]
    | some run =>
      simp only [step,known,Event.turnOf]
      by_cases own : r' = r
      · subst own
        simp only [work,known,Function.update_self,Option.elim_some,decide_true,Bool.toNat_true]
        by_cases ended : run.phase = .done
        · rw [turnDone ended,ended]
          exact Nat.zero_le _
        · exact Nat.le_sub_one_of_lt (turnWork ended w.box t)
      · simp only [work,Function.update_of_ne (Ne.symm own),own,decide_false,Bool.toNat_false,Nat.sub_zero,Nat.le_refl]
  | died r' =>
    simp only [step,Event.turnOf,Bool.toNat_false,Nat.sub_zero,work]
    by_cases own : r' = r
    · subst own
      simp only [Function.update_self,Option.elim_none,Nat.zero_le]
    · simp only [Function.update_of_ne (Ne.symm own),Nat.le_refl]

theorem runWork {r : R} {more : List (Event R)} (quiet : ∀ e ∈ more,e.quiet r = true) (w : World R) :
    (more.foldl step w).work r ≤ w.work r - more.countP (Event.turnOf r) := by
  induction more generalizing w with
  | nil => exact Nat.le_refl _
  | cons e more ih =>
    have rest := ih (fun e' mem => quiet e' (List.mem_cons_of_mem _ mem)) (w.step e)
    have first := stepWork w (quiet e List.mem_cons_self)
    rw [List.foldl_cons,List.countP_cons]
    cases turn : e.turnOf r <;> rw [turn] at first <;> simp only [Bool.toNat_true,Bool.toNat_false,Nat.sub_zero,if_true,
      Bool.false_eq_true,if_false,Nat.add_zero] at first ⊢ <;> omega

omit [DecidableEq R] in
theorem workOver {w : World R} {r : R} (none : w.work r = 0) : ¬ w.active r := by
  rintro ⟨run,here,live⟩
  simp only [work,here,Option.elim_some] at none
  have := turnWork live w.box ⟨true,⟨id,fun _ => .refl _⟩,fun _ => true,true⟩
  omega

theorem stepTaken (w : World R) (e : Event R) : ∀ msg ∈ (w.step e).taken,msg ∈ w.taken ∨
    ∃ r t run,e = .turn r t ∧ w.runs r = some run ∧ (msg.2 = true → run.useFl = true ∧ msg.1 ∈ w.box.deleted) := by
  intro msg mem
  cases e with
  | turn r t =>
    cases known : w.runs r with
    | none =>
      simp only [step,known] at mem
      exact .inl mem
    | some run =>
      simp only [step,known] at mem
      refine (List.mem_append.mp mem).imp_right fun new => ⟨r,t,run,rfl,known,?_⟩
      cases here : run.phase with
      | fetching lUid uids =>
        simp only [Run.turn,here] at new
        split at new
        · cases new
        · exact handOverFlags w.box run.useFl t.quit _ msg new
      | searching lUid =>
        rcases searchTurn here w.box t with ended | ⟨_,_,-,going⟩
        · rw [ended] at new
          cases new
        · rw [going] at new
          cases new
      | storing lUid stop =>
        simp only [Run.turn,here] at new
        cases new
      | done =>
        simp only [Run.turn,here] at new
        cases new
  | start r useFl bs positive fails =>
    simp only [step] at mem
    split at mem <;> exact .inl mem
  | arrive gap => exact .inl mem
  | expunge uid => exact .inl mem
  | flag deleted => exact .inl mem
  | died r => exact .inl mem

theorem importNeverSkips (box : Mailbox) (events : List (Event R)) :
    let w := events.foldl step (fresh box)
    (∀ last ∈ w.stored,∀ u ∈ w.box.uids,u ≤ last → (u,false) ∈ w.taken ∨ (u,true) ∈ w.taken) ∧
    (∀ e,∀ msg ∈ (w.step e).taken,msg ∈ w.taken ∨
      ∃ r t run,e = .turn r t ∧ w.runs r = some run ∧ (msg.2 = true → run.useFl = true ∧ msg.1 ∈ w.box.deleted)) ∧
    (∀ r run,w.runs r = some run → (run.round.map Prod.fst).Pairwise (· < ·)) ∧
    (Stepwise.Along step Alone (fresh box) events → ∀ e,w.Alone e → ∀ last ∈ w.stored,∃ next ∈ (w.step e).stored,last ≤ next) ∧
    ∀ r,∃ bound,∀ more : List (Event R),(∀ e ∈ more,e.quiet r = true) → bound ≤ more.countP (Event.turnOf r) →
      ¬ (more.foldl step w).active r := by
  intro w
  have sound : w.Sound :=
    Stepwise.keepsAll World.Sound (fun _ e _ sound => stepSound sound e) (freshSound box)
  refine ⟨fun last stored u mem upto => ?_,stepTaken w,fun r run here => (sound.runs r run here).ascending,fun apart e only => ?_,
    fun r => ⟨w.work r,fun more quiet enough => workOver ?_⟩⟩
  · have taken := (sound.stored last stored).2 u mem (Nat.lt_succ_of_le upto)
    obtain ⟨⟨uid,gone⟩,here,rfl⟩ := List.mem_map.mp taken
    cases gone with
    | false => exact .inl here
    | true => exact .inr here
  · have start : (fresh box : World R).Orderly :=
      ⟨freshSound box,fun _ _ ⟨_,here,_⟩ => (nomatch here),fun _ _ here => nomatch here⟩
    have orderly : w.Orderly := Stepwise.keeps World.Orderly (fun _ _ orderly only => (stepOrderly orderly only).1) start apart
    exact (stepOrderly orderly only).2
  · have := runWork quiet w
    omega

/- A message with \Deleted is passed over though PERMANENTFLAGS names keywords; and of two runs at once
the slower one stores an older UID. -/
theorem passedOver :
    let goes : Event Bool := .turn false ⟨false,⟨id,fun _ => .refl _⟩,fun _ => false,false⟩
    let stops : Event Bool := .turn true ⟨false,⟨id,fun _ => .refl _⟩,fun _ => true,true⟩
    let marked := [.start false true 1 (by decide) false,goes,goes,goes].foldl step
      (fresh ⟨[1],2,[1],by decide,by decide,by decide⟩)
    let both := [.start false false 1 (by decide) false,.start true false 1 (by decide) false,stops,stops,goes,goes,goes,goes].foldl step
      (fresh ⟨[1,2],3,[],by decide,by decide,by decide⟩)
    (marked.stored = some 1 ∧ 1 ∈ marked.box.uids ∧ (1,false) ∉ marked.taken) ∧
      both.stored = some 2 ∧ (both.step stops).stored = some 1 := by
  refine ⟨⟨rfl,List.mem_singleton_self 1,?_⟩,rfl,rfl⟩
  change (1,false) ∉ [(1,true)]
  decide

end World

end PublicInbox.NetReader
