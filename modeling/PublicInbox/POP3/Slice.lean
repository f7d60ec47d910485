import Mathlib.Data.Finset.Card
import Mathlib.Order.Interval.Finset.Nat
import PublicInbox.IMAP.Uo2m
import PublicInbox.POP3.Deletions

/-! What one login shows of an inbox: the slice and the limit of the user name become {uid_base}, and _stat_cache
clamps by it. -/
namespace PublicInbox.POP3
open POP3D World
open IMAP (uidSlice uidClamp)

variable {P D : Type} [DecidableEq P] [DecidableEq D]

/- USER, and later a password or APOP that was right, on a connection that was not in a maildrop yet. Messages may come and
go between the two and before the command that fills {cache}. -/
structure Login (proc : D → P) where
  atUser : Env
  atPass : Env
  atCache : Env
  old : Client D
  first : old.uidDele = none
  mailbox : List Char
  self : Client D
  text : String
  user : cmdUser atUser old mailbox = (self,.ok text)
  named : Selected
  selected : self.selected = some named
  before : Shared P D
  after : Shared P D
  new : Client D
  logged : loginOk proc atPass before self named = (after,new,.ok "logged in")

namespace Login
variable {proc : D → P} (l : Login proc)

def rows : List (Nat × Row) :=
  (l.atCache.over l.named.ibx).rows.filter fun r => r.1 ≤ (l.atPass.over l.named.ibx).max

def highwater : Nat := (l.atUser.numHighwater l.named.ibx).getD 0

def dele : Int := l.after.state.uidDele l.named.maildrop

def limit : Option Nat := limitOf l.self.limits l.new.uidDele

def maildrop : List Msg := (statCache l.atCache l.new).listed.rows

end Login

structure OnlySlice (rows : List (Nat × Row)) (slice : Int) (highwater : Nat) (limit : Option Nat) (dele : Int)
    (maildrop : List Msg) : Prop where
  there : ∀ m ∈ maildrop,∃ r ∈ rows,m = ⟨r.1,r.2.bytes,r.2.blob⟩
  above : ∀ m ∈ maildrop,dele < m.num
  inSlice : 0 ≤ slice → ∀ m ∈ maildrop,slice.toNat * uidSlice < m.num ∧ m.num ≤ (slice.toNat + 1) * uidSlice
  few : ∀ n,limit = some n → maildrop.length ≤ n
  newest : ∀ r ∈ rows,dele < r.1 → shows slice highwater limit r.1 = true → ⟨r.1,r.2.bytes,r.2.blob⟩ ∈ maildrop
  latest : slice < 0 → ∀ m ∈ maildrop,∀ r ∈ rows,m.num < r.1 → ⟨r.1,r.2.bytes,r.2.blob⟩ ∈ maildrop

def filled (slice : Int) (highwater : Nat) : Nat :=
  if highwater / uidSlice = slice.toNat then highwater % uidSlice else uidSlice

/- A limit moves {uid_base} up, and uid_clamp counts UID_SLICE from there: nothing above uid_dele is where that reaches
into the next slice, or is too new for it in the latest one. The newest positions are counted from the highwater of USER,
and hold no more messages than the limit where some came in since. -/
structure Clear (rows : List (Nat × Row)) (slice : Int) (highwater : Nat) (limit : Option Nat) (dele : Int) : Prop where
  inside : ∀ r ∈ rows,dele < r.1 →
    if 0 ≤ slice then
      ∀ n,limit = some n → r.1 ≤ (slice.toNat + 1) * uidSlice ∨ (slice.toNat + 1) * uidSlice + (filled slice highwater - n) < r.1
    else r.1 ≤ highwater - limit.getD 1000 + uidSlice
  settled : ∀ n,limit = some n → (∀ r ∈ rows,dele < r.1 → r.1 ≤ highwater) ∨
    (rows.filter fun r => dele < r.1 ∧ shows slice highwater limit r.1 = true).length ≤ n

theorem ascendingFew {rows : List (Nat × Row)} (sorted : rows.Pairwise (fun a b => a.1 < b.1)) {low high : Nat}
    (inside : ∀ r ∈ rows,low < r.1 ∧ r.1 ≤ high) : rows.length ≤ high - low := by
  have nodup : (rows.map Prod.fst).Nodup := List.pairwise_map.mpr (sorted.imp fun below => below.ne)
  have within : (rows.map Prod.fst).toFinset ⊆ Finset.Ioc low high := by
    intro n mem
    obtain ⟨r,inside',rfl⟩ := List.mem_map.mp (List.mem_toFinset.mp mem)
    exact Finset.mem_Ioc.mpr (inside r inside')
  have size := Finset.card_le_card within
  rwa [List.toFinset_card_of_nodup nodup,List.length_map,Nat.card_Ioc] at size

theorem filledMost (slice : Int) (highwater : Nat) : filled slice highwater ≤ uidSlice := by
  unfold filled
  split
  · exact (Nat.mod_lt _ (by decide)).le
  · exact le_rfl

theorem lastFilled (slice : Int) (highwater : Nat) :
    (if highwater / uidSlice = slice.toNat then highwater else slice.toNat * uidSlice + uidSlice) =
      slice.toNat * uidSlice + filled slice highwater := by
  unfold filled
  split
  · rename_i last
    rw [← last]
    exact (Nat.div_add_mod' highwater uidSlice).symm
  · rfl

theorem showsFew {rows : List (Nat × Row)} (sorted : rows.Pairwise (fun a b => a.1 < b.1)) {slice dele : Int} {highwater n : Nat}
    (settled : ∀ r ∈ rows,dele < r.1 → r.1 ≤ highwater) :
    (rows.filter fun r => dele < r.1 ∧ shows slice highwater (some n) r.1 = true).length ≤ n := by
  let last := if 0 ≤ slice then slice.toNat * uidSlice + filled slice highwater else highwater
  refine (@ascendingFew _ (sorted.filter _) (last - n) last fun r mem => ?_).trans (by omega)
  obtain ⟨inside,shown⟩ := List.mem_filter.mp mem
  obtain ⟨above,shown⟩ := of_decide_eq_true shown
  have bound := settled r inside above
  have most := filledMost slice highwater
  have place := lastFilled slice highwater
  unfold shows at shown
  by_cases numbered : 0 ≤ slice
  · simp only [if_pos numbered,Option.all_some,Bool.and_eq_true,decide_eq_true_eq] at shown
    obtain ⟨⟨low,high⟩,newest⟩ := shown
    rw [place] at newest
    have within : r.1 ≤ slice.toNat * uidSlice + filled slice highwater := by
      by_cases latest : highwater / uidSlice = slice.toNat
      · rw [if_pos latest] at place
        omega
      · rw [if_neg latest] at place
        omega
    simp only [last,if_pos numbered]
    omega
  · simp only [if_neg numbered,Option.getD_some,Bool.and_eq_true,decide_eq_true_eq] at shown
    simp only [last,if_neg numbered]
    omega

omit [DecidableEq D] in
theorem userSelects {env : Env} {old self : Client D} {mailbox : List Char} {text : String} {named : Selected}
    (user : cmdUser env old mailbox = (self,.ok text)) (selected : self.selected = some named) :
    self.uidmax = some ((env.numHighwater named.ibx).getD 0) ∧ self.uidDele = old.uidDele := by
  unfold cmdUser at user
  dsimp only at user
  repeat' split at user
  all_goals first | (cases (Prod.mk.inj user).2; done) | skip
  all_goals
    obtain ⟨rfl,-⟩ := Prod.mk.inj user
    cases selected
    exact ⟨rfl,rfl⟩

namespace Login
variable {proc : D → P} (l : Login proc)

def base : Nat := uidBaseOf l.named.slice l.highwater l.limit

theorem fields : l.new.selected = some l.named ∧ l.new.uidBase = some l.base ∧
    l.new.uidMax = some (l.atPass.over l.named.ibx).max ∧ l.new.uidDele.getD (-1) = l.dele := by
  obtain ⟨uidmax,unset⟩ := userSelects l.user l.selected
  have unset : l.self.uidDele = none := unset.trans l.first
  have logged := l.logged
  obtain ⟨r,row,-,mark⟩ := ensureRow l.before.state l.atPass.time l.named.maildrop
  rcases ensured : l.before.state.ensure l.atPass.time l.named.maildrop with ⟨state,userId,txnId,uidDele⟩
  rw [ensured] at mark row
  rcases lockCases l.before (proc l.self.pop3d) l.self.pop3d l.atPass.time l.named.maildrop ensured with
    ⟨-,locked⟩ | ⟨-,locked⟩
  · simp only [loginOk,locked] at logged
    cases (Prod.mk.inj (Prod.mk.inj logged).2).2
  · simp only [loginOk,locked,unset,uidmax] at logged
    obtain ⟨after,rest⟩ := Prod.mk.inj logged
    have made := (Prod.mk.inj rest).1
    have own : l.new.uidDele = uidDele := by
      rw [← made]
      cases uidDele <;> rfl
    have stored : l.after.state = state := by rw [← after]
    refine ⟨by rw [← made]; exact l.selected,?_,by rw [← made],?_⟩
    · rw [base,limit,own,highwater,← made]
      cases uidDele <;> rfl
    · rw [own,dele,stored]
      exact mark.trans row.uidDele.symm

theorem maildropRows : l.maildrop = (l.rows.filter fun r => l.dele < r.1 ∧ l.base < r.1 ∧ r.1 ≤ l.base + uidSlice).map
    fun r => ⟨r.1,r.2.bytes,r.2.blob⟩ := by
  obtain ⟨selected,base,uidMax,dele⟩ := l.fields
  simp only [maildrop,statCache,Client.listed,Option.getD_some,selected,base,uidMax,dele,rows,List.filter_filter]
  congr 1
  refine List.filter_congr fun r _ => ?_
  rw [← Bool.decide_and]
  refine decide_eq_decide.mpr ?_
  have low : Nat.max (l.dele + 1).toNat (l.base + 1) ≤ r.1 ↔ l.dele < r.1 ∧ l.base < r.1 := by
    rw [Nat.max_le]
    omega
  have high : r.1 ≤ Nat.min (l.atPass.over l.named.ibx).max (l.base + uidSlice) ↔
    r.1 ≤ (l.atPass.over l.named.ibx).max ∧ r.1 ≤ l.base + uidSlice := Nat.le_min
  rw [show uidClamp l.base (l.dele + 1).toNat (l.atPass.over l.named.ibx).max =
    (Nat.max (l.dele + 1).toNat (l.base + 1),Nat.min (l.atPass.over l.named.ibx).max (l.base + uidSlice)) from rfl,low,high]
  tauto

theorem memMaildrop {m : Msg} : m ∈ l.maildrop ↔ ∃ r ∈ l.rows,(l.dele < r.1 ∧ l.base < r.1 ∧ r.1 ≤ l.base + uidSlice) ∧
    m = ⟨r.1,r.2.bytes,r.2.blob⟩ := by
  rw [maildropRows,List.mem_map]
  constructor
  · rintro ⟨r,mem,same⟩
    obtain ⟨inside,within⟩ := List.mem_filter.mp mem
    exact ⟨r,inside,of_decide_eq_true within,same.symm⟩
  · rintro ⟨r,mem,within,rfl⟩
    exact ⟨r,List.mem_filter.mpr ⟨mem,decide_eq_true within⟩,rfl⟩

theorem baseOf : l.base = if 0 ≤ l.named.slice then
    l.named.slice.toNat * uidSlice + l.limit.elim 0 (fun n => filled l.named.slice l.highwater - n)
    else l.highwater - l.limit.getD 1000 := by
  unfold base uidBaseOf
  split
  · cases l.limit <;> rfl
  · rfl

theorem nextSlice : (l.named.slice.toNat + 1) * uidSlice = l.named.slice.toNat * uidSlice + uidSlice := Nat.succ_mul _ _

theorem sorted : l.rows.Pairwise (fun a b => a.1 < b.1) := (l.atCache.over l.named.ibx).sorted.filter _

theorem reached {r : Nat × Row} (mem : r ∈ l.rows) (above : l.dele < r.1) (low : l.base < r.1) (high : r.1 ≤ l.base + uidSlice) :
    ⟨r.1,r.2.bytes,r.2.blob⟩ ∈ l.maildrop := l.memMaildrop.mpr ⟨r,mem,⟨above,low,high⟩,rfl⟩

theorem clearOf (only : OnlySlice l.rows l.named.slice l.highwater l.limit l.dele l.maildrop) :
    Clear l.rows l.named.slice l.highwater l.limit l.dele where
  inside := by
    intro r mem above
    have base := l.baseOf
    have next := l.nextSlice
    split
    · rename_i numbered
      intro n limit
      by_contra between
      have most := filledMost l.named.slice l.highwater
      rw [if_pos numbered,limit,Option.elim_some] at base
      have beyond := (only.inSlice numbered _ (l.reached mem above (by omega) (by omega))).2
      exact between (.inl beyond)
    · rename_i newest
      by_contra over'
      rw [if_neg newest] at base
      have shown : shows l.named.slice l.highwater l.limit r.1 = true := by
        rw [shows,if_neg newest,Bool.and_eq_true,decide_eq_true_eq,decide_eq_true_eq]
        omega
      obtain ⟨r',_,⟨-,-,high⟩,same⟩ := l.memMaildrop.mp (only.newest r mem above shown)
      have num : r.1 = r'.1 := congrArg Msg.num same
      omega
  settled := by
    intro n limit
    have few := only.few n limit
    rw [maildropRows,List.length_map,← List.countP_eq_length_filter] at few
    refine .inr (le_trans ?_ few)
    rw [← List.countP_eq_length_filter]
    refine List.countP_mono_left fun r mem shown => ?_
    obtain ⟨above,shown⟩ := of_decide_eq_true shown
    obtain ⟨r',_,within,same⟩ := l.memMaildrop.mp (only.newest r mem above shown)
    have num : r.1 = r'.1 := congrArg Msg.num same
    rw [num]
    exact decide_eq_true within

section
variable (clear : Clear l.rows l.named.slice l.highwater l.limit l.dele)
include clear

theorem clearEnd (numbered : 0 ≤ l.named.slice) {r : Nat × Row} (mem : r ∈ l.rows) (above : l.dele < r.1)
    (high : r.1 ≤ l.base + uidSlice) : r.1 ≤ (l.named.slice.toNat + 1) * uidSlice := by
  have here := clear.inside r mem above
  have base := l.baseOf
  have next := l.nextSlice
  rw [if_pos numbered] at here base
  cases limit : l.limit with
  | none =>
    rw [limit,Option.elim_none] at base
    omega
  | some n =>
    rw [limit,Option.elim_some] at base
    rcases here n limit with inside | outside
    · exact inside
    · omega

theorem clearShown {n : Nat} (limit : l.limit = some n) {r : Nat × Row} (mem : r ∈ l.rows)
    (within : l.dele < r.1 ∧ l.base < r.1 ∧ r.1 ≤ l.base + uidSlice) :
    shows l.named.slice l.highwater (some n) r.1 = true := by
  obtain ⟨above,low,high⟩ := within
  have base := l.baseOf
  have next := l.nextSlice
  have place := lastFilled l.named.slice l.highwater
  unfold shows
  by_cases numbered : 0 ≤ l.named.slice
  · have inside := l.clearEnd clear numbered mem above high
    rw [if_pos numbered,limit,Option.elim_some] at base
    simp only [if_pos numbered,place,Option.all_some,Bool.and_eq_true,decide_eq_true_eq]
    omega
  · rw [if_neg numbered,limit,Option.getD_some] at base
    simp only [if_neg numbered,Option.getD_some,Bool.and_eq_true,decide_eq_true_eq]
    omega

theorem clearFew {n : Nat} (limit : l.limit = some n) : l.maildrop.length ≤ n := by
  have few : (l.rows.filter fun r => l.dele < r.1 ∧ shows l.named.slice l.highwater (some n) r.1 = true).length ≤ n := by
    rcases clear.settled n limit with settled | few
    · exact showsFew l.sorted settled
    · rwa [limit] at few
  refine le_trans ?_ few
  rw [maildropRows,List.length_map,← List.countP_eq_length_filter,← List.countP_eq_length_filter]
  refine List.countP_mono_left fun r mem within => ?_
  have within := of_decide_eq_true within
  exact decide_eq_true ⟨within.1,l.clearShown clear limit mem within⟩

theorem clearNewest {r : Nat × Row} (mem : r ∈ l.rows) (above : l.dele < r.1)
    (shown : shows l.named.slice l.highwater l.limit r.1 = true) : ⟨r.1,r.2.bytes,r.2.blob⟩ ∈ l.maildrop := by
  have base := l.baseOf
  have here := clear.inside r mem above
  have place := lastFilled l.named.slice l.highwater
  unfold shows at shown
  by_cases numbered : 0 ≤ l.named.slice
  · rw [if_pos numbered] at base
    simp only [if_pos numbered,place,Bool.and_eq_true,decide_eq_true_eq] at shown
    obtain ⟨⟨low,high⟩,most⟩ := shown
    cases limit : l.limit with
    | none =>
      rw [limit,Option.elim_none] at base
      exact l.reached mem above (by omega) (by omega)
    | some n =>
      rw [limit,Option.elim_some] at base
      rw [limit,Option.all_some,decide_eq_true_eq] at most
      exact l.reached mem above (by omega) (by omega)
  · rw [if_neg numbered] at base here
    simp only [if_neg numbered,Bool.and_eq_true,decide_eq_true_eq] at shown
    exact l.reached mem above (by omega) (by omega)

theorem ofClear : OnlySlice l.rows l.named.slice l.highwater l.limit l.dele l.maildrop where
  there := by
    intro m mem
    obtain ⟨r,inside,-,same⟩ := l.memMaildrop.mp mem
    exact ⟨r,inside,same⟩
  above := by
    intro m mem
    obtain ⟨r,_,⟨above,-,-⟩,rfl⟩ := l.memMaildrop.mp mem
    exact above
  inSlice := by
    intro numbered m mem
    obtain ⟨r,inside,⟨above,low,high⟩,rfl⟩ := l.memMaildrop.mp mem
    refine ⟨?_,l.clearEnd clear numbered inside above high⟩
    have base := l.baseOf
    rw [if_pos numbered] at base
    exact lt_of_le_of_lt (base ▸ Nat.le_add_right _ _) low
  few := fun n limit => l.clearFew clear limit
  newest := fun r mem above shown => l.clearNewest clear mem above shown
  latest := by
    intro newest m mem r inside newer
    obtain ⟨r',_,⟨above,low,-⟩,rfl⟩ := l.memMaildrop.mp mem
    have over' : l.dele < r.1 := above.trans (Int.ofNat_lt.mpr newer)
    have high := clear.inside r inside over'
    have base := l.baseOf
    rw [if_neg (not_le.mpr newest)] at high base
    exact l.reached inside over' (low.trans newer) (base ▸ high)

end

theorem onlySlice : OnlySlice l.rows l.named.slice l.highwater l.limit l.dele l.maildrop ↔
    Clear l.rows l.named.slice l.highwater l.limit l.dele := ⟨l.clearOf,l.ofClear⟩

end Login

def firstLogin (atUser atPass : Env) (mailbox : List Char) (named : Selected) (text : String)
    (user : ((cmdUser atUser (fresh () []) mailbox).1.selected,(cmdUser atUser (fresh () []) mailbox).2) =
      (some named,.ok text))
    (right : (loginOk (fun _ : Unit => ()) atPass (Recorded.start : Recorded Unit Unit Unit).world.shared
      (cmdUser atUser (fresh () []) mailbox).1 named).2.2 = .ok "logged in") : Login (fun _ : Unit => ()) where
  atUser := atUser
  atPass := atPass
  atCache := atPass
  old := fresh () []
  first := rfl
  mailbox := mailbox
  self := (cmdUser atUser (fresh () []) mailbox).1
  text := text
  user := Prod.ext rfl (Prod.mk.inj user).2
  named := named
  selected := (Prod.mk.inj user).1
  before := (Recorded.start : Recorded Unit Unit Unit).world.shared
  after := (loginOk (fun _ : Unit => ()) atPass (Recorded.start : Recorded Unit Unit Unit).world.shared
    (cmdUser atUser (fresh () []) mailbox).1 named).1
  new := (loginOk (fun _ : Unit => ()) atPass (Recorded.start : Recorded Unit Unit Unit).world.shared
    (cmdUser atUser (fresh () []) mailbox).1 named).2.1
  logged := Prod.ext rfl (Prod.ext rfl right)

def firstSlice : Login (fun _ : Unit => ()) :=
  firstLogin twoSlices twoSlices (latestOf 'a' ++ ".0?limit=1".toList) ⟨List.replicate 32 'a',⟨['g'],['d']⟩,0⟩
    "g slice=0 selected" (by decide) (by decide)

def manyLatest : Login (fun _ : Unit => ()) :=
  firstLogin twoSlices twoSlices (latestOf 'a' ++ "?limit=60000".toList) ⟨List.replicate 32 'a',⟨['g'],['d']⟩,-1⟩
    "g slice=(latest) selected" (by decide) (by decide)

def threeMore : Env :=
  { threeMessages with
    numHighwater := fun _ => some 6
    «over» := fun _ => ⟨[1,2,3,4,5,6].map fun n => (n,⟨10,"a"⟩),by decide⟩ }

def grownLatest : Login (fun _ : Unit => ()) :=
  firstLogin threeMessages threeMore (latestOf 'a' ++ "?limit=1".toList) ⟨List.replicate 32 'a',⟨['g'],['d']⟩,-1⟩
    "g slice=(latest) selected" (by decide) (by decide)

/- Slice 0 shows UID 50001 and two messages with a limit of one; a limit of 60000 leaves the newest message out; a limit of
one shows four messages where three come in between USER and PASS. -/
theorem limitMovesSlice :
    ¬ OnlySlice firstSlice.rows firstSlice.named.slice firstSlice.highwater firstSlice.limit firstSlice.dele firstSlice.maildrop ∧
    ¬ OnlySlice manyLatest.rows manyLatest.named.slice manyLatest.highwater manyLatest.limit manyLatest.dele manyLatest.maildrop ∧
    ¬ OnlySlice grownLatest.rows grownLatest.named.slice grownLatest.highwater grownLatest.limit grownLatest.dele
      grownLatest.maildrop := by
  refine ⟨fun only => ?_,fun only => ?_,fun only => ?_⟩
  · have beyond := only.inSlice (by decide) ⟨50001,10,"b"⟩ (by decide)
    exact absurd beyond (by decide)
  · have newer := (manyLatest.clearOf only).inside (50001,⟨10,"b"⟩) (by decide) (by decide)
    exact absurd newer (by decide)
  · exact absurd (only.few 1 (by decide)) (by decide)

end PublicInbox.POP3
