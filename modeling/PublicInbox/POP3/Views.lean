import PublicInbox.POP3.Deletions
import PublicInbox.Library.Sparse
import Mathlib.Data.List.TakeWhile
import Std.Data.String.ToInt

/-! What a session shows of its maildrop: the numbers of STAT, the lists of LIST and UIDL and the
messages that the message numbers stand for. The view is {cache}, {total_bytes} and {nr_dele}
together, against the messages at the login and the marks of DELE. -/
namespace PublicInbox.POP3
open Sparse (left numbered)

variable {D : Type}

def window (env : Env) (self : Client D) : List Msg := (statCache env self).listed.rows

/- A step of one session that is logged in. A close or QUIT ends it, and no step follows. -/
inductive Act where
  | line (cmd : Cmd)
  | fetched (out : Cat)
  deriving DecidableEq

def turn (env : Env) (self : Client D) : Act → Client D
  | .line cmd => (command env self cmd).1
  | .fetched out => match self.inflight with
    | req :: later => ((retrCb { self with inflight := later } req out).map Prod.fst).getD self
    | [] => self

/- The session as its client can know it: the messages read when {cache} was filled, where it is
filled, what DELE has set to undef there, the positions that were marked since the last RSET, and how
many marks RSETs took back. `late` is true once an answer of git came between RSET and the next command
that fills {cache}, `astray` once a DELE was answered +OK whose number wraps. -/
structure View where
  «read» : Option (List Msg)
  undef : List Nat
  marks : List Nat
  lost : Nat
  late : Bool
  astray : Bool
  deriving DecidableEq

namespace View

def start : View := ⟨none,[],[],0,false,false⟩

def rows (v : View) (env : Env) (self : Client D) : List Msg := v.read.getD (window env self)

def mark (v : View) (rows : List Msg) (msn : List Char) : View :=
  let off := Decimal.value msn - 1
  let cache : Cache := ⟨rows,v.undef⟩
  if isMsn msn ∧ cache.at? off 0 ≠ none then
    let v := { v with undef := v.undef ++ [0,1,2].filterMap (cache.place off) }
    if Wide off then { v with astray := true } else { v with marks := v.marks ++ [off] }
  else v

def line (v : View) (rows : List Msg) : Cmd → View
  | .stat | .list _ | .uidl _ | .retr _ none => { v with «read» := some rows }
  | .retr _ (some lines) =>
    if lines = [] ∨ lines.any (fun c => !c.isDigit) then v else { v with «read» := some rows }
  | .dele msn => { v with «read» := some rows }.mark rows (msn.getD [])
  | .rset => { v with «read» := none, undef := [], marks := [], lost := v.lost + v.marks.length, late := false }
  | _ => v

def fetched (v : View) : View := if v.read = none then { v with «read» := some [], late := true } else v

end View

def look (env : Env) (self : Client D) (v : View) : Act → View
  | .line cmd => v.line (v.rows env self) cmd
  | .fetched _ => if self.inflight = [] then v else v.fetched

def follow (x : Client D × View) (step : Env × Act) : Client D × View :=
  (turn step.1 x.1 step.2,look step.1 x.1 x.2 step.2)

def bytes (msgs : List (Option Msg)) : Int := (msgs.reduceOption.map fun m => (m.bytes : Int)).sum

/- {cache} is what was read. Where no number went astray the marks are the holes, and {nr_dele} counts
them with those that a RSET took back. -/
structure Tracks (client : Client D) (v : View) : Prop where
  salt : client.salt = none
  cache : client.cache = v.read.map fun rows => ⟨rows,v.undef⟩
  bare : v.read = none → v.undef = [] ∧ v.marks = []
  holes : ∀ i ∈ v.marks,i < (v.read.getD []).length ∧ ∀ col < 3,3 * i + col ∈ v.undef
  apart : v.marks.Nodup
  whole : v.astray = false → ∀ i,i ∈ v.undef → i / 3 ∈ v.marks
  counted : v.astray = false → client.nrDele = v.marks.length + v.lost
  sized : v.astray = false → v.late = false → ∀ rows,v.read = some rows → client.totalBytes = bytes (left rows v.marks)
  soon : v.read = none → v.late = false

theorem statCacheListed (env : Env) (self : Client D) : (statCache env self).cache = some ⟨window env self,[]⟩ := rfl

theorem statCacheBytes (env : Env) (self : Client D) :
    (statCache env self).totalBytes = bytes (left (window env self) []) := by
  rw [Sparse.leftNil,bytes,statCache]
  simp [window,statCache,Client.listed,List.reduceOption,List.filterMap_map,Function.comp_def]

namespace Tracks
variable {self : Client D} {v : View} (env : Env)

theorem listed (tracks : Tracks self v) {rows : List Msg} (there : v.read = some rows) : self.listed = ⟨rows,v.undef⟩ := by
  rw [Client.listed,tracks.cache,there,Option.map_some,Option.getD_some]

theorem cached (tracks : Tracks self v) :
    Tracks (POP3.cached env self) { v with «read» := some (v.rows env self) } := by
  cases there : v.read with
  | none =>
    obtain ⟨undef,marks⟩ := tracks.bare there
    have fill : POP3.cached env self = statCache env self := by
      rw [POP3.cached,if_pos (by rw [tracks.cache,there]; rfl)]
    have rows : v.rows env self = window env self := by rw [View.rows,there,Option.getD_none]
    rw [fill,rows]
    refine ⟨tracks.salt,?_,fun none => (by cases none),fun i mem => ?_,tracks.apart,tracks.whole,tracks.counted,
      fun _ _ rows same => ?_,fun none => by cases none⟩
    · rw [statCacheListed,undef]
      rfl
    · rw [marks] at mem
      cases mem
    · obtain rfl := Option.some.inj same
      rw [statCacheBytes,marks]
  | some rows =>
    have keep : POP3.cached env self = self := by
      rw [POP3.cached,if_neg (by rw [tracks.cache,there]; exact Option.some_ne_none _)]
    have same : { v with «read» := some (v.rows env self) } = v := by rw [View.rows,there,Option.getD_some,← there]
    rw [keep,same]
    exact tracks

theorem wholeAt (tracks : Tracks self v) (straight : v.astray = false) (rows : List Msg) :
    (⟨rows,v.undef⟩ : Cache).Whole v.marks := by
  refine fun i => ⟨tracks.whole straight i,fun mem => ?_⟩
  have hole := (tracks.holes _ mem).2 (i % 3) (Nat.mod_lt _ (by decide))
  rwa [Nat.div_add_mod] at hole

theorem marked (tracks : Tracks self v) {rows : List Msg} (there : v.read = some rows) {off : Nat} (small : ¬ Wide off)
    (found : (⟨rows,v.undef⟩ : Cache).at? off 0 ≠ none) :
    Tracks (markDele env self off).1
      { v with undef := v.undef ++ [0,1,2].filterMap ((⟨rows,v.undef⟩ : Cache).place off), marks := v.marks ++ [off] } := by
  have listed := tracks.listed there
  rw [Cache.atSmall _ small (by decide),Nat.add_zero] at found
  have fresh : 3 * off ∉ v.undef := fun mem => found (if_pos mem)
  rw [if_neg fresh] at found
  obtain ⟨m,row⟩ := Option.ne_none_iff_exists'.mp (fun none => found (Option.map_eq_none_iff.mpr none))
  obtain ⟨inside,-⟩ := List.getElem?_eq_some_iff.mp row
  have new : off ∉ v.marks := fun mem => fresh ((tracks.holes off mem).2 0 (by decide))
  have cells : [0,1,2].filterMap ((⟨rows,v.undef⟩ : Cache).place off) = [3 * off,3 * off + 1,3 * off + 2] := by
    simp [Cache.placeSmall _ small]
  have first : (⟨rows,v.undef⟩ : Cache).at? off 0 = some (m,0) := by
    rw [Cache.atSmall _ small (by decide),Nat.add_zero,if_neg fresh,row,Option.map_some]
  rw [markDele,listed,first,cells]
  refine ⟨tracks.salt,?_,fun none => ?_,fun i mem => ?_,?_,fun straight i mem => ?_,fun straight => ?_,
    fun straight late rows' same => ?_,fun none => ?_⟩
  · rw [there]
    rfl
  · cases there.symm.trans none
  · rcases List.mem_append.mp mem with old | own
    · exact ⟨(tracks.holes i old).1,fun col small => List.mem_append_left _ ((tracks.holes i old).2 col small)⟩
    · obtain rfl := List.mem_singleton.mp own
      refine ⟨by rw [there]; exact inside,fun col small => List.mem_append_right _ ?_⟩
      simp only [List.mem_cons,List.not_mem_nil,or_false]
      omega
  · exact List.nodup_append.mpr ⟨tracks.apart,List.nodup_singleton _,fun i mem j same equal =>
      new (List.mem_singleton.mp same ▸ equal ▸ mem)⟩
  · rcases List.mem_append.mp mem with old | own
    · exact List.mem_append_left _ (tracks.whole straight i old)
    · simp only [List.mem_cons,List.not_mem_nil,or_false] at own
      exact List.mem_append_right _ (List.mem_singleton.mpr (by omega))
  · change self.nrDele + 1 = (v.marks ++ [off]).length + v.lost
    rw [tracks.counted straight,List.length_append,List.length_singleton]
    omega
  · obtain rfl := Option.some.inj (there.symm.trans same)
    have whole := tracks.wholeAt straight rows
    have second : (⟨rows,v.undef⟩ : Cache).at? off 1 = some (m,1) := by
      rw [whole.at small (by decide),if_neg new,row,Option.map_some]
    have here : (left rows v.marks)[off]?.join = some m := by rw [Sparse.leftGet,if_neg new,row]
    rw [← Sparse.leftSet,bytes,Sparse.sumSet here]
    change self.totalBytes - _ = _
    rw [tracks.sized straight late rows there,second]
    rfl
  · cases there.symm.trans none

theorem strayed (tracks : Tracks self v) {rows : List Msg} (there : v.read = some rows) (off : Nat)
    (found : (⟨rows,v.undef⟩ : Cache).at? off 0 ≠ none) :
    Tracks (markDele env self off).1
      { v with undef := v.undef ++ [0,1,2].filterMap ((⟨rows,v.undef⟩ : Cache).place off), astray := true } := by
  have listed := tracks.listed there
  obtain ⟨⟨m,col⟩,first⟩ := Option.ne_none_iff_exists'.mp found
  rw [markDele,listed,first]
  refine ⟨tracks.salt,?_,fun none => ?_,fun i mem => ?_,tracks.apart,fun straight => (by cases straight),
    fun straight => (by cases straight),fun straight => (by cases straight),tracks.soon⟩
  · rw [there]
    rfl
  · cases there.symm.trans none
  · exact ⟨(tracks.holes i mem).1,fun col small => List.mem_append_left _ ((tracks.holes i mem).2 col small)⟩

theorem dele (tracks : Tracks self v) {rows : List Msg} (there : v.read = some rows) (msn : Option (List Char)) :
    Tracks (cmdDele env self msn).1 (v.mark rows (msn.getD [])) := by
  unfold cmdDele View.mark
  dsimp only
  by_cases valid : isMsn (msn.getD []) = true
  · by_cases found : (⟨rows,v.undef⟩ : Cache).at? (Decimal.value (msn.getD []) - 1 : Nat) 0 = none
    · have idle : markDele env self (Decimal.value (msn.getD []) - 1) = (self,false) :=
        markedNone env (by rw [tracks.listed there]; exact found)
      simp only [valid,found,idle,if_true,ne_eq,not_true_eq_false,and_false,if_false]
      exact tracks
    · simp only [valid,found,if_true,ne_eq,not_false_eq_true,and_true]
      split
      · exact tracks.strayed env there _ found
      · exact tracks.marked env there ‹_› found
  · rw [if_neg valid,if_neg fun all => valid all.1]
    exact tracks

theorem same {new : Client D} (tracks : Tracks self v) (salt : new.salt = self.salt) (cache : new.cache = self.cache)
    (nrDele : new.nrDele = self.nrDele) (totalBytes : new.totalBytes = self.totalBytes) : Tracks new v :=
  ⟨salt.trans tracks.salt,cache.trans tracks.cache,tracks.bare,tracks.holes,tracks.apart,tracks.whole,
    fun straight => nrDele.trans (tracks.counted straight),
    fun straight late rows there => totalBytes.trans (tracks.sized straight late rows there),tracks.soon⟩

theorem served (tracks : Tracks self v) (cmd : Cmd) (guarded : cmd.guarded = true)
    (lines : ∀ msn topNr,cmd = .retr msn (some topNr) → ¬ (topNr = [] ∨ topNr.any (fun c => !c.isDigit) = true)) :
    Tracks (served env self cmd).1 (v.line (v.rows env self) cmd) := by
  have cached := tracks.cached env
  cases cmd with
  | stat | list | uidl => exact cached
  | retr msn topNr =>
    have view : v.line (v.rows env self) (.retr msn topNr) = { v with «read» := some (v.rows env self) } := by
      cases topNr with
      | none => rfl
      | some ds => exact if_neg (lines msn ds rfl)
    rw [view]
    dsimp only [POP3.served,cmdRetr]
    split
    · exact cached
    · exact cached.same rfl rfl rfl rfl
  | rset =>
    refine ⟨tracks.salt,rfl,fun _ => ⟨rfl,rfl⟩,fun i mem => (by cases mem),.nil,fun _ i mem => (by cases mem),fun straight => ?_,
      fun _ _ rows there => (by cases there),fun _ => rfl⟩
    change self.nrDele = 0 + (v.lost + v.marks.length)
    rw [tracks.counted straight]
    omega
  | dele msn => exact cached.dele env rfl msn
  | user | pass | apop | noop | capa | quit => cases guarded

theorem command (tracks : Tracks self v) (cmd : Cmd) :
    Tracks (POP3.command env self cmd).1 (v.line (v.rows env self) cmd) := by
  have may : needTxn self = none := by rw [needTxn,tracks.salt,Option.map_none]
  cases cmd with
  | user mailbox =>
    have kept : (cmdUser env self mailbox).1 = self := by rw [cmdUser,if_pos tracks.salt]
    simp only [POP3.command,kept]
    exact tracks
  | noop => exact tracks
  | capa => exact tracks.same rfl rfl rfl rfl
  | retr msn topNr =>
    cases topNr with
    | none =>
      simp only [POP3.command,may]
      exact tracks.served env _ rfl fun _ _ same => by cases same
    | some lines =>
      simp only [POP3.command,View.line]
      split
      · exact tracks
      · rename_i fine
        rw [may]
        have served := tracks.served env (.retr msn (some lines)) rfl fun _ topNr same => by
          cases same
          exact fine
        rwa [View.line,if_neg fine] at served
  | stat | list | uidl | rset | dele =>
    simp only [POP3.command,may]
    exact tracks.served env _ rfl fun _ _ same => by cases same
  | pass | apop | quit =>
    simp only [POP3.command,may]
    exact tracks

theorem fetched (tracks : Tracks self v) (req : Req) (out : Cat) :
    Tracks (((retrCb self req out).map Prod.fst).getD self) v.fetched := by
  have empty : v.read = none → self.listed.at? req.off 2 = none := by
    intro none
    rw [Client.listed,tracks.cache,none,Option.map_none,Option.getD_none,Cache.at?]
    refine Option.bind_eq_none_iff.mpr fun i _ => ?_
    simp [Cache.cell]
  have filled : self.listed.at? req.off 2 ≠ none → v.fetched = v := fun found => if_neg (found ∘ empty)
  unfold retrCb
  split
  · simp only [Option.map_some,Option.getD_some]
    unfold View.fetched
    cases there : v.read with
    | none =>
      obtain ⟨undef,marks⟩ := tracks.bare there
      rw [if_pos rfl]
      refine ⟨tracks.salt,?_,fun none => (by cases none),fun i mem => ?_,tracks.apart,tracks.whole,tracks.counted,
        fun _ late => (by cases late),fun none => (by cases none)⟩
      · simp [Client.listed,tracks.cache,there,undef]
      · simp only [marks] at mem
        cases mem
    | some rows =>
      rw [if_neg (Option.some_ne_none rows)]
      refine tracks.same rfl ?_ rfl rfl
      rw [tracks.listed there,tracks.cache,there,Option.map_some]
  · rename_i m col found
    rw [filled (by rw [found]; exact Option.some_ne_none _)]
    repeat' split
    all_goals exact tracks.same rfl rfl rfl rfl

theorem turn (tracks : Tracks self v) (act : Act) : Tracks (POP3.turn env self act) (look env self v act) := by
  cases act with
  | line cmd => exact tracks.command env cmd
  | fetched out =>
    dsimp only [POP3.turn,look]
    cases queue : self.inflight with
    | nil => exact tracks
    | cons req later =>
      rw [if_neg (List.cons_ne_nil req later)]
      have answered := (@same _ _ _ { self with inflight := later } tracks rfl rfl rfl rfl).fetched req out
      dsimp only
      cases made : retrCb { self with inflight := later } req out with
      | none =>
        rw [made] at answered
        exact answered.same rfl rfl rfl rfl
      | some after =>
        rw [made] at answered
        exact answered

end Tracks

/- What a session shows, where `msgs` are the messages it should have, with holes for those that are
deleted: the reply of STAT, the two lists, and what the commands find under each number. -/
structure Shows (env : Env) (client : Client D) (msgs : List (Option Msg)) : Prop where
  stat : (command env client .stat).2 =
    some (.ok (toString (msgs.reduceOption.length : Int) ++ " " ++ toString (bytes msgs)))
  list : (command env client (.list none)).2 = some (.ok (listHead "scan" ++ "".intercalate ((numbered msgs).map
    fun (i,m) => toString (i + 1) ++ " " ++ toString m.bytes ++ "\r\n") ++ "."))
  uidl : (command env client (.uidl none)).2 = some (.ok (listHead "unique-id" ++ "".intercalate ((numbered msgs).map
    fun (i,m) => toString (i + 1) ++ " " ++ m.blob ++ "\r\n") ++ "."))
  numbers : ∀ i col : Nat,col < 3 → (cached env client).listed.cell (3 * i + col) = msgs[i]?.join.map fun m => (m,col)

theorem intercalateCons (line : String) (lines : List String) : "".intercalate (line :: lines) = line ++ "".intercalate lines := by
  cases lines with
  | nil => simp
  | cons next lines => simp [String.intercalate_cons_cons]

theorem intercalateHoles {shown : Option Msg × Nat → String} {line : Nat × Msg → String}
    (hole : ∀ i,shown (none,i) = "") (there : ∀ m i,shown (some m,i) = line (i,m)) (entries : List (Option Msg)) (n : Nat) :
    "".intercalate ((entries.zipIdx n).map shown) =
      "".intercalate (((entries.zipIdx n).filterMap fun (x,i) => x.map (Prod.mk i)).map line) := by
  induction entries generalizing n with
  | nil => rfl
  | cons entry entries ih =>
    rw [List.zipIdx_cons,List.map_cons,intercalateCons,List.filterMap_cons,ih]
    cases entry with
    | none =>
      rw [hole]
      exact String.empty_append
    | some m =>
      rw [there]
      exact (intercalateCons _ _).symm

theorem listingLines (desc : String) {col : Nat} (inside : col < 3) {self : Client D} {marks : List Nat}
    (whole : self.listed.Whole marks) :
    listing desc col self none = .ok (listHead desc ++ "".intercalate ((numbered (left self.listed.rows marks)).map
      fun (i,m) => toString (i + 1) ++ " " ++ m.text col ++ "\r\n") ++ ".") := by
  have lines : self.listed.rows.mapIdx (self.listed.line col) =
      (left self.listed.rows marks).zipIdx.map fun (entry,i) =>
        entry.elim "" fun m => toString (i + 1) ++ " " ++ m.text col ++ "\r\n" := by
    refine List.ext_getElem? fun i => ?_
    simp only [left,List.getElem?_map,List.getElem?_zipIdx,List.getElem?_mapIdx,Nat.zero_add]
    cases self.listed.rows[i]? with
    | none => rfl
    | some m =>
      simp only [Option.map_some,Cache.line,whole (3 * i),whole (3 * i + col),show 3 * i / 3 = i by omega,
        show (3 * i + col) / 3 = i by omega]
      by_cases hole : i ∈ marks
      · simp only [if_pos hole,Option.elim_none]
      · simp only [if_neg hole,Option.elim_some]
  rw [listing,lines,@intercalateHoles _ (fun (i,m) => toString (i + 1) ++ " " ++ m.text col ++ "\r\n") (fun _ => rfl)
    (fun _ _ => rfl)]
  rfl

section
variable (env : Env) {self : Client D} {v : View}

theorem showsIff (tracks : Tracks self v) (straight : v.astray = false) (late : v.late = false) (login : List Msg) :
    Shows env self (left login v.marks) ↔
      v.lost = 0 ∧ ∀ i ∉ v.marks,(v.rows env self)[i]? = login[i]? := by
  have may : needTxn self = none := by rw [needTxn,tracks.salt,Option.map_none]
  have cached := tracks.cached env
  have listed : (POP3.cached env self).listed = ⟨v.rows env self,v.undef⟩ := cached.listed rfl
  have whole : (POP3.cached env self).listed.Whole v.marks := listed ▸ tracks.wholeAt straight _
  have total : (POP3.cached env self).totalBytes = bytes (left (v.rows env self) v.marks) := cached.sized straight late _ rfl
  have counted : (POP3.cached env self).nrDele = v.marks.length + v.lost := cached.counted straight
  have stands : (left (v.rows env self) v.marks).reduceOption.length + v.marks.length = (v.rows env self).length :=
    Sparse.reduceLeft cached.apart fun i mem => (cached.holes i mem).1
  have cell : ∀ i col : Nat,col < 3 → (POP3.cached env self).listed.cell (3 * i + col) =
      (left (v.rows env self) v.marks)[i]?.join.map fun m => (m,col) := by
    intro i col inside
    rw [Sparse.leftGet,Cache.cell,listed,show (3 * i + col) / 3 = i by omega,show (3 * i + col) % 3 = col by omega]
    have hole := whole (3 * i + col)
    rw [listed,show (3 * i + col) / 3 = i by omega] at hole
    by_cases mem : i ∈ v.marks
    · rw [if_pos mem,if_pos (hole.mpr mem),Option.map_none]
    · rw [if_neg mem,if_neg fun undef => mem (hole.mp undef)]
  have paired : ∀ col : Nat,Function.Injective fun m : Msg => (m,col) := fun _ _ _ same => congrArg Prod.fst same
  have numbers : (∀ i col : Nat,col < 3 → (POP3.cached env self).listed.cell (3 * i + col) =
      (left login v.marks)[i]?.join.map fun m => (m,col)) ↔
      ∀ i : Nat,(left (v.rows env self) v.marks)[i]?.join = (left login v.marks)[i]?.join := by
    refine forall_congr' fun i => ⟨fun all => ?_,fun same col inside => by rw [cell i col inside,same]⟩
    exact Option.map_injective (paired 0) ((cell i 0 (by decide)).symm.trans (all 0 (by decide)))
  have holes : (∀ i : Nat,(left (v.rows env self) v.marks)[i]?.join = (left login v.marks)[i]?.join) ↔
      ∀ i ∉ v.marks,(v.rows env self)[i]? = login[i]? := by
    refine forall_congr' fun i => ?_
    rw [Sparse.leftGet,Sparse.leftGet]
    by_cases hole : i ∈ v.marks
    · simp [hole]
    · simp [hole]
  have stat : (command env self .stat).2 = some (.ok (toString
      ((left (v.rows env self) v.marks).reduceOption.length - v.lost : Int) ++ " " ++ toString (bytes (left (v.rows env self) v.marks)))) := by
    simp only [command,may,served,cmdStat,listed,total,counted]
    rw [show ((v.rows env self).length : Int) - ((v.marks.length + v.lost : Nat) : Int) =
      (left (v.rows env self) v.marks).reduceOption.length - v.lost by omega]
  have rows : (POP3.cached env self).listed.rows = v.rows env self := by rw [listed]
  constructor
  · intro shows
    have here := numbers.mp shows.numbers
    refine ⟨?_,holes.mp here⟩
    have same := Sparse.reduceEq here
    have texts := stat.symm.trans shows.stat
    rw [bytes,bytes,same] at texts
    simp only [Option.some.injEq,Reply.ok.injEq,String.append_left_inj] at texts
    have counts : ((left login v.marks).reduceOption.length - v.lost : Int) = (left login v.marks).reduceOption.length :=
      Int.repr_injective texts
    omega
  · rintro ⟨lost,there⟩
    have here := holes.mpr there
    have same : numbered (left (v.rows env self) v.marks) = numbered (left login v.marks) := Sparse.numberedEq here
    have reduced : (left (v.rows env self) v.marks).reduceOption = (left login v.marks).reduceOption := Sparse.reduceEq here
    refine ⟨?_,?_,?_,numbers.mpr here⟩
    · rw [stat,lost,bytes,bytes,reduced,Int.natCast_zero,Int.sub_zero]
    · simp only [command,may,served,listingLines "scan" (show 1 < 3 by decide) whole,rows,same]
      rfl
    · simp only [command,may,served,listingLines "unique-id" (show 2 < 3 by decide) whole,rows,same]
      rfl

end

def loggedIn {P : Type} [DecidableEq P] [DecidableEq D] (proc : D → P) (d : D) (salt : List Char) (before : List (Env × Cmd))
    (env : Env) (shared : POP3D.Shared P D) (named : Selected) : Client D :=
  (loginOk proc env shared (before.foldl (fun self x => (command x.1 self x.2).1) (World.fresh d salt)) named).2.1

def followed (first : Client D) (steps : List (Env × Act)) : Client D × View := steps.foldl follow (first,View.start)

structure Blank (client : Client D) : Prop where
  salt : client.salt ≠ none
  cache : client.cache = none
  nrDele : client.nrDele = 0

theorem Blank.command {self : Client D} (blank : Blank self) (env : Env) (cmd : Cmd) : Blank (command env self cmd).1 := by
  have salt : (POP3.command env self cmd).1.salt ≠ none := (commandKeeps env self cmd).salt ▸ blank.salt
  obtain ⟨text,is⟩ := Option.ne_none_iff_exists'.mp blank.salt
  have refused : needTxn self = some (.err "not in TRANSACTION") := by rw [needTxn,is]; rfl
  obtain ⟨-,cache,nrDele⟩ := blank
  suffices kept : (POP3.command env self cmd).1.cache = none ∧ (POP3.command env self cmd).1.nrDele = 0 from ⟨salt,kept.1,kept.2⟩
  cases cmd with
  | user mailbox =>
    dsimp only [POP3.command,cmdUser]
    repeat' split
    all_goals exact ⟨cache,nrDele⟩
  | retr msn topNr =>
    cases topNr with
    | none => simpa only [POP3.command,refused] using ⟨cache,nrDele⟩
    | some lines =>
      simp only [POP3.command,refused]
      split <;> exact ⟨cache,nrDele⟩
  | noop | capa => exact ⟨cache,nrDele⟩
  | stat | list | uidl | rset | dele | pass | apop | quit => simpa only [POP3.command,refused] using ⟨cache,nrDele⟩

section
variable {P : Type} [DecidableEq P] [DecidableEq D] (proc : D → P) (d : D) (salt : List Char) (before : List (Env × Cmd))
  (env : Env) (shared : POP3D.Shared P D) (named : Selected)

theorem loggedTracks : Tracks (loggedIn proc d salt before env shared named) View.start := by
  have fresh : Blank (World.fresh d salt) := ⟨Option.some_ne_none salt,rfl,rfl⟩
  have blank : ∀ self : Client D,Blank self → Blank (before.foldl (fun self x => (command x.1 self x.2).1) self) := by
    induction before with
    | nil => exact fun _ blank => blank
    | cons x before ih => exact fun self blank => ih _ (blank.command x.1 x.2)
  obtain ⟨-,cache,nrDele⟩ := blank _ fresh
  have fields : (loggedIn proc d salt before env shared named).salt = none ∧
      (loggedIn proc d salt before env shared named).cache = none ∧
      (loggedIn proc d salt before env shared named).nrDele = 0 := by
    rw [loggedIn,loginOk]
    dsimp only
    split
    · exact ⟨rfl,cache,nrDele⟩
    · exact ⟨rfl,cache,nrDele⟩
  exact ⟨fields.1,fields.2.1,fun _ => ⟨rfl,rfl⟩,fun i mem => (by cases mem),.nil,fun _ i mem => (by cases mem),fun _ => fields.2.2,
    fun _ _ rows there => (by cases there),fun _ => rfl⟩

end

theorem followedTracks {first : Client D} (tracks : Tracks first View.start) (steps : List (Env × Act)) :
    Tracks (followed first steps).1 (followed first steps).2 :=
  List.foldlRecOn steps follow (motive := fun x => Tracks x.1 x.2) tracks fun _ here step _ => here.turn step.1 step.2

theorem followedEarly (first : Client D) (lines : List (Env × Cmd)) :
    (followed first (lines.map fun x => (x.1,.line x.2))).2.late = false := by
  have kept : ∀ (v : View) rows cmd,v.late = false → (v.line rows cmd).late = false := by
    intro v rows cmd early
    cases cmd with
    | retr msn topNr =>
      cases topNr with
      | none => exact early
      | some ds =>
        dsimp only [View.line]
        split <;> exact early
    | rset => rfl
    | dele msn =>
      dsimp only [View.line,View.mark]
      repeat' split
      all_goals exact early
    | user | pass | apop | stat | list | uidl | noop | capa | quit => exact early
  refine List.foldlRecOn (lines.map fun x => (x.1,Act.line x.2)) follow (motive := fun x : Client D × View => x.2.late = false)
    (b := (first,View.start)) rfl fun x early step mem => ?_
  obtain ⟨line,-,rfl⟩ := List.mem_map.mp mem
  exact kept x.2 _ line.2 early

theorem turnKeeps (env : Env) (self : Client D) (act : Act) : self.Keeps (turn env self act) := by
  cases act with
  | line cmd => exact commandKeeps env self cmd
  | fetched out =>
    dsimp only [turn]
    cases queue : self.inflight with
    | nil => exact .refl self
    | cons req later =>
      dsimp only
      cases made : retrCb { self with inflight := later } req out with
      | none => exact .refl self
      | some after =>
        have popped : self.Keeps { self with inflight := later } := ⟨rfl,rfl,rfl,rfl,rfl,rfl,rfl,fun _ => rfl⟩
        exact popped.trans (retrCbKeeps made).1

theorem followedKeeps (first : Client D) (steps : List (Env × Act)) : first.Keeps (followed first steps).1 :=
  List.foldlRecOn steps follow (motive := fun x => first.Keeps x.1) (.refl first)
    fun _ here step _ => here.trans (turnKeeps step.1 _ step.2)

theorem windowKeeps {first self : Client D} (keeps : first.Keeps self) (salt : first.salt = none) (env : Env) :
    window env self = window env first := by
  rw [window,window,statCache,statCache,keeps.selected salt,keeps.uidMax,keeps.uidBase,keeps.uidDele]
  rfl

theorem rowsKeeps {first self : Client D} (keeps : first.Keeps self) (salt : first.salt = none) (v : View) (env : Env) :
    v.rows env self = v.rows env first := by
  rw [View.rows,View.rows,windowKeeps keeps salt]

section
variable {P : Type} [DecidableEq P] [DecidableEq D] (proc : D → P) (d : D) (salt : List Char) (before : List (Env × Cmd))
  (env : Env) (shared : POP3D.Shared P D) (named : Selected)

/- The numbers and the lists of a session are those of its login, less the marks, as long as no RSET
took back a mark and the messages read since are those of the login wherever there is no mark. A DELE whose
number wraps sets to undef what is no whole message. -/
theorem viewShown (lines : List (Env × Cmd)) (now : Env) :
    let first := loggedIn proc d salt before env shared named
    let (self,v) := followed first (lines.map fun x => (x.1,.line x.2))
    v.astray = false → (Shows now self (left (window env first) v.marks) ↔
      v.lost = 0 ∧ ∀ i ∉ v.marks,(v.rows now first)[i]? = (window env first)[i]?) := by
  have tracks := loggedTracks proc d salt before env shared named
  have after := followedTracks tracks (lines.map fun x => (x.1,.line x.2))
  dsimp only
  intro straight
  rw [← rowsKeeps (followedKeeps _ (lines.map fun x => (x.1,Act.line x.2))) tracks.salt]
  exact showsIff now after straight (followedEarly _ lines) _

end

open World (threeMessages latestOf)

def threeListed : Client Unit :=
  loggedIn (fun _ => ()) () [] [(threeMessages,.user (latestOf 'a'))] threeMessages ⟨.empty,fun _ => none,fun _ => []⟩
    ⟨List.replicate 32 'a',⟨['g'],['d']⟩,-1⟩

def deleStat : List (Env × Cmd) := [(threeMessages,.dele (some ['2'])),(threeMessages,.stat)]

theorem firstAndThird : Shows threeMessages (followed threeListed (deleStat.map fun x => (x.1,.line x.2))).1
      (left (window threeMessages threeListed) [1]) ∧
    (command threeMessages (followed threeListed (deleStat.map fun x => (x.1,.line x.2))).1 (.uidl none)).2 =
      some (.ok "unique-id listing follows\r\n1 a\r\n3 c\r\n.") := by
  have shown := viewShown (fun _ => ()) () [] [(threeMessages,.user (latestOf 'a'))] threeMessages
    ⟨.empty,fun _ => none,fun _ => []⟩ ⟨List.replicate 32 'a',⟨['g'],['d']⟩,-1⟩ deleStat threeMessages
  have straight : (followed threeListed (deleStat.map fun x => (x.1,Act.line x.2))).2.astray = false := by decide
  have unread : ∀ i ∉ (followed threeListed (deleStat.map fun x => (x.1,Act.line x.2))).2.marks,
      ((followed threeListed (deleStat.map fun x => (x.1,Act.line x.2))).2.rows threeMessages threeListed)[i]? =
        (window threeMessages threeListed)[i]? := fun _ _ => congrArg (fun rows : List Msg => rows[_]?) (by decide)
  exact ⟨(shown straight).mpr ⟨by decide,unread⟩,by decide⟩

abbrev Digits := { ds : List Char // ds ≠ [] ∧ ds.all Char.isDigit = true }

inductive Numbered where
  | retr
  | top (lines : Digits)
  | list
  | uidl
  | dele
  deriving DecidableEq

namespace Numbered

def cmd (msn : Digits) : Numbered → Cmd
  | retr => .retr (some msn.1) none
  | top lines => .retr (some msn.1) (some lines.1)
  | list => .list (some msn.1)
  | uidl => .uidl (some msn.1)
  | dele => .dele (some msn.1)

def col : Numbered → Nat
  | dele => 0
  | list => 1
  | retr | top _ | uidl => 2

def target (env : Env) (self : Client D) (msn : Digits) : Numbered → Option (Msg × Nat)
  | dele => if isMsn msn.1 then (cached env self).listed.at? (Decimal.value msn.1 - 1 : Nat) 0 else none
  | numbered => (cached env self).listed.at? (numify msn.1 - 1) numbered.col

def outcome (env : Env) (self : Client D) (msn : Digits) (found : Option (Msg × Nat)) : Numbered → Client D × Option Reply
  | retr => match found with
    | some (m,col) => ({ self with inflight := self.inflight ++ [⟨numify msn.1 - 1,none,m.text col⟩] },none)
    | none => (self,some (.err "no such message"))
  | top lines => match found with
    | some (m,col) =>
      ({ self with inflight := self.inflight ++ [⟨numify msn.1 - 1,some (Decimal.value lines.1),m.text col⟩] },none)
    | none => (self,some (.err "no such message"))
  | list => match found with
    | some (m,col) => (self,some (.ok (listHead "scan" ++ String.ofList msn.1 ++ " " ++ m.text col ++ "\r\n.")))
    | none => (self,some (.err "no such message"))
  | uidl => match found with
    | some (m,col) => (self,some (.ok (listHead "unique-id" ++ String.ofList msn.1 ++ " " ++ m.text col ++ "\r\n.")))
    | none => (self,some (.err "no such message"))
  | dele => match found with
    | some (m,col) =>
      let off := Decimal.value msn.1 - 1
      let size := (self.listed.at? off 1).elim 0 fun (m,col) => m.number env col
      ({ self with
        txnMaxUid := some (Nat.max (m.number env col) (self.txnMaxUid.getD (m.number env col)))
        totalBytes := self.totalBytes - (size : Nat)
        cache := some { self.listed with undef := self.listed.undef ++ [0,1,2].filterMap (self.listed.place off) }
        nrDele := self.nrDele + 1 },some (.ok ""))
    | none => (self,some (.err "no such message"))

theorem commandOutcome (env : Env) {self : Client D} (salt : self.salt = none) (msn : Digits) (numbered : Numbered) :
    command env self (numbered.cmd msn) = numbered.outcome env (cached env self) msn (numbered.target env self msn) := by
  have may : needTxn self = none := by rw [needTxn,salt,Option.map_none]
  cases numbered with
  | retr =>
    simp only [cmd,command,may,served,cmdRetr,outcome,target,col,Option.getD_some]
    split <;> simp_all
  | top lines =>
    have fine : ¬ (lines.1 = [] ∨ lines.1.any (fun c => !c.isDigit) = true) := by
      rintro (empty | other)
      · exact lines.2.1 empty
      · obtain ⟨c,mem,bad⟩ := List.any_eq_true.mp other
        rw [List.all_eq_true.mp lines.2.2 c mem] at bad
        cases bad
    simp only [cmd,command,may,served,cmdRetr,outcome,target,col,if_neg fine,Option.getD_some]
    split <;> simp_all
  | list =>
    simp only [cmd,command,may,served,listing,outcome,target,col]
    split <;> simp_all
  | uidl =>
    simp only [cmd,command,may,served,listing,outcome,target,col]
    split <;> simp_all
  | dele =>
    simp only [cmd,command,may,served,cmdDele,outcome,target,Option.getD_some]
    by_cases valid : isMsn msn.1 = true
    · rw [if_pos valid,if_pos valid]
      cases found : (cached env self).listed.at? (Decimal.value msn.1 - 1 : Nat) 0 with
      | none => simp only [markedNone env found,Bool.false_eq_true,if_false]
      | some m => simp only [markDele,found,if_true]
    · rw [if_neg valid,if_neg valid]

end Numbered

theorem numifyDigits {ds : List Char} (digits : ds.all Char.isDigit = true) : numify ds = Decimal.value ds := by
  have whole : ds.takeWhile Char.isDigit = ds := List.takeWhile_eq_self_iff.mpr (List.all_eq_true.mp digits)
  unfold numify
  split
  · exact absurd (List.all_eq_true.mp digits '-' List.mem_cons_self) (by decide)
  · exact absurd (List.all_eq_true.mp digits '+' List.mem_cons_self) (by decide)
  · exact congrArg (fun ds => (Decimal.value ds : Int)) whole

theorem isMsnPositive {ds : List Char} (valid : isMsn ds = true) : Decimal.value ds ≠ 0 := by
  obtain ⟨digits,first⟩ := Bool.and_eq_true_iff.mp valid
  cases ds with
  | nil => cases first
  | cons c ds =>
    have some : c ≠ '0' := of_decide_eq_true first
    exact Nat.ne_of_gt (Decimal.valuePositive (List.all_eq_true.mp digits c List.mem_cons_self) some)

namespace View

def expected (v : View) (login : List Msg) (n col : Nat) : Option (Msg × Nat) :=
  if n = 0 then none else (left login v.marks)[n - 1]?.join.map fun m => (m,col)

/- Where the command finds that message: DELE takes no leading zeros, the number 0 and those that wrap name
elements from the end of what is read now, and these messages may be others than at the login. -/
def Stands (v : View) (login rows : List Msg) (msn : Digits) (numbered : Numbered) : Prop :=
  let n := Decimal.value msn.1
  if numbered = .dele ∧ isMsn msn.1 = false then v.expected login n 0 = none
  else if n = 0 ∨ Wide ((n : Int) - 1) then
    ∀ i,(⟨rows,v.undef⟩ : Cache).place ((n : Int) - 1) numbered.col = some i → i < 3 * rows.length → i ∈ v.undef
  else n - 1 ∉ v.marks → if 3 * (n - 1) + numbered.col ∈ v.undef then login[n - 1]? = none else rows[n - 1]? = login[n - 1]?

end View

theorem Cache.atNone {cache : Cache} {off : Int} {col : Nat} : cache.at? off col = none ↔
    ∀ i,cache.place off col = some i → i < 3 * cache.rows.length → i ∈ cache.undef := by
  rw [at?,Option.bind_eq_none_iff]
  refine forall_congr' fun i => forall_congr' fun _ => ?_
  unfold cell
  by_cases mem : i ∈ cache.undef
  · simp [mem]
  · rw [if_neg mem,Option.map_eq_none_iff,List.getElem?_eq_none_iff]
    constructor
    · intro past inside
      omega
    · exact fun inside => Nat.le_of_not_lt fun small => mem (inside (by omega))

theorem Numbered.colInside (numbered : Numbered) : numbered.col < 3 := by
  cases numbered with
  | retr | top | uidl => exact Nat.lt_succ_self 2
  | list | dele => exact Nat.lt_of_succ_le (by decide)

theorem View.namedStands {self : Client D} {v : View} (tracks : Tracks self v) (login rows : List Msg)
    {n : Nat} (some : n ≠ 0) (small : ¬ Wide (n - 1 : Nat)) {col : Nat} (inside : col < 3) :
    (⟨rows,v.undef⟩ : Cache).at? (n - 1 : Nat) col = v.expected login n col ↔
      (n - 1 ∉ v.marks → if 3 * (n - 1) + col ∈ v.undef then login[n - 1]? = none else rows[n - 1]? = login[n - 1]?) := by
  have paired : Function.Injective fun m : Msg => (m,col) := fun _ _ same => congrArg Prod.fst same
  rw [expected,if_neg some,Sparse.leftGet,Cache.atSmall _ small inside]
  by_cases hole : n - 1 ∈ v.marks
  · simp [hole,(tracks.holes _ hole).2 col inside]
  · rw [if_neg hole]
    by_cases undef : 3 * (n - 1) + col ∈ v.undef
    · rw [if_pos undef,if_pos undef,eq_comm,Option.map_eq_none_iff]
      exact ⟨fun gone _ => gone,fun gone => gone hole⟩
    · rw [if_neg undef,if_neg undef,(Option.map_injective paired).eq_iff]
      exact ⟨fun same _ => same,fun same => same hole⟩

theorem Numbered.targetStands (env : Env) {self : Client D} {v : View} (tracks : Tracks self v) {login : List Msg}
    (few : login.length ≤ IMAP.uidSlice) (msn : Digits) (numbered : Numbered) :
    numbered.target env self msn = v.expected login (Decimal.value msn.1) numbered.col ↔
      v.Stands login (v.rows env self) msn numbered := by
  have cached := tracks.cached env
  have listed : (POP3.cached env self).listed = ⟨v.rows env self,v.undef⟩ := cached.listed rfl
  have found : (POP3.cached env self).listed.at? ((Decimal.value msn.1 : Int) - 1) numbered.col =
      v.expected login (Decimal.value msn.1) numbered.col ↔
      if Decimal.value msn.1 = 0 ∨ Wide ((Decimal.value msn.1 : Int) - 1) then
        ∀ i,(⟨v.rows env self,v.undef⟩ : Cache).place ((Decimal.value msn.1 : Int) - 1) numbered.col = some i →
          i < 3 * (v.rows env self).length → i ∈ v.undef
      else Decimal.value msn.1 - 1 ∉ v.marks → if 3 * (Decimal.value msn.1 - 1) + numbered.col ∈ v.undef then
        login[Decimal.value msn.1 - 1]? = none
      else (v.rows env self)[Decimal.value msn.1 - 1]? = login[Decimal.value msn.1 - 1]? := by
    rw [listed]
    split
    · rename_i beyond
      have nothing : v.expected login (Decimal.value msn.1) numbered.col = none := by
        unfold View.expected
        split
        · rfl
        · rename_i some
          have past : login.length ≤ Decimal.value msn.1 - 1 := by
            have size : IMAP.uidSlice = 50000 := rfl
            have wide := beyond.resolve_left some
            unfold Wide at wide
            omega
          rw [Sparse.leftGet,List.getElem?_eq_none past,ite_self,Option.map_none]
      rw [nothing]
      exact Cache.atNone
    · rename_i within
      obtain ⟨some,small⟩ := not_or.mp within
      have number : (Decimal.value msn.1 : Int) - 1 = (Decimal.value msn.1 - 1 : Nat) := by omega
      rw [number] at small ⊢
      exact View.namedStands cached login _ some small numbered.colInside
  by_cases dele : numbered = .dele
  · subst dele
    rw [View.Stands,target]
    cases valid : isMsn msn.1 with
    | false => simpa [col] using eq_comm
    | true =>
      have some := isMsnPositive valid
      have number : ((Decimal.value msn.1 - 1 : Nat) : Int) = (Decimal.value msn.1 : Int) - 1 := by omega
      simp only [if_true,Bool.true_eq_false,and_false,if_false]
      rw [number]
      exact found
  · have other : numbered.target env self msn = (POP3.cached env self).listed.at? ((Decimal.value msn.1 : Int) - 1) numbered.col := by
      rw [← numifyDigits msn.2.2]
      cases numbered with
      | dele => exact absurd rfl dele
      | retr | top | list | uidl => rfl
    rw [other,View.Stands]
    simp only [dele,false_and,if_false]
    exact found

section
variable {P : Type} [DecidableEq P] [DecidableEq D] (proc : D → P) (d : D) (salt : List Char) (before : List (Env × Cmd))
  (env : Env) (shared : POP3D.Shared P D) (named : Selected)

/- What a command with a number does, and when the message is the one of that number at the login. -/
theorem numbersValidated (steps : List (Env × Act)) (now : Env) (msn : Digits) (numbered : Numbered) :
    let first := loggedIn proc d salt before env shared named
    let (self,v) := followed first steps
    command now self (numbered.cmd msn) = numbered.outcome now (cached now self) msn (numbered.target now self msn) ∧
      (numbered.target now self msn = v.expected (window env first) (Decimal.value msn.1) numbered.col ↔
        v.Stands (window env first) (v.rows now first) msn numbered) := by
  have tracks := loggedTracks proc d salt before env shared named
  have after := followedTracks tracks steps
  dsimp only
  refine ⟨Numbered.commandOutcome now after.salt msn numbered,?_⟩
  rw [← rowsKeeps (followedKeeps _ steps) tracks.salt]
  exact Numbered.targetStands now after (Marked.fewRows env _) msn numbered

end

theorem sentBlob {self : Client D} {req : Req} {m : Msg} {col : Nat} (found : self.listed.at? req.off 2 = some (m,col))
    (hex : m.text col = req.hex) :
    (retrCb self req .blob).map Prod.snd = some (some (.ok "message follows")) := by
  rw [retrCb,found]
  dsimp only
  rw [if_neg (not_not.mpr hex)]
  rfl

namespace World
variable {P C : Type} [DecidableEq P] [DecidableEq D] [DecidableEq C] {proc : D → P} {w : World P D C} {c : C} {self new : Client D}

-- A command of the session itself. PASS and APOP are refused once it is logged in.
theorem lineTurns (env : Env) (cmd : Cmd) (salt : self.salt = none)
    (still : (w.line proc env c self cmd).1.clients c = some new) : new = self ∨ ∃ act,new = turn env self act := by
  have put : ∀ {x : Client D},(w.put c (some x)).clients c = some new → new = x := by
    intro x here
    rw [putClients,if_pos rfl] at here
    exact (Option.some.inj here).symm
  cases cmd with
  | pass pass =>
    have refused : (cmdPass proc env w.shared self pass).2.1 = self := by
      unfold cmdPass
      split
      · rfl
      · rw [if_pos salt]
    exact Or.inl ((put still).trans refused)
  | apop mailbox hex =>
    have user : cmdUser env self mailbox = (self,.err "already authed") := by rw [cmdUser,if_pos salt]
    have refused : (cmdApop proc env w.shared self mailbox hex).2.1 = self := by rw [cmdApop,user]
    exact Or.inl ((put still).trans refused)
  | quit =>
    simp only [line] at still
    rw [quitOthers,if_pos rfl] at still
    cases still
  | user mailbox => exact Or.inr ⟨.line (.user mailbox),put still⟩
  | stat => exact Or.inr ⟨.line .stat,put still⟩
  | list msn => exact Or.inr ⟨.line (.list msn),put still⟩
  | uidl msn => exact Or.inr ⟨.line (.uidl msn),put still⟩
  | retr msn topNr => exact Or.inr ⟨.line (.retr msn topNr),put still⟩
  | noop => exact Or.inr ⟨.line .noop,put still⟩
  | rset => exact Or.inr ⟨.line .rset,put still⟩
  | dele msn => exact Or.inr ⟨.line (.dele msn),put still⟩
  | capa => exact Or.inr ⟨.line .capa,put still⟩

theorem fetchedTurns (env : Env) {c' : C} {out : Cat} (there : w.clients c = some self)
    (still : (w.perform proc env (.fetched c' out)).1.clients c = some new) : new = self ∨ ∃ act,new = turn env self act := by
  have idle : w.clients c = some new → new = self := fun here => Option.some.inj (here.symm.trans there)
  cases live : w.live proc c' with
  | none =>
    simp only [perform,live] at still
    exact Or.inl (idle still)
  | some client =>
    simp only [perform,live] at still
    cases queue : client.inflight with
    | nil =>
      simp only [queue] at still
      exact Or.inl (idle still)
    | cons req later =>
      simp only [queue] at still
      cases made : retrCb { client with inflight := later } req out with
      | none =>
        simp only [made] at still
        rw [closeOther] at still
        split at still
        · cases still
        · exact Or.inl (idle still)
      | some after =>
        simp only [made] at still
        rw [putClients] at still
        split at still
        · rename_i same
          subst same
          obtain rfl : client = self := Option.some.inj ((liveClient live).1.symm.trans there)
          refine Or.inr ⟨.fetched out,?_⟩
          simp only [turn,queue,made]
          exact (Option.some.inj still).symm
        · exact Or.inl (idle still)

theorem performTurns (env : Env) (e : Event P D C) (there : w.clients c = some self) (salt : self.salt = none)
    (still : (w.perform proc env e).1.clients c = some new) : new = self ∨ ∃ act,new = turn env self act := by
  have idle : w.clients c = some new → new = self := fun here => Option.some.inj (here.symm.trans there)
  cases e with
  | accept c' d salt' =>
    simp only [perform] at still
    split at still
    · rename_i free
      rw [putClients] at still
      split at still
      · rename_i same
        rw [← same,there] at free
        cases free.1
      · exact Or.inl (idle still)
    · exact Or.inl (idle still)
  | line c' cmd =>
    cases live : w.live proc c' with
    | none =>
      simp only [perform,live] at still
      exact Or.inl (idle still)
    | some client =>
      simp only [perform,live] at still
      by_cases same : c = c'
      · subst same
        obtain rfl : client = self := Option.some.inj ((liveClient live).1.symm.trans there)
        exact lineTurns env cmd salt still
      · rw [lineOther cmd same] at still
        exact Or.inl (idle still)
  | fetched c' out => exact fetchedTurns env there still
  | hangup c' =>
    cases live : w.live proc c' with
    | none =>
      simp only [perform,live] at still
      exact Or.inl (idle still)
    | some client =>
      simp only [perform,live] at still
      rw [closeOther] at still
      split at still
      · cases still
      · exact Or.inl (idle still)
  | unlock p =>
    simp only [perform] at still
    split at still <;> exact Or.inl (idle still)
  | died p => exact Or.inl (idle (Option.filter_eq_some_iff.mp still).1)

theorem runTurns (xs : List (Env × Event P D C)) (there : w.clients c = some self) (salt : self.salt = none)
    (stays : Stepwise.Along (fun w x => (perform proc w x.1 x.2).1)
      (fun w x => ((perform proc w x.1 x.2).1.clients c).isSome = true) w xs) :
    ∃ steps : List (Env × Act),(xs.foldl (fun w x => (perform proc w x.1 x.2).1) w).clients c = some (followed self steps).1 := by
  have shorter : ∀ (x : Client D × View) (steps : List (Env × Act)),
      (steps.foldl follow x).1 = steps.foldl (fun self step => turn step.1 self step.2) x.1 := by
    intro x steps
    induction steps generalizing x with
    | nil => rfl
    | cons step steps ih => exact ih _
  simp only [followed,shorter]
  induction xs generalizing w self with
  | nil => exact ⟨[],there⟩
  | cons x xs ih =>
    obtain ⟨some,rest⟩ := stays
    obtain ⟨new,still⟩ := Option.isSome_iff_exists.mp some
    rcases performTurns x.1 x.2 there salt still with rfl | ⟨act,rfl⟩
    · exact ih still salt rest
    · obtain ⟨steps,last⟩ := ih still ((turnKeeps x.1 self act).salt.trans salt) rest
      exact ⟨(x.1,act) :: steps,last⟩

end World

def secondAndThird : Env := { threeMessages with «over» := fun _ => ⟨[(2,⟨10,"b"⟩),(3,⟨10,"c"⟩)],by decide⟩ }

def deleReset : List (Env × Act) := [(threeMessages,.line (.dele (some ['1']))),(threeMessages,.line .rset)]

def deleWide : List (Env × Act) := [(threeMessages,.line (.dele (some "99999999999999999999".toList)))]

def statReset : List (Env × Act) := [(threeMessages,.line .stat),(threeMessages,.line .rset)]

-- RSET leaves {nr_dele}, and has the messages read again.
theorem resetForgets :
    (command threeMessages (followed threeListed deleReset).1 .stat).2 = some (.ok "2 30") ∧
    ¬ Shows threeMessages (followed threeListed deleReset).1
      (left (window threeMessages threeListed) (followed threeListed deleReset).2.marks) ∧
    ¬ Shows secondAndThird (followed threeListed statReset).1
      (left (window threeMessages threeListed) (followed threeListed statReset).2.marks) ∧
    (command threeMessages (followed threeListed deleWide).1 (.uidl none)).2 =
      some (.ok "unique-id listing follows\r\n1 a\r\n2 b\r\n3 \r\n.") := by
  have tracks : Tracks threeListed View.start := loggedTracks _ _ _ _ _ _ _
  refine ⟨by decide,?_,?_,by decide⟩
  · intro shows
    have after := followedTracks tracks deleReset
    exact absurd ((showsIff threeMessages after (by decide) (by decide) _).mp shows).1 (by decide)
  · intro shows
    have after := followedTracks tracks statReset
    exact absurd (((showsIff secondAndThird after (by decide) (by decide) _).mp shows).2 0 (by decide)) (by decide)

def zero : Digits := ⟨['0'],by decide⟩

def hugeNumber : Digits := ⟨"99999999999999999999".toList,by decide⟩

-- RETR 0 and DELE of a number that wraps find the last message.
theorem zeroAnswered :
    Numbered.retr.target threeMessages threeListed zero = some (⟨3,10,"c"⟩,2) ∧
      View.start.expected (window threeMessages threeListed) (Decimal.value zero.1) 2 = none ∧
      command threeMessages threeListed (Numbered.retr.cmd zero) =
        ({ cached threeMessages threeListed with inflight := [⟨-1,none,"c"⟩] },none) ∧
      (command threeMessages threeListed (Numbered.dele.cmd hugeNumber)).2 = some (.ok "") ∧
      View.start.expected (window threeMessages threeListed) (Decimal.value hugeNumber.1) 0 = none := by
  refine ⟨by decide,by decide,?_,by decide,by decide⟩
  rfl

end PublicInbox.POP3
