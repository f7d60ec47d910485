import PublicInbox.IMAP
import PublicInbox.Library.Subscript
import PublicInbox.POP3D

/-! POP3.pm: the sessions of the workers that share one `POP3D.State`. What a session may do is
told by the fields that exist: {salt} until a password was right, {txn_id} as long as it has its
maildrop locked. The text of the messages, STLS and the buffers of the socket are left out. -/
namespace PublicInbox.POP3
open POP3D
open IMAP (uidSlice uidClamp)

structure Inbox where
  newsgroup : List Char
  inboxdir : List Char
  deriving DecidableEq

structure Row where
  bytes : Nat
  blob : String
  deriving DecidableEq

/- What a step finds outside of the sessions. `apop` compares the MD5 of the salt and the
password with what the client sent, `stls` is true of a plain socket that could have TLS.
`textNumber` is what Perl and SQLite make of an oidhex that stands where a UID should. -/
structure Env where
  lookupNewsgroup : List Char → Option Inbox
  numHighwater : Inbox → Option Nat
  «over» : Inbox → IMAP.Over Row
  apop : List Char → List Char → Bool
  stls : Bool
  time : Nat
  textNumber : String → Nat := fun _ => 0

structure Limits where
  initialLimit : Option Nat
  limit : Option Nat
  deriving DecidableEq

-- {uuid}, {ibx} and {slice}, which USER sets together. {uuid} is not read again after the login.
structure Selected where
  uuid : List Char
  ibx : Inbox
  slice : Int
  deriving DecidableEq

def Selected.maildrop (s : Selected) : Maildrop := ⟨s.uuid,s.ibx.newsgroup,s.slice⟩

structure Msg where
  num : Nat
  bytes : Nat
  blob : String
  deriving DecidableEq

def Msg.text (m : Msg) : Nat → String
  | 0 => toString m.num
  | 1 => toString m.bytes
  | _ => m.blob

def Msg.number (env : Env) (m : Msg) : Nat → Nat
  | 0 => m.num
  | 1 => m.bytes
  | _ => env.textNumber m.blob

structure Cache where
  rows : List Msg
  undef : List Nat
  deriving DecidableEq

namespace Cache

def place (cache : Cache) (off : Int) (col : Nat) : Option Nat :=
  Subscript.index (3 * cache.rows.length) (Subscript.word (off * 3 + col))

def cell (cache : Cache) (i : Nat) : Option (Msg × Nat) :=
  if i ∈ cache.undef then none else cache.rows[i / 3]?.map fun m => (m,i % 3)

def at? (cache : Cache) (off : Int) (col : Nat) : Option (Msg × Nat) := (cache.place off col).bind cache.cell

end Cache

structure Req where
  off : Int
  topNr : Option Nat
  hex : String
  deriving DecidableEq

structure Client (D : Type) where
  pop3d : D
  salt : Option (List Char)
  selected : Option Selected
  limits : Option Limits
  uidmax : Option Nat
  userId : Option Nat
  txnId : Option Nat
  uidDele : Option Int
  uidBase : Option Nat
  uidMax : Option Nat
  cache : Option Cache
  totalBytes : Int
  nrDele : Nat
  txnMaxUid : Option Nat
  expire : Option (List Nat)
  inflight : List Req
  deriving DecidableEq

inductive Reply where
  | ok (text : String)
  | err (text : String)
  | inUse
  deriving DecidableEq

def Reply.render : Reply → String
  | ok "" => "+OK\r\n"
  | ok text => "+OK " ++ text ++ "\r\n"
  | err text => "-ERR " ++ text ++ "\r\n"
  | inUse => "-ERR [IN-USE] unable to lock maildrop\r\n"

/- A line of the client with the arguments its command reads. RETR and TOP are one sub, where a
second argument makes it TOP. -/
inductive Cmd where
  | user (mailbox : List Char)
  | pass (pass : List Char)
  | apop (mailbox hex : List Char)
  | stat
  | list (msn : Option (List Char))
  | uidl (msn : Option (List Char))
  | retr (msn : Option (List Char)) (topNr : Option (List Char))
  | noop
  | rset
  | dele (msn : Option (List Char))
  | capa
  | quit
  deriving DecidableEq

def numify (s : List Char) : Int :=
  match s with
  | '-' :: ds => -(Decimal.value (ds.takeWhile Char.isDigit) : Int)
  | '+' :: ds => Decimal.value (ds.takeWhile Char.isDigit)
  | ds => Decimal.value (ds.takeWhile Char.isDigit)

section
variable {D : Type}

def isHex (c : Char) : Bool := c.isDigit || (c.toLower ∈ ['a','b','c','d','e','f'])

def cutUser (mailbox : List Char) : Option (List Char × List Char) :=
  let own := fun c => isHex c || c == '-'
  match mailbox.takeWhile own,mailbox.dropWhile own with
  | user@(_ :: _),'@' :: rest => some (user,rest)
  | _,_ => none

def limitArg (name arg : List Char) : Option Nat :=
  match (arg.dropPrefix? (name ++ ['='])) with
  | some ds => if ds ≠ [] ∧ ds.all Char.isDigit then some (Decimal.value ds) else none
  | none => none

def limitArgs (query : List Char) : Limits :=
  (query.splitOn '&').foldl (fun l arg =>
    ⟨limitArg "initial_limit".toList arg <|> l.initialLimit,limitArg "limit".toList arg <|> l.limit⟩) ⟨none,none⟩

def cutSlice (mailbox : List Char) : List Char × Option Nat :=
  let ds := mailbox.reverse.takeWhile Char.isDigit
  match mailbox.reverse.dropWhile Char.isDigit with
  | '.' :: front => if ds = [] then (mailbox,none) else (front.reverse,some (Decimal.value ds.reverse))
  | _ => (mailbox,none)

def cmdUser (env : Env) (self : Client D) (mailbox : List Char) : Client D × Reply :=
  if self.salt = none then (self,.err "already authed")
  else match cutUser mailbox with
  | none => (self,.err "no UUID@ in mailbox name")
  | some (user,mailbox) =>
    let user := user.filter (· ≠ '-')
    if user.length ≠ 32 then (self,.err "user has no UUID")
    else
      let query := (mailbox.dropWhile (· ≠ '?')).drop 1
      let self := if '?' ∈ mailbox then { self with limits := some (limitArgs query) } else self
      let (mailbox,slice) := cutSlice (mailbox.takeWhile (· ≠ '?'))
      match env.lookupNewsgroup mailbox with
      | none => (self,.err (String.ofList mailbox ++ " does not exist"))
      | some ibx =>
        let uidmax := (env.numHighwater ibx).getD 0
        let self := { self with uidmax := some uidmax }
        let uuid := user.map Char.toLower
        let selected := fun (shown : String) => Reply.ok (String.ofList ibx.newsgroup ++ " slice=" ++ shown ++ " selected")
        match slice with
        | some n =>
          if uidmax / uidSlice < n then
            (self,.err (String.ofList mailbox ++ "." ++ toString n ++ " does not exist (" ++
              String.ofList mailbox ++ "." ++ toString (uidmax / uidSlice) ++ " does)"))
          else ({ self with selected := some ⟨uuid,ibx,n⟩ },selected (toString n))
        | none => ({ self with selected := some ⟨uuid,ibx,-1⟩ },selected "(latest)")

def uidBaseOf (slice : Int) (uidmax : Nat) (l : Option Nat) : Nat :=
  if 0 ≤ slice then
    let slice := slice.toNat
    let max := if uidmax / uidSlice = slice then uidmax % uidSlice else uidSlice
    slice * uidSlice + match l with
      | some l => max - l
      | none => 0
  else uidmax - l.getD 1000

def limitOf (limits : Option Limits) (uidDele : Option Int) : Option Nat :=
  match uidDele with
  | some _ => limits.bind Limits.limit
  | none => limits.bind Limits.initialLimit <|> limits.bind Limits.limit

section
variable {P : Type} [DecidableEq P] [DecidableEq D] (proc : D → P)

def loginOk (env : Env) (shared : Shared P D) (self : Client D) (named : Selected) :
    Shared P D × Client D × Reply :=
  let self := { self with salt := none }
  let (shared,uidDele,locked) :=
    shared.lockMailbox (proc self.pop3d) self.pop3d env.time named.maildrop
  let self := { self with uidDele := uidDele <|> self.uidDele }
  match locked with
  | none => (shared,self,.inUse)
  | some (userId,txnId) =>
    (shared,{ self with
      userId := some userId
      txnId := some txnId
      limits := none
      uidmax := none
      uidBase := some (uidBaseOf named.slice (self.uidmax.getD 0) (limitOf self.limits self.uidDele))
      uidMax := some (env.over named.ibx).max },.ok "logged in")

def cmdPass (env : Env) (shared : Shared P D) (self : Client D) (pass : List Char) :
    Shared P D × Client D × Reply :=
  match self.selected with
  | none => (shared,self,.err "mailbox unspecified")
  | some named =>
    if self.salt = none then (shared,self,.err "already authed")
    else if pass = "anonymous".toList then loginOk proc env shared self named
    else (shared,self,.err "password is not `anonymous'")

def cmdApop (env : Env) (shared : Shared P D) (self : Client D) (mailbox hex : List Char) :
    Shared P D × Client D × Reply :=
  match cmdUser env self mailbox with
  | (self,.ok _) => match self.selected,self.salt with
    | some named,some salt =>
      if env.apop salt hex then loginOk proc env shared self named
      else (shared,self,.err "APOP password mismatch")
    | _,_ => (shared,self,.err "program fault - command not performed")
  | (self,reply) => (shared,self,reply)

end

def needTxn (self : Client D) : Option Reply := self.salt.map fun _ => .err "not in TRANSACTION"

def statCache (env : Env) (self : Client D) : Client D :=
  let rows : List (Nat × Row) := match self.selected,self.uidMax with
    | some named,some uidMax =>
      let (beg,fin) := uidClamp (self.uidBase.getD 0) (self.uidDele.getD (-1) + 1).toNat uidMax
      (env.over named.ibx).rows.filter (fun r => beg ≤ r.1 ∧ r.1 ≤ fin)
    | _,_ => []
  { self with
    totalBytes := (rows.map (fun r => (r.2.bytes : Int))).sum
    cache := some ⟨rows.map fun r => ⟨r.1,r.2.bytes,r.2.blob⟩,[]⟩ }

def cached (env : Env) (self : Client D) : Client D := if self.cache = none then statCache env self else self

def Client.listed (self : Client D) : Cache := self.cache.getD ⟨[],[]⟩

def cmdStat (self : Client D) : Reply :=
  .ok (toString ((self.listed.rows.length : Int) - self.nrDele) ++ " " ++ toString self.totalBytes)

def listHead (desc : String) : String := desc ++ " listing follows\r\n"

def Cache.line (cache : Cache) (col i : Nat) (m : Msg) : String :=
  if 3 * i ∈ cache.undef then ""
  else toString (i + 1) ++ " " ++ (if 3 * i + col ∈ cache.undef then "" else m.text col) ++ "\r\n"

def listing (desc : String) (col : Nat) (self : Client D) : Option (List Char) → Reply
  | some msn => match self.listed.at? (numify msn - 1) col with
    | some (m,col) => .ok (listHead desc ++ String.ofList msn ++ " " ++ m.text col ++ "\r\n.")
    | none => .err "no such message"
  | none => .ok (listHead desc ++ "".intercalate (self.listed.rows.mapIdx (self.listed.line col)) ++ ".")

/- An index that wraps makes a UID of an oidhex, which {txn_max_uid} and the row keep as the text. -/
def markDele (env : Env) (self : Client D) (off : Nat) : Client D × Bool :=
  match self.listed.at? off 0 with
  | none => (self,false)
  | some (m,col) =>
    let uid := m.number env col
    ({ self with
      txnMaxUid := some (Nat.max uid (self.txnMaxUid.getD uid))
      totalBytes := self.totalBytes - ((self.listed.at? off 1).elim 0 fun (m,col) => m.number env col : Nat)
      cache := some { self.listed with undef := self.listed.undef ++ [0,1,2].filterMap (self.listed.place off) }
      nrDele := self.nrDele + 1 },true)

def isMsn (s : List Char) : Bool := s.all Char.isDigit && s.head?.any (· ≠ '0')

def cmdDele (env : Env) (self : Client D) (msn : Option (List Char)) : Client D × Reply :=
  let msn := msn.getD []
  if isMsn msn then
    let (self,marked) := markDele env self (Decimal.value msn - 1)
    (self,if marked then .ok "" else .err "no such message")
  else (self,.err "no such message")

def cmdRetr (self : Client D) (msn topNr : Option (List Char)) : Client D × Option Reply :=
  let off := numify (msn.getD []) - 1
  match self.listed.at? off 2 with
  | none => (self,some (.err "no such message"))
  | some (m,col) => ({ self with inflight := self.inflight ++ [⟨off,topNr.map Decimal.value,m.text col⟩] },none)

inductive Cat where
  | aborted
  | missing
  | blob
  deriving DecidableEq

def packS (off : Int) : Nat := if off.toNat < 2 ^ 64 then (off % 65536).toNat else 65535

def retrCb (self : Client D) (req : Req) (out : Cat) : Option (Client D × Option Reply) :=
  match self.listed.at? req.off 2 with
  -- BUG: no hex. The lookup leaves an empty {cache}.
  | none => some ({ self with cache := some self.listed },none)
  | some (m,col) => match out with
    | .aborted => none
    | .missing => some (self,some (.err "no such message"))
    | .blob =>
      if m.text col ≠ req.hex then none
      else
        let expire := if req.topNr = none then self.expire.map (· ++ [packS req.off]) else self.expire
        some ({ self with expire := expire },some (.ok "message follows"))

def cmdCapa (env : Env) (self : Client D) : Client D × Reply :=
  let stls := if self.selected = none ∧ env.stls then "\nSTLS\r" else ""
  ({ self with expire := some [] },
    .ok ("Capability list follows\r\nTOP\r\nUSER\r\nPIPELINING\r\nUIDL\r\nEXPIRE 0\r\nRESP-CODES\r" ++ stls ++ "\n."))

def Cmd.guarded : Cmd → Bool
  | stat | list _ | uidl _ | retr _ _ | rset | dele _ => true
  | _ => false

def served (env : Env) (self : Client D) : Cmd → Client D × Option Reply
  | .stat => (cached env self,some (cmdStat (cached env self)))
  | .list msn => (cached env self,some (listing "scan" 1 (cached env self) msn))
  | .uidl msn => (cached env self,some (listing "unique-id" 2 (cached env self) msn))
  | .retr msn topNr => cmdRetr (cached env self) msn topNr
  | .rset => ({ self with cache := none, txnMaxUid := none },some (.ok ""))
  | .dele msn =>
    let (self,reply) := cmdDele env (cached env self) msn
    (self,some reply)
  | _ => (self,none)

def command (env : Env) (self : Client D) (cmd : Cmd) : Client D × Option Reply :=
  match cmd with
  | .user mailbox =>
    let (self,reply) := cmdUser env self mailbox
    (self,some reply)
  | .noop => (self,some (.ok ""))
  | .capa =>
    let (self,reply) := cmdCapa env self
    (self,some reply)
  | .retr _ (some lines) =>
    if lines = [] ∨ lines.any (fun c => !c.isDigit) then (self,some (.err "lines must be a non-negative number"))
    else match needTxn self with
      | some err => (self,some err)
      | none => served env self cmd
  | _ => match needTxn self with
    | some err => (self,some err)
    | none => served env self cmd

def expired (env : Env) (self : Client D) : Client D :=
  (self.expire.getD []).foldl (fun self off => (markDele env self off).1) { self with expire := none }

def raise (max : Nat) (r : Delete) : Delete := if r.uidDele < max then { r with uidDele := max } else r

theorem raiseOwner (max : Nat) (r : Delete) : (raise max r).owner = r.owner := by
  unfold raise
  split <;> rfl

def quitState (env : Env) (state : State) (self : Client D) (userId txnId : Nat) : State :=
  let (state,keep) := match self.txnMaxUid with
    | some max => ({ state with deletes := state.deletes.update txnId (raise max) (raiseOwner max) },true)
    | none =>
      let (state,nr) := state.cleanup userId txnId
      (state,nr ≠ 0)
  if keep then
    { state with users := state.users.update userId (fun u => { u with lastSeen := env.time }) (fun _ => rfl) }
  else state

end

/- The shared files, the sessions, and for a process that is between the transaction and the
unlocking of unlock_mailbox the POP3D and the txn_id to unlock. -/
structure World (P D C : Type) where
  shared : Shared P D
  clients : C → Option (Client D)
  unlocking : P → Option (D × Nat)

inductive Event (P D C : Type) where
  | accept (c : C) (d : D) (salt : List Char)
  | line (c : C) (cmd : Cmd)
  | fetched (c : C) (out : Cat)
  | hangup (c : C)
  | unlock (p : P)
  | died (p : P)
  deriving DecidableEq

def Event.session {P D C : Type} : Event P D C → Option C
  | .line c _ => some c
  | _ => none

namespace World
variable {P D C : Type} [DecidableEq P] [DecidableEq D] [DecidableEq C]

def start : World P D C := ⟨⟨.empty,fun _ => none,fun _ => []⟩,fun _ => none,fun _ => none⟩

def put (w : World P D C) (c : C) (self : Option (Client D)) : World P D C :=
  { w with clients := Function.update w.clients c self }

variable (proc : D → P)

def live (w : World P D C) (c : C) : Option (Client D) :=
  (w.clients c).filter fun self => w.unlocking (proc self.pop3d) = none

def close (w : World P D C) (c : C) (self : Client D) : World P D C :=
  match self.userId,self.txnId with
  | some userId,some txnId =>
    { w.put c none with
      shared := { w.shared with state := (w.shared.state.cleanup userId txnId).1 }
      unlocking := Function.update w.unlocking (proc self.pop3d) (some (self.pop3d,txnId)) }
  | _,_ => w.put c none

def quit (w : World P D C) (env : Env) (c : C) (self : Client D) : World P D C :=
  match self.userId,self.txnId with
  | some userId,some txnId =>
    let shared := { w.shared with state := quitState env w.shared.state (expired env self) userId txnId }
    { w.put c none with shared := shared.unlock (proc self.pop3d) self.pop3d txnId }
  | _,_ => w.put c none

def line (w : World P D C) (env : Env) (c : C) (self : Client D) : Cmd → World P D C × Option Reply
  | .pass pass =>
    let (shared,self,reply) := cmdPass proc env w.shared self pass
    ({ w.put c (some self) with shared := shared },some reply)
  | .apop mailbox hex =>
    let (shared,self,reply) := cmdApop proc env w.shared self mailbox hex
    ({ w.put c (some self) with shared := shared },some reply)
  | .quit => (w.quit proc env c self,some (.ok "public-inbox POP3 server signing off"))
  | cmd =>
    let (self,reply) := command env self cmd
    (w.put c (some self),reply)

def fresh (d : D) (salt : List Char) : Client D where
  pop3d := d
  salt := some salt
  selected := none
  limits := none
  uidmax := none
  userId := none
  txnId := none
  uidDele := none
  uidBase := none
  uidMax := none
  cache := none
  totalBytes := 0
  nrDele := 0
  txnMaxUid := none
  expire := none
  inflight := []

def die (w : World P D C) (p : P) : World P D C where
  shared :=
    { w.shared with
      fcntl := fun start => if w.shared.fcntl start = some p then none else w.shared.fcntl start
      txnLocks := fun d => if proc d = p then [] else w.shared.txnLocks d }
  clients := fun c => (w.clients c).filter fun self => proc self.pop3d ≠ p
  unlocking := Function.update w.unlocking p none

def perform (w : World P D C) (env : Env) : Event P D C → World P D C × Option Reply
  | .accept c d salt =>
    if w.clients c = none ∧ w.unlocking (proc d) = none then
      (w.put c (some (fresh d salt)),some (.ok ("POP3 server ready <" ++ String.ofList salt ++ "@public-inbox>")))
    else (w,none)
  | .line c cmd => match w.live proc c with
    | some self => w.line proc env c self cmd
    | none => (w,none)
  | .fetched c out => match w.live proc c with
    | some self => match self.inflight with
      | req :: later => match retrCb { self with inflight := later } req out with
        | some (self,reply) => (w.put c (some self),reply)
        | none => (w.close proc c self,none)
      | [] => (w,none)
    | none => (w,none)
  | .hangup c => match w.live proc c with
    | some self => (w.close proc c self,none)
    | none => (w,none)
  | .unlock p => match w.unlocking p with
    | some (d,txnId) =>
      ({ w with
        shared := w.shared.unlock p d txnId
        unlocking := Function.update w.unlocking p none },none)
    | none => (w,none)
  | .died p => (w.die proc p,none)

end World

end PublicInbox.POP3
