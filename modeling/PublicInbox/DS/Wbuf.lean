import Mathlib.Data.List.Infix

/-! DS.pm: what a connection has to write and what the kernel has taken of it. Each system call is answered
by the kernel: it takes any part, asks to wait or fails. Code references are given as the calls that they make. -/
namespace PublicInbox.DS.Wbuf

abbrev Bytes := List UInt8

/- A call takes n + 1 bytes or as many as there are, EAGAIN (with a bit to wait for, from TLS), or is an error. -/
inductive Answer where
  | takes (n : Nat)
  | again (bit : Bool)
  | error
  deriving DecidableEq

structure Tmpio where
  left : Bytes
  len : Option Nat

def Tmpio.pending (t : Tmpio) : Bytes := match t.len with
  | none => t.left
  | some n => t.left.take n

/- The calls of the code above this one: write with a scalar or a CODE, the push of requeue_once and that of
WwwStatic (which gives a length), msg_more, writev and close -/
inductive Call where
  | write (data : Bytes)
  | code (body : List Call)
  | push (body : List Call)
  | pushIo (left : Bytes) (len : Nat)
  | msgMore (tip : Bytes) (rest : List Bytes)
  | writev (tip : Bytes) (rest : List Bytes)
  | close

inductive Item where
  | sendIo (tmpio : Tmpio)
  | code (body : List Call)
  | acceptTlsStep
  | shutdnTlsStep

/- {sock} and {wbuf}; beside them the bytes that the socket has taken and all that was to be written, in the
order of the calls, and how many answers the kernel gave -/
structure Conn where
  sock : Bool
  wbuf : List Item
  sent : Bytes
  log : Bytes
  clock : Nat

structure Host where
  kernel : Nat → Answer
  sendmsgMore : Bool
  writev : Bool
  tls : Bool

variable (host : Host)

def answer (c : Conn) : Answer := host.kernel c.clock

def tick (c : Conn) : Conn := { c with clock := c.clock + 1 }

def dsClose (c : Conn) : Conn := if c.sock then { c with sock := false, wbuf := [] } else c

def shutdnTlsStep (c : Conn) : Conn :=
  if ¬c.sock then c
  else match answer host c with
    | .again true => { tick c with wbuf := [.shutdnTlsStep] }
    | _ => dsClose (tick c)

def close (c : Conn) : Conn :=
  if ¬c.sock then c
  else if host.tls then shutdnTlsStep host c
  else dsClose c

/- `return $self->close`: the value is true where there was a socket, be it that of ep_del or of the assignment in
shutdn_tls_step. -/
def closed (c : Conn) : Bool × Conn := (c.sock,close host c)

def acceptTlsStep (c : Conn) : Conn :=
  if ¬c.sock then c
  else match answer host c with
    | .takes _ => tick c
    | .again true => { tick c with wbuf := .acceptTlsStep :: c.wbuf }
    | _ => close host (tick c)

def tmpio (data : Bytes) (rest : List Bytes) (c : Conn) : Option Tmpio × Conn :=
  match answer host c with
  | .takes _ =>
    match answer host (tick c) with
    | .takes n =>
      if n + 1 < data.length then (none,close host (tick (tick c)))
      else if rest = [] then (some ⟨data,none⟩,tick (tick c))
      else match answer host (tick (tick c)) with
        | .takes _ => (some ⟨data ++ rest.flatten,none⟩,tick (tick (tick c)))
        | _ => (none,close host (tick (tick (tick c))))
    | _ => (none,close host (tick (tick c)))
  | _ => (none,close host (tick c))

def buffer (data : Bytes) (rest : List Bytes) (c : Conn) : Conn :=
  match tmpio host data rest c with
  | (some t,c) => { c with wbuf := c.wbuf ++ [.sendIo t] }
  | (none,c) => c

def give (data : Bytes) (n : Nat) (c : Conn) : Conn := { tick c with sent := c.sent ++ data.take (n + 1) }

def stuck (bit : Bool) : Bool := host.tls && !bit

def behind (data : Bytes) (c : Conn) : Conn :=
  match c.wbuf.getLast? with
  | some (.sendIo ⟨left,none⟩) =>
    match answer host c with
    | .takes _ => { tick c with wbuf := c.wbuf.dropLast ++ [.sendIo ⟨left ++ data,none⟩] }
    | _ => close host (tick c)
  | _ => buffer host data [] c

def writeData (data : Bytes) (c : Conn) : Bool × Conn :=
  let c := { c with log := c.log ++ data }
  if ¬c.sock then (true,c)
  else if c.wbuf ≠ [] then (false,behind host data c)
  else match answer host c with
    | .takes n => if data.length ≤ n + 1 then (true,give data n c) else (false,buffer host (data.drop (n + 1)) [] (give data n c))
    | .again bit => if stuck host bit then closed host (tick c) else (false,buffer host data [] (tick c))
    | .error => closed host (tick c)

def unwritten : Nat → List Bytes → Option (Bytes × List Bytes)
  | _,[] => none
  | s,tip :: rest => if tip.length ≤ s then unwritten (s - tip.length) rest else some (tip.drop s,rest)

def iovWrite (tip : Bytes) (rest : List Bytes) (c : Conn) : Bool × Conn :=
  let data := (tip :: rest).flatten
  let c := { c with log := c.log ++ data }
  match answer host c with
  | .takes n =>
    if data.length ≤ n + 1 then (true,give data n c)
    else match unwritten (n + 1) (tip :: rest) with
      | some (tip,rest) => (false,buffer host tip rest (give data n c))
      | none => (false,close host (give data n c))
  | .again _ => (false,buffer host tip rest (tick c))
  | .error => closed host (tick c)

def iov (there : Bool) (tip : Bytes) (rest : List Bytes) (c : Conn) : Bool × Conn :=
  if c.sock && there && c.wbuf.isEmpty && !host.tls then iovWrite host tip rest c
  else writeData host (tip :: rest).flatten c

mutual
def call : Call → Conn → Conn
  | .write data,c => (writeData host data c).2
  | .code body,c => if ¬c.sock then c else if c.wbuf.isEmpty then calls body c else { c with wbuf := c.wbuf ++ [.code body] }
  | .push body,c => { c with wbuf := c.wbuf ++ [.code body] }
  | .pushIo left len,c => { c with log := c.log ++ left.take len, wbuf := c.wbuf ++ [.sendIo ⟨left,some len⟩] }
  | .msgMore tip rest,c => (iov host host.sendmsgMore tip rest c).2
  | .writev tip rest,c => (iov host host.writev tip rest c).2
  | .close,c => close host c

def calls : List Call → Conn → Conn
  | [],c => c
  | one :: more,c => calls more (call one c)
end

inductive Ending where
  | done
  | again
  | failed

def writes (buf : Bytes) (c : Conn) : Bytes × Ending × Conn :=
  match answer host c with
  | .takes n => if buf.length ≤ n + 1 then ([],.done,give buf n c) else writes (buf.drop (n + 1)) (give buf n c)
  | .again bit => (buf,if stuck host bit then .failed else .again,tick c)
  | .error => (buf,.failed,tick c)
termination_by buf.length
decreasing_by simp only [List.length_drop]; omega

def Tmpio.past (t : Tmpio) (off : Nat) : Tmpio := ⟨t.left.drop off,t.len.map (· - off)⟩

def sendIo (t : Tmpio) (c : Conn) : Conn :=
  let n := min (t.len.getD 65536) 65536
  if n = 0 then c
  else match answer host c with
    | .takes k =>
      match _taken : t.left.take (min n (k + 1)) with
      | [] => if t.len.isSome then close host (tick c) else tick c
      | b :: buf =>
        match writes host (b :: buf) (tick c) with
        | (_,.done,c) => sendIo (t.past (b :: buf).length) c
        | (unsent,.again,c) => { c with wbuf := .sendIo (t.past ((b :: buf).length - unsent.length)) :: c.wbuf }
        | (_,.failed,c) => close host c
    | _ => close host (tick c)
termination_by t.left.length
decreasing_by
  have := congrArg List.length _taken
  simp only [Tmpio.past,List.length_drop,List.length_take,List.length_cons] at this ⊢
  omega

def sendIoFrom (t : Tmpio) (c : Conn) : Conn :=
  if ¬c.sock then c
  else match answer host c with
    | .takes _ => sendIo host t (tick c)
    | _ => close host (tick c)

def runItem (item : Item) (c : Conn) : Conn :=
  match item with
  | .sendIo t => sendIoFrom host t c
  | .code body => calls host body c
  | .acceptTlsStep => acceptTlsStep host c
  | .shutdnTlsStep => shutdnTlsStep host c

def flushes (c : Conn) : Bool × Conn :=
  match _queued : c.wbuf with
  | [] => (true,c)
  | item :: rest =>
    let after := runItem host item { c with wbuf := rest }
    if _longer : rest.length < after.wbuf.length then (false,after)
    else if ¬after.sock then (false,after)
    else flushes after
termination_by c.wbuf.length
decreasing_by exact _queued ▸ Nat.lt_succ_of_le (Nat.le_of_not_lt _longer)

def flushWrite (c : Conn) : Bool × Conn := if c.sock then flushes host c else (false,c)

inductive Event where
  | call (one : Call)
  | flush

def step (c : Conn) : Event → Conn
  | .call one => call host one c
  | .flush => (flushWrite host c).2

/- A new connection: accept_tls_step is first where TLS is not done, then do_greet of the clients that are greeted -/
def connected (tls : Bool) (greet : Option (List Call)) : Conn :=
  ⟨true,(if tls then [.acceptTlsStep] else []) ++ (greet.map Item.code).toList,[],[],0⟩

def run (tls : Bool) (greet : Option (List Call)) (events : List Event) : Conn := events.foldl (step host) (connected tls greet)

/-! What is buffered and what was taken, in this order, is all that was to be written. -/

def Item.pending : Item → Bytes
  | .sendIo t => t.pending
  | _ => []

def pending (wbuf : List Item) : Bytes := wbuf.flatMap Item.pending

inductive Sound (extra : Bytes) (c : Conn) : Prop where
  | live (sock : c.sock = true) (stays : .shutdnTlsStep ∉ c.wbuf) (all : c.log = c.sent ++ pending c.wbuf ++ extra)
  | closing (sock : c.sock = true) (ends : c.wbuf.head? = some .shutdnTlsStep) (part : c.sent <+: c.log)
  | closed (sock : c.sock = false) (part : c.sent <+: c.log)

theorem pendingAppend (wbuf more : List Item) : pending (wbuf ++ more) = pending wbuf ++ pending more := List.flatMap_append

theorem pendingFile (data : Bytes) : pending [.sendIo ⟨data,none⟩] = data := List.append_nil data

section
variable {host : Host} {extra : Bytes} {c : Conn}

theorem Sound.part (sound : Sound extra c) : c.sent <+: c.log := by
  cases sound with
  | live _ _ all => exact ⟨pending c.wbuf ++ extra,by rw [all,List.append_assoc]⟩
  | closing _ _ part => exact part
  | closed _ part => exact part

theorem Sound.tick (sound : Sound extra c) : Sound extra (tick c) := by
  cases sound with
  | live sock stays all => exact .live sock stays all
  | closing sock ends part => exact .closing sock ends part
  | closed sock part => exact .closed sock part

theorem Sound.logged {data : Bytes} (sound : Sound [] c) : Sound data { c with log := c.log ++ data } := by
  cases sound with
  | live sock stays all => exact .live sock stays (by rw [all,List.append_nil])
  | closing sock ends part => exact .closing sock ends (part.trans (List.prefix_append _ _))
  | closed sock part => exact .closed sock (part.trans (List.prefix_append _ _))

theorem dsCloseSound (part : c.sent <+: c.log) : Sound extra (dsClose c) := by
  rw [dsClose]
  split
  · exact .closed rfl part
  · rename_i gone
    exact .closed (Bool.eq_false_iff.mpr gone) part

theorem shutdnSound (part : c.sent <+: c.log) : Sound extra (shutdnTlsStep host c) := by
  rw [shutdnTlsStep]
  split
  · rename_i gone
    exact .closed (Bool.eq_false_iff.mpr gone) part
  · rename_i sock
    split
    · exact .closing (not_not.mp sock) rfl part
    · exact dsCloseSound (c := Wbuf.tick c) part

theorem closeSound (part : c.sent <+: c.log) : Sound extra (close host c) := by
  rw [close]
  split
  · rename_i gone
    exact .closed (Bool.eq_false_iff.mpr gone) part
  · split
    · exact shutdnSound part
    · exact dsCloseSound part

theorem tmpioCases (data : Bytes) (rest : List Bytes) (c : Conn) :
    ∃ clock,tmpio host data rest c = (some ⟨data ++ rest.flatten,none⟩,{ c with clock := clock }) ∨
      tmpio host data rest c = (none,close host { c with clock := clock }) := by
  rw [tmpio]
  split
  · split
    · split
      · exact ⟨_,.inr rfl⟩
      · split
        · rename_i nil
          exact ⟨_,.inl (by rw [nil,List.flatten_nil,List.append_nil]; rfl)⟩
        · split
          · exact ⟨_,.inl rfl⟩
          · exact ⟨_,.inr rfl⟩
    · exact ⟨_,.inr rfl⟩
  · exact ⟨_,.inr rfl⟩

theorem Sound.behind {item : Item} (sound : Sound item.pending c) (other : item ≠ .shutdnTlsStep) :
    Sound [] { c with wbuf := c.wbuf ++ [item] } := by
  cases sound with
  | live sock stays all =>
    refine .live sock ?_ ?_
    · rw [List.mem_append,List.mem_singleton]
      exact fun mem => mem.elim stays other.symm
    · rw [all,pendingAppend,List.append_nil,List.append_assoc]
      exact congrArg (fun bytes => c.sent ++ (pending c.wbuf ++ bytes)) (List.append_nil _).symm
  | closing sock ends part =>
    refine .closing sock ?_ part
    rw [List.head?_append,ends]
    rfl
  | closed sock part => exact .closed sock part

theorem bufferSound {data : Bytes} {rest : List Bytes} (sound : Sound (data ++ rest.flatten) c) : Sound [] (buffer host data rest c) := by
  obtain ⟨clock,made | failed⟩ := @tmpioCases host data rest c
  · simp only [buffer,made]
    refine @Sound.behind { c with clock := clock } (.sendIo ⟨data ++ rest.flatten,none⟩) ?_ (fun same => nomatch same)
    cases sound with
    | live sock stays all => exact .live sock stays all
    | closing sock ends part => exact .closing sock ends part
    | closed sock part => exact .closed sock part
  · simp only [buffer,failed]
    exact closeSound (c := { c with clock := clock }) sound.part

theorem behindSound {data : Bytes} (sound : Sound data c) : Sound [] (behind host data c) := by
  rw [behind]
  split
  · rename_i left last
    split
    · obtain ⟨front,wbuf⟩ := List.getLast?_eq_some_iff.mp last
      simp only [wbuf,List.dropLast_concat,tick]
      cases sound with
      | live sock stays all =>
        rw [wbuf] at stays all
        refine .live sock ?_ ?_
        · rw [List.mem_append,List.mem_singleton] at stays ⊢
          exact fun mem => mem.elim (stays ∘ .inl) (fun same => nomatch same)
        · rw [pendingAppend,pendingFile] at all ⊢
          rw [all,List.append_nil]
          simp only [List.append_assoc]
      | closing sock ends part =>
        rw [wbuf] at ends
        refine .closing sock ?_ part
        cases front with
        | nil => cases ends
        | cons item front => exact ends
      | closed sock part => exact .closed sock part
    · exact closeSound (c := tick c) sound.part
  · exact bufferSound (by rwa [List.flatten_nil,List.append_nil])

theorem giveSound {data more : Bytes} {n : Nat} (sock : c.sock = true) (empty : c.wbuf = []) (all : c.log = c.sent ++ data)
    (rest : data = data.take (n + 1) ++ more) : Sound more (give data n c) := by
  refine .live sock (by rw [give,tick,empty]; exact List.not_mem_nil) ?_
  have none : pending (give data n c).wbuf = [] := by rw [give,tick,empty]; rfl
  rw [none,List.append_nil]
  exact all.trans ((congrArg (c.sent ++ ·) rest).trans (List.append_assoc _ _ _).symm)

theorem takenAll {data : Bytes} {n : Nat} (fits : data.length ≤ n + 1) : data = data.take (n + 1) ++ [] := by
  rw [List.take_of_length_le fits,List.append_nil]

theorem takenPart (data : Bytes) (n : Nat) : data = data.take (n + 1) ++ (data.drop (n + 1) ++ [].flatten) := by
  rw [List.flatten_nil,List.append_nil,List.take_append_drop]

theorem Sound.straight {data : Bytes} (sound : Sound data c) (sock : c.sock = true) (empty : c.wbuf = []) : c.log = c.sent ++ data := by
  cases sound with
  | live _ _ all => rwa [empty,show pending [] = [] from rfl,List.append_nil] at all
  | closing _ ends _ => rw [empty] at ends; cases ends
  | closed gone _ => exact absurd (sock.symm.trans gone) Bool.noConfusion

theorem writeDataSound {data : Bytes} (sound : Sound [] c) : Sound [] (writeData host data c).2 := by
  have logged := @Sound.logged c data sound
  rw [writeData]
  dsimp only
  split
  · rename_i gone
    exact .closed (Bool.eq_false_iff.mpr gone) logged.part
  · rename_i sock
    split
    · exact behindSound logged
    · rename_i empty
      have sock := not_not.mp sock
      have empty := not_not.mp empty
      have all := logged.straight sock empty
      split
      · split
        · rename_i fits
          exact giveSound sock empty all (takenAll fits)
        · exact bufferSound (giveSound sock empty all (takenPart data _))
      · split
        · exact closeSound logged.tick.part
        · exact bufferSound (by rw [List.flatten_nil,List.append_nil]; exact logged.tick)
      · exact closeSound logged.tick.part

theorem unwrittenDrop {parts : List Bytes} {s : Nat} (short : s < parts.flatten.length) :
    ∃ tip rest,unwritten s parts = some (tip,rest) ∧ parts.flatten.drop s = tip ++ rest.flatten := by
  induction parts generalizing s with
  | nil => cases short
  | cons tip rest ih =>
    rw [List.flatten_cons,List.length_append] at short
    rw [unwritten,List.flatten_cons]
    split
    · rename_i full
      obtain ⟨part,more,found,same⟩ := ih (s := s - tip.length) (by omega)
      exact ⟨part,more,found,by rw [← same,List.drop_append,List.drop_eq_nil_of_le full,List.nil_append]⟩
    · rename_i part
      exact ⟨_,_,rfl,by rw [List.drop_append_of_le_length (by omega)]⟩

theorem iovWriteSound {tip : Bytes} {rest : List Bytes} (sound : Sound [] c) (sock : c.sock = true) (empty : c.wbuf = []) :
    Sound [] (iovWrite host tip rest c).2 := by
  have logged := @Sound.logged c (tip :: rest).flatten sound
  have all := logged.straight sock empty
  rw [iovWrite]
  split
  · rename_i n _
    split
    · rename_i fits
      exact giveSound sock empty all (takenAll fits)
    · rename_i short
      obtain ⟨part,more,found,same⟩ := @unwrittenDrop (tip :: rest) (n + 1) (by omega)
      rw [found]
      refine bufferSound (giveSound sock empty all ?_)
      rw [← same,List.take_append_drop]
  · exact bufferSound logged.tick
  · exact closeSound logged.tick.part

theorem iovSound {there : Bool} {tip : Bytes} {rest : List Bytes} (sound : Sound [] c) : Sound [] (iov host there tip rest c).2 := by
  rw [iov]
  split
  · rename_i direct
    simp only [Bool.and_eq_true,List.isEmpty_iff] at direct
    exact iovWriteSound sound direct.1.1.1 direct.1.2
  · exact writeDataSound sound

end

mutual
theorem callSound {host : Host} : ∀ (one : Call) {c : Conn},Sound [] c → Sound [] (call host one c)
  | .write _,_,sound => by rw [call]; exact writeDataSound sound
  | .code body,c,sound => by
    rw [call]
    split
    · exact sound
    · split
      · exact callsSound body sound
      · exact @Sound.behind c (.code body) sound (fun same => nomatch same)
  | .push body,c,sound => by rw [call]; exact @Sound.behind c (.code body) sound (fun same => nomatch same)
  | .pushIo left len,c,sound => by
    rw [call]
    exact @Sound.behind { c with log := c.log ++ left.take len } (.sendIo ⟨left,some len⟩) sound.logged (fun same => nomatch same)
  | .msgMore _ _,_,sound => by rw [call]; exact iovSound sound
  | .writev _ _,_,sound => by rw [call]; exact iovSound sound
  | .close,_,sound => by rw [call]; exact closeSound sound.part

theorem callsSound {host : Host} : ∀ (body : List Call) {c : Conn},Sound [] c → Sound [] (calls host body c)
  | [],_,sound => by rw [calls]; exact sound
  | one :: more,_,sound => by rw [calls]; exact callsSound more (callSound one sound)
end

section
variable {host : Host} {c : Conn}

theorem writesGive (buf : Bytes) (c : Conn) :
    ∃ took clock,buf = took ++ (writes host buf c).1 ∧ (writes host buf c).2.2 = { c with sent := c.sent ++ took, clock := clock } ∧
      ((writes host buf c).2.1 = .done → (writes host buf c).1 = []) := by
  fun_induction writes host buf c with
  | case1 buf c n _ fits =>
    exact ⟨buf,_,(List.append_nil _).symm,by rw [give,tick,List.take_of_length_le fits],fun _ => rfl⟩
  | case2 buf c n _ _ ih =>
    obtain ⟨took,clock,split,state,done⟩ := ih
    refine ⟨buf.take (n + 1) ++ took,clock,?_,?_,done⟩
    · rw [List.append_assoc,← split,List.take_append_drop]
    · rw [state,give,tick,List.append_assoc]
  | case3 buf c bit _ => exact ⟨[],_,rfl,by rw [List.append_nil]; rfl,fun done => by split at done <;> cases done⟩
  | case4 buf c _ => exact ⟨[],_,rfl,by rw [List.append_nil]; rfl,fun done => nomatch done⟩

theorem pastPending {t : Tmpio} {took rest : Bytes} {n : Nat} (split : t.left.take n = took ++ rest) (fits : n ≤ t.len.getD n) :
    t.pending = took ++ (t.past took.length).pending := by
  have left : t.left = took ++ t.left.drop took.length := by
    obtain ⟨more,same⟩ : took <+: t.left := ⟨rest ++ t.left.drop n,by rw [← List.append_assoc,← split,List.take_append_drop]⟩
    rw [← same,List.drop_left]
  have short : took.length ≤ n := by
    have := congrArg List.length split
    rw [List.length_take,List.length_append] at this
    omega
  obtain ⟨bytes,len⟩ := t
  cases len with
  | none => exact left
  | some len =>
    have fits : n ≤ len := fits
    exact (congrArg (List.take len) left).trans (by rw [List.take_append,List.take_of_length_le (short.trans fits)]; rfl)

theorem fileGiven {t : Tmpio} {took unsent : Bytes} {k clock : Nat} (sock : c.sock = true) (stays : .shutdnTlsStep ∉ c.wbuf)
    (all : c.log = c.sent ++ (t.pending ++ pending c.wbuf)) (split : t.left.take (min (min (t.len.getD 65536) 65536) (k + 1)) = took ++ unsent) :
    Sound [] { c with wbuf := .sendIo (t.past took.length) :: c.wbuf, sent := c.sent ++ took, clock := clock } := by
  have fits : min (min (t.len.getD 65536) 65536) (k + 1) ≤ t.len.getD (min (min (t.len.getD 65536) 65536) (k + 1)) := by
    cases t.len <;> simp [Nat.min_le_left]
  refine .live sock ?_ ?_
  · rw [List.mem_cons]
    exact fun mem => mem.elim (fun same => nomatch same) stays
  · show c.log = c.sent ++ took ++ ((t.past took.length).pending ++ pending c.wbuf) ++ []
    rw [all,pastPending split fits]
    simp only [List.append_assoc,List.append_nil]

theorem sendIoSound {t : Tmpio} (sock : c.sock = true) (stays : .shutdnTlsStep ∉ c.wbuf)
    (all : c.log = c.sent ++ (t.pending ++ pending c.wbuf)) : Sound [] (sendIo host t c) := by
  fun_induction sendIo host t c with
  | case1 t c n zero =>
    have none : t.pending = [] := by
      obtain ⟨left,len⟩ := t
      cases len with
      | none => simp [n] at zero
      | some len =>
        have : len = 0 := by simpa [n] using zero
        rw [this]
        rfl
    exact .live sock stays (by rw [all,none,List.nil_append,List.append_nil])
  | case2 => exact closeSound (c := tick _) ⟨_,all.symm⟩
  | case3 t c n some k _ taken len =>
    have none : t.pending = [] := by
      obtain ⟨left,len'⟩ := t
      cases len' with
      | none =>
        rcases List.take_eq_nil_iff.mp taken with zero | nil
        · omega
        · exact nil
      | some => exact absurd rfl len
    exact Sound.tick (.live sock stays (by rw [all,none,List.nil_append,List.append_nil]))
  | case4 t c n some k _ b buf taken unsent after wrote ih =>
    obtain ⟨took,clock,split,state,done⟩ := @writesGive host (b :: buf) (tick c)
    rw [wrote] at split state done
    rw [done rfl] at split
    cases state
    rw [List.append_nil] at split
    subst split
    have given := @fileGiven _ _ _ _ _ clock sock stays all (taken.trans (List.append_nil _).symm)
    cases given with
    | live _ _ all => exact ih sock stays (by rwa [List.append_nil] at all)
    | closing _ ends _ => cases ends
    | closed gone _ => exact absurd (sock.symm.trans gone) Bool.noConfusion
  | case5 t c n some k _ b buf taken unsent after wrote =>
    obtain ⟨took,clock,split,state,_⟩ := @writesGive host (b :: buf) (tick c)
    rw [wrote] at split state
    cases state
    have same : (b :: buf).length - unsent.length = took.length := by rw [split,List.length_append,Nat.add_sub_cancel]
    rw [same]
    exact fileGiven sock stays all (taken.trans split)
  | case6 t c n some k _ b buf taken unsent after wrote =>
    obtain ⟨took,clock,split,state,_⟩ := @writesGive host (b :: buf) (tick c)
    rw [wrote] at split state
    cases state
    exact closeSound (@fileGiven _ _ _ _ _ clock sock stays all (taken.trans split)).part
  | case7 => exact closeSound (c := tick _) ⟨_,all.symm⟩

theorem runItemSound {item : Item} {rest : List Item} (sound : Sound [] c) (first : c.wbuf = item :: rest) :
    Sound [] (runItem host item { c with wbuf := rest }) := by
  cases sound with
  | live sock stays all =>
    rw [first,List.mem_cons,not_or] at stays
    have all : c.log = c.sent ++ (item.pending ++ pending rest) := by
      rw [all,first,List.append_nil]
      rfl
    cases item with
    | sendIo t =>
      simp only [runItem,sendIoFrom]
      split
      · rename_i gone
        exact absurd sock gone
      · split
        · exact sendIoSound (c := tick { c with wbuf := rest }) sock stays.2 all
        · exact closeSound (c := tick { c with wbuf := rest }) ⟨_,all.symm⟩
    | code body => exact callsSound body (.live sock stays.2 (by rw [all,List.append_nil]; rfl))
    | acceptTlsStep =>
      have live : Sound [] { c with wbuf := rest } := .live sock stays.2 (by rw [all,List.append_nil]; rfl)
      simp only [runItem,acceptTlsStep]
      split
      · exact live
      · split
        · exact live.tick
        · refine .live sock ?_ (by rw [all,List.append_nil]; rfl)
          rw [List.mem_cons]
          exact fun mem => mem.elim (fun same => nomatch same) stays.2
        · exact closeSound live.tick.part
    | shutdnTlsStep => exact absurd rfl stays.1
  | closing sock ends part =>
    rw [first] at ends
    cases ends
    exact shutdnSound part
  | closed sock part =>
    have gone : Sound [] { c with wbuf := rest } := .closed sock part
    have not : ¬c.sock = true := Bool.eq_false_iff.mp sock
    cases item with
    | sendIo t => simpa only [runItem,sendIoFrom,if_pos not] using gone
    | code body => exact callsSound body gone
    | acceptTlsStep => simpa only [runItem,acceptTlsStep,if_pos not] using gone
    | shutdnTlsStep => exact shutdnSound part

theorem flushesSound (sound : Sound [] c) : Sound [] (flushes host c).2 := by
  fun_induction flushes host c with
  | case1 => exact sound
  | case2 c item rest first after _ => exact runItemSound sound first
  | case3 c item rest first after _ _ => exact runItemSound sound first
  | case4 c item rest first after _ _ ih => exact ih (runItemSound sound first)

theorem flushesEmpty (sock : c.sock = true) (done : (flushes host c).1 = true) :
    (flushes host c).2.sock = true ∧ (flushes host c).2.wbuf = [] := by
  fun_induction flushes host c with
  | case1 c empty => exact ⟨sock,empty⟩
  | case2 => cases done
  | case3 => cases done
  | case4 c item rest _ after _ stays ih => exact ih (not_not.mp stays) done

theorem flushWriteSound (sound : Sound [] c) : Sound [] (flushWrite host c).2 := by
  rw [flushWrite]
  split
  · exact flushesSound sound
  · exact sound

theorem connectedSound (tls : Bool) (greet : Option (List Call)) : Sound [] (connected tls greet) := by
  refine .live rfl ?_ ?_ <;> cases tls <;> cases greet <;> simp [connected,pending,Item.pending]

theorem stepSound (event : Event) (sound : Sound [] c) : Sound [] (step host c event) := by
  cases event with
  | call one => exact callSound one sound
  | flush => exact flushWriteSound sound

theorem runSound (host : Host) (tls : Bool) (greet : Option (List Call)) (events : List Event) : Sound [] (run host tls greet events) :=
  List.foldlRecOn events (step host) (connectedSound tls greet) fun _ sound event _ => stepSound event sound

theorem giveTold {data : Bytes} {n : Nat} (all : c.log = c.sent ++ data) (fits : data.length ≤ n + 1) :
    (give data n c).sent = (give data n c).log := by
  rw [give,List.take_of_length_le fits,← all]
  rfl

def Ended (c : Conn) : Prop := c.sock = false ∨ c.wbuf = [.shutdnTlsStep]

theorem closeEnds (c : Conn) : Ended (close host c) := by
  have dropped (c : Conn) : (dsClose c).sock = false := by
    rw [dsClose]
    split
    · rfl
    · rename_i gone
      exact Bool.eq_false_iff.mpr gone
  rw [close]
  split
  · rename_i gone
    exact .inl (Bool.eq_false_iff.mpr gone)
  · rename_i there
    split
    · rw [shutdnTlsStep,if_neg there]
      split
      · exact .inr rfl
      · exact .inl (dropped _)
    · exact .inl (dropped c)

theorem writeDataTold {data : Bytes} (sound : Sound [] c) (told : (writeData host data c).1 = true) :
    (writeData host data c).2.sent = (writeData host data c).2.log ∨ Ended (writeData host data c).2 := by
  have logged := @Sound.logged c data sound
  rw [writeData] at told ⊢
  dsimp only at told ⊢
  split at told
  · rename_i gone
    rw [if_pos gone]
    exact .inr (.inl (Bool.eq_false_iff.mpr gone))
  · rename_i sock
    rw [if_neg sock]
    have sock := not_not.mp sock
    split at told
    · cases told
    · rename_i empty
      rw [if_neg empty]
      have empty := not_not.mp empty
      split at told
      · split at told
        · rename_i fits
          rw [if_pos fits]
          exact .inl (giveTold (logged.straight sock empty) fits)
        · cases told
      · split at told
        · rename_i stuck
          rw [if_pos stuck]
          exact .inr (closeEnds _)
        · cases told
      · exact .inr (closeEnds _)

theorem iovTold {there : Bool} {tip : Bytes} {rest : List Bytes} (sound : Sound [] c) (told : (iov host there tip rest c).1 = true) :
    (iov host there tip rest c).2.sent = (iov host there tip rest c).2.log ∨ Ended (iov host there tip rest c).2 := by
  rw [iov] at told ⊢
  split at told
  · rename_i direct
    rw [if_pos direct]
    simp only [Bool.and_eq_true,List.isEmpty_iff] at direct
    have logged := @Sound.logged c (tip :: rest).flatten sound
    rw [iovWrite] at told ⊢
    split at told
    · split at told
      · rename_i fits
        rw [if_pos fits]
        exact .inl (giveTold (logged.straight direct.1.1.1 direct.1.2) fits)
      · split at told <;> cases told
    · cases told
    · exact .inr (closeEnds _)
  · rename_i buffered
    rw [if_neg buffered]
    exact writeDataTold sound told

end

/- Nothing is sent out of order or twice, and what is not sent waits. A true return value says that all is sent, and that of a
write also that the connection has ended. -/
structure Streams (host : Host) (c : Conn) : Prop where
  part : c.sent <+: c.log
  waits : c.sock = true → .shutdnTlsStep ∉ c.wbuf → c.log = c.sent ++ pending c.wbuf
  flushed : (flushWrite host c).1 = true → (flushWrite host c).2.sent = (flushWrite host c).2.log
  written : ∀ data,(writeData host data c).1 = true →
    (writeData host data c).2.sent = (writeData host data c).2.log ∨ Ended (writeData host data c).2
  gathered : ∀ there tip rest,(iov host there tip rest c).1 = true →
    (iov host there tip rest c).2.sent = (iov host there tip rest c).2.log ∨ Ended (iov host there tip rest c).2

theorem outputStreams (host : Host) (tls : Bool) (greet : Option (List Call)) (events : List Event) :
    Streams host (run host tls greet events) := by
  have sound := runSound host tls greet events
  refine ⟨sound.part,?_,?_,fun _ => writeDataTold sound,fun _ _ _ => iovTold sound⟩
  · intro sock stays
    cases sound with
    | live _ _ all => rwa [List.append_nil] at all
    | closing _ ends _ => exact absurd (List.mem_of_head? ends) stays
    | closed gone _ => exact absurd (sock.symm.trans gone) Bool.noConfusion
  · intro done
    have flushed := @flushWriteSound host _ sound
    rw [flushWrite] at done flushed ⊢
    split at done
    · rename_i sock
      rw [if_pos sock] at flushed ⊢
      obtain ⟨still,empty⟩ := flushesEmpty sock done
      exact ((flushed.straight still empty).trans (List.append_nil _)).symm
    · cases done

end PublicInbox.DS.Wbuf
