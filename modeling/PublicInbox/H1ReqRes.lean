import PublicInbox.Chunks.Follow

/-! H1ReqRes.pm: the body of an upstream response on its way to the client of the proxy, by its
Content-Length or in chunks. Between two reads the upstream may have nothing, and the client may be
blocked; the client stays connected. -/
namespace PublicInbox.H1ReqRes
open Chunks Feed

def ioSize : Nat := 65536

structure Wire where
  sent : List Char
  pending : List Char
  takes : List Nat
  deriving DecidableEq

def Wire.write (w : Wire) (bs : List Char) : Wire :=
  if w.pending ≠ [] then { w with pending := w.pending ++ bs }
  else
    let n := min (w.takes.headD bs.length) bs.length
    ⟨w.sent ++ bs.take n,bs.drop n,w.takes.tail⟩

def Wire.flush (w : Wire) : Wire := { w with sent := w.sent ++ w.pending, pending := [] }

def Wire.all (w : Wire) : List Char := w.sent ++ w.pending

/- _pass_done, with what is left in rbuf when both sides are closed, or the die that event_step catches -/
inductive Outcome where
  | passed (client : Wire) (rbuf : List Char)
  | died (msg : String)
  deriving DecidableEq

inductive Pause where
  | eagain
  | blocked
  deriving DecidableEq

/- What is kept until next_cb or h1rr_pull goes on: rbuf_idle drops an empty buffer. -/
structure Saved (L : Type) where
  rbuf : Option (List Char)
  resLeft : L
  client : Wire

section
variable {L : Type}

def readErr (rbuf : List Char) (len : L) (client : Wire) : Saved L := ⟨if rbuf = [] then none else some rbuf,len,client⟩

def forward (rbuf : List Char) (len : L) (client : Wire) : Saved L := ⟨some rbuf,len,client⟩

def passRefill (why : Pause) (rbuf : List Char) (len : L) (client : Wire) : Saved L :=
  match why with
  | .eagain => readErr rbuf len client
  | .blocked => { forward rbuf len client with client := client.flush }

end

def resumeChunked (why : Pause) (s : Reading Wire) : Reading Wire :=
  let saved := passRefill why s.rbuf s.left s.sink
  ⟨saved.resLeft,saved.rbuf.getD [],saved.client⟩

def chunked : Handler Wire Outcome where
  size := fun client digits ext =>
    if 8 < digits.length then .error (.died ("chunk 0x" ++ String.ofList digits ++ " too large"))
    else .ok (client.write (digits ++ ext ++ ['\r','\n']))
  data := Wire.write
  ends := fun client => client.write ['\r','\n']
  finish := fun client tlr rbuf => .passed (client.write (tlr ++ ['\r','\n'])) rbuf
  tlrMax := ioSize
  long := fun
    | .start => .died "rbuf too large w/o CHUNK_START"
    | .«end» => .died "CHUNK_END too long"
    | .tlrEnd | .chunk _ => .died "chunk not terminated"

def passResChunked : Machine (Reading Wire) Char Pause Outcome := chunked.machine resumeChunked

structure Identity where
  resLeft : Nat
  rbuf : List Char
  client : Wire
  deriving DecidableEq

def passResBlock (s : Identity) : Identity :=
  if s.resLeft < s.rbuf.length then ⟨0,s.rbuf.drop s.resLeft,s.client.write (s.rbuf.take s.resLeft)⟩
  else ⟨s.resLeft - s.rbuf.length,[],s.client.write s.rbuf⟩

def turnIdentity (s : Identity) : Turn Identity Outcome :=
  if s.resLeft = 0 then .done (.passed s.client s.rbuf)
  else if s.rbuf ≠ [] then .more (passResBlock s)
  else .read s

def resumeIdentity (why : Pause) (s : Identity) : Identity :=
  let saved := passRefill why s.rbuf s.resLeft s.client
  ⟨saved.resLeft,saved.rbuf.getD [],saved.client⟩

def passResIdentity : Machine Identity Char Pause Outcome where
  turn := turnIdentity
  feed := fun s bs => { s with rbuf := s.rbuf ++ bs }
  resume := resumeIdentity
  size := Identity.resLeft
  shrinks := by
    intro s s' turn
    rw [turnIdentity] at turn
    split at turn
    · cases turn
    · rename_i left
      split at turn
      · rename_i some
        have bytes := List.length_pos_of_ne_nil some
        cases turn
        rw [passResBlock]
        split
        · exact Nat.pos_of_ne_zero left
        · exact Nat.sub_lt (Nat.pos_of_ne_zero left) bytes
      · cases turn

@[simp] theorem writeAll (w : Wire) (bs : List Char) : (w.write bs).all = w.all ++ bs := by
  rw [Wire.write]
  split
  · simp [Wire.all]
  · rename_i none
    simp [Wire.all,not_not.mp none]

@[simp] theorem flushAll (w : Wire) : w.flush.all = w.all := by simp [Wire.flush,Wire.all]

theorem refillKeeps {L : Type} (why : Pause) (rbuf : List Char) (len : L) (client : Wire) :
    (passRefill why rbuf len client).resLeft = len ∧ (passRefill why rbuf len client).rbuf.getD [] = rbuf ∧
      (passRefill why rbuf len client).client.all = client.all := by
  cases why with
  | eagain =>
    refine ⟨rfl,?_,rfl⟩
    simp only [passRefill,readErr]
    split
    · rename_i none
      simp [none]
    · rfl
  | blocked => exact ⟨rfl,rfl,flushAll client⟩

def recorded : chunked.Records where
  view := Wire.all
  line := SizeLine.text
  close := ['\r','\n']
  Admits := fun _ l => l.digits.length ≤ 8
  sized := by
    intro s s' l sized
    simp only [chunked] at sized
    split at sized
    · cases sized
    · rename_i short
      cases sized
      exact ⟨Nat.le_of_not_lt short,writeAll _ _⟩
  admitted := by
    intro s l short
    refine ⟨s.write (l.digits ++ l.ext ++ ['\r','\n']),?_⟩
    simp only [chunked,if_neg (Nat.not_lt.mpr short)]
  held := writeAll
  closed := fun client => writeAll client _

theorem recordedAdmits {cs : List Chunk} {last : SizeLine} (short : ∀ l ∈ cs.map Chunk.line ++ [last],l.digits.length ≤ 8)
    (v : List Char) : recorded.Admitted v cs last := by
  induction cs generalizing v with
  | nil => exact short last (by simp)
  | cons c cs ih => exact ⟨short c.line (by simp),ih (fun l mem => short l (List.mem_cons_of_mem _ mem)) _⟩

theorem recordedText (b : Body) : recorded.passed b ++ trailerText b.trailers ++ ['\r','\n'] = b.text := by
  have chunk : recorded.chunk = Chunk.text := rfl
  have line : recorded.line b.last = b.last.text := rfl
  rw [Handler.Records.passed,chunk,line,Body.text,Body.tail]
  simp

def Owes (next final : List Char) (s : Identity) (u : List Char) : Prop :=
  ∃ body,body.length = s.resLeft ∧ s.rbuf ++ u = body ++ next ∧ s.client.all ++ body = final

theorem owesTurn {next final u : List Char} {s : Identity} (owes : Owes next final s u) :
    (∃ s',passResIdentity.turn s = .more s' ∧ Owes next final s' u) ∨
      (∃ s',passResIdentity.turn s = .read s' ∧ Owes next final s' u ∧ u ≠ []) ∨
        ∃ w,passResIdentity.turn s = .done w ∧ ∃ client kept,w = .passed client kept ∧ client.all = final ∧ kept ++ u = next := by
  obtain ⟨body,len,text,all⟩ := owes
  simp only [passResIdentity,turnIdentity]
  by_cases none : s.resLeft = 0
  · obtain rfl := List.length_eq_zero_iff.mp (len.trans none)
    exact .inr (.inr ⟨_,if_pos none,s.client,s.rbuf,rfl,by simpa using all,text⟩)
  rw [if_neg none]
  by_cases empty : s.rbuf = []
  · refine .inr (.inl ⟨s,if_neg (not_not.mpr empty),⟨body,len,text,all⟩,fun ended => none ?_⟩)
    rw [empty,ended] at text
    rw [← len,(List.append_eq_nil_iff.mp text.symm).1]
    rfl
  rw [if_pos empty]
  refine .inl ⟨_,rfl,?_⟩
  rw [passResBlock,← len]
  rcases List.append_eq_append_iff.mp text with ⟨rest,is,follows⟩ | ⟨left,is,follows⟩
  · have whole : ¬ body.length < s.rbuf.length := by simp [is]
    rw [if_neg whole]
    exact ⟨rest,by simp [is],by simpa using follows,by simp [← all,is]⟩
  · split
    · exact ⟨[],rfl,by simpa [is] using follows.symm,by simp [← all,is]⟩
    · rename_i whole
      obtain rfl : left = [] := by
        rw [is,List.length_append] at whole
        exact List.length_eq_zero_iff.mp (by omega)
      exact ⟨[],by simp [is],by simpa using follows.symm,by simp [← all,is]⟩

/- The client gets the body as the upstream has delimited it, to the end of its Content-Length or of the
trailers, and what the upstream sends behind it is not passed on: however its bytes are cut, and wherever the
upstream or the client was waited for. -/
theorem bodyPassed (client : Wire) {rbuf next : List Char} {reads : List (Recv Char Pause)} (live : ∀ r ∈ reads,r.Live) :
    (∀ body,rbuf ++ reads.flatMap Recv.bytes = body ++ next → ∃ client' kept left,
      passResIdentity.drive reads ⟨body.length,rbuf,client⟩ = (.done (.passed client' kept),left) ∧ left <:+ reads ∧
        client'.all = client.all ++ body ∧ kept ++ left.flatMap Recv.bytes = next) ∧
      ∀ b : Body,b.Within ioSize → rbuf ++ reads.flatMap Recv.bytes = b.text ++ next → ∃ client' kept left,
        passResChunked.drive reads ⟨.start,rbuf,client⟩ = (.done (.passed client' kept),left) ∧ left <:+ reads ∧
          client'.all = client.all ++ b.text ∧ kept ++ left.flatMap Recv.bytes = next := by
  constructor
  · intro body text
    have fed : ∀ {u s bs},Owes next (client.all ++ body) s (bs ++ u) → Owes next (client.all ++ body) (passResIdentity.feed s bs) u := by
      intro u s bs ⟨owed,len,text,all⟩
      exact ⟨owed,len,by simpa [passResIdentity] using text,all⟩
    have resumed : ∀ {u s why},Owes next (client.all ++ body) s u → Owes next (client.all ++ body) (passResIdentity.resume why s) u := by
      intro u s why ⟨owed,len,text,all⟩
      obtain ⟨same,buf,sent⟩ := refillKeeps why s.rbuf s.resLeft s.client
      exact ⟨owed,len.trans same.symm,by simpa only [passResIdentity,resumeIdentity,buf] using text,
        by simpa only [passResIdentity,resumeIdentity,sent] using all⟩
    have start : Owes next (client.all ++ body) ⟨body.length,rbuf,client⟩ (reads.flatMap Recv.bytes) := ⟨body,rfl,text,rfl⟩
    obtain ⟨w,left,runs,suffix,client',kept,is,all,rest⟩ :=
      Machine.reaches (Owes next (client.all ++ body)) owesTurn fed resumed live start
    exact ⟨client',kept,left,is ▸ runs,suffix,all,rest⟩
  · intro b within text
    have resumed : ∀ why (s : Reading Wire),(resumeChunked why s).left = s.left ∧ (resumeChunked why s).rbuf = s.rbuf ∧
        recorded.view (resumeChunked why s).sink = recorded.view s.sink :=
      fun why s => refillKeeps why s.rbuf s.left s.sink
    obtain ⟨w,left,runs,suffix,sink,kept,is,view,rest⟩ :=
      recorded.follows resumed b within live (recordedAdmits within.digits _) text
    refine ⟨sink.write (trailerText b.trailers ++ ['\r','\n']),kept,left,runs.trans (by rw [is]; rfl),suffix,?_,rest⟩
    have all : sink.all = client.all ++ recorded.passed b := view
    rw [writeAll,all,← recordedText]
    simp

/- The client takes three bytes of what it is given, and is waited for. -/
theorem helloPassed :
    ∃ client kept left,passResChunked.drive
        [.data "=b\r\nhel".toList,.again .blocked,.data "lo\r".toList,.again .eagain,.data "\n0\r\nX-Md5: 1\r\n\r\n!".toList]
        ⟨.start,"5;a".toList,⟨[],[],[3]⟩⟩ = (.done (.passed client kept),left) ∧
      left <:+ [.data "=b\r\nhel".toList,.again .blocked,.data "lo\r".toList,.again .eagain,
        .data "\n0\r\nX-Md5: 1\r\n\r\n!".toList] ∧
      client.all = Wire.all ⟨[],[],[3]⟩ ++ helloBody.text ∧ kept ++ left.flatMap Recv.bytes = ['!'] :=
  (bodyPassed ⟨[],[],[3]⟩ (by simp [Recv.Live])).2 helloBody ⟨by decide,by decide,by decide⟩ (by decide)

/- Nine digits end both connections, as does an extension that is longer than CHUNK_MAX_HDR when a read ends in
it; a trailer whose name has an underscore is waited behind. -/
theorem wellFormedDied :
    passResChunked.drive [.data "000000005\r\nhello\r\n0\r\n\r\n".toList] ⟨.start,[],⟨[],[],[]⟩⟩ =
        (.done (.died "chunk 0x000000005 too large"),[]) ∧
      passResChunked.drive [.data ("5;a=".toList ++ List.replicate 253 'b'),.data "\r\nhello\r\n0\r\n\r\n".toList]
        ⟨.start,[],⟨[],[],[]⟩⟩ =
        (.done (.died "rbuf too large w/o CHUNK_START"),[.data "\r\nhello\r\n0\r\n\r\n".toList]) ∧
      passResChunked.drive [.data "0\r\nX_Md5: 1\r\n\r\n".toList] ⟨.start,[],⟨[],[],[]⟩⟩ =
        (.waits ⟨.tlrEnd,"X_Md5: 1\r\n\r\n".toList,⟨"0\r\n".toList,[],[]⟩⟩,[]) := by
  decide +kernel

end PublicInbox.H1ReqRes
