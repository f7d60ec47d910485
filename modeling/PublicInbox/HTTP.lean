import PublicInbox.Chunks.Follow

/-! HTTP.pm: the body of a request that comes in chunks, up to app_dispatch. parse_http_request is that
of Plack::HTTPParser; the temporary file takes all that is written to it. -/
namespace PublicInbox.HTTP
open Chunks Feed

abbrev Env := List (List Char × List Char)

def Env.put (env : Env) (k v : List Char) : Env := (k,v) :: env.filter (fun (key,_) => key ≠ k)

inductive Answer where
  | dispatch (input : List Char) (env : Env) (rbuf : Option (List Char))
  | quit (status : Nat)
  deriving DecidableEq

def truthy : Option (List Char) → Bool
  | none => false
  | some v => v ≠ [] && v ≠ ['0']

def isSpace (c : Char) : Bool := c ∈ [' ','\t','\n','\r','\x0b','\x0c']

def trimEnd (field : List Char) : List Char := (field.reverse.dropWhile isSpace).reverse

def trimLater : List (List Char) → List (List Char)
  | [] => []
  | [field] => [field.dropWhile isSpace]
  | field :: fields => trimEnd (field.dropWhile isSpace) :: trimLater fields

def trimFields : List (List Char) → List (List Char)
  | [] => []
  | [field] => [field]
  | field :: fields => trimEnd field :: trimLater fields

def dropEmpty (fields : List (List Char)) : List (List Char) := (fields.reverse.dropWhile List.isEmpty).reverse

def splitList (exp : List Char) : List (List Char) := dropEmpty (trimFields (exp.splitOn ','))

def envKey (name : List Char) : List Char :=
  "HTTP_".toList ++ name.map fun c => if c = '-' then '_' else c.toUpper

def take (env : Env) (need : List (List Char)) : Env → Option Env
  | [] => if need = [] then some env else none
  | (k,v) :: tenv => if k ∈ need then take (env.put k v) (need.filter (· ≠ k)) tenv else none

section
variable (maxRequestBuffer : Nat) (parseHttpRequest : List Char → Env → Int × Env) (env : Env)

def mergeTrailers (tlrBuf : List Char) : Option Env :=
  let expTlr := env.lookup "HTTP_TRAILER".toList
  if truthy (some tlrBuf) ≠ truthy expTlr then none
  else match expTlr with
    | none => some env
    | some expTlr =>
      let k := (splitList expTlr).map envKey
      let tenv := k.foldl (fun tenv k => match env.lookup k with
        | some v => Env.put tenv k v
        | none => tenv) []
      let (r,tenv) := parseHttpRequest ("GET / HTTP/1.0\r\n".toList ++ tlrBuf ++ "\r\n".toList) tenv
      -- The slice of the two keys is in scalar context: its last element
      if r ≤ 0 ∨ truthy (tenv.lookup "CONTENT_LENGTH".toList) then none
      else take env k (tenv.filter fun (key,_) => "HTTP_".toList.isPrefixOf key)

def rbufIdle (rbuf : List Char) : Option (List Char) := if rbuf = [] then none else some rbuf

structure Client where
  rbuf : Option (List Char)
  inputLeft : Left
  input : List Char

def recvErr (s : Reading (List Char)) : Client := ⟨rbufIdle s.rbuf,s.left,s.sink⟩

def readInput (c : Client) : Reading (List Char) := ⟨c.inputLeft,c.rbuf.getD [],c.input⟩

def resume (_ : Unit) (s : Reading (List Char)) : Reading (List Char) := readInput (recvErr s)

def chunked : Handler (List Char) Answer where
  size := fun input digits _ =>
    if 8 < digits.length then .error (.quit 400)
    else if maxRequestBuffer < hex digits + input.length then .error (.quit 413)
    else .ok input
  data := fun input bs => input ++ bs
  ends := fun input => input
  finish := fun input tlr rbuf => match mergeTrailers parseHttpRequest env tlr with
    | none => .quit 400
    | some env => .dispatch input env (rbufIdle rbuf)
  tlrMax := 0x4000
  long := fun _ => .quit 400

def readInputChunked : Machine (Reading (List Char)) Char Unit Answer :=
  (chunked maxRequestBuffer parseHttpRequest env).machine resume

def request (rbuf : List Char) : Reading (List Char) := ⟨.start,rbuf,[]⟩

end

section
variable {maxRequestBuffer : Nat} {parseHttpRequest : List Char → Env → Int × Env} {env : Env}

@[simp] theorem idleKept (rbuf : List Char) : (rbufIdle rbuf).getD [] = rbuf := by
  rw [rbufIdle]
  split
  · rename_i none
    rw [none]
    rfl
  · rfl

theorem resumed (why : Unit) (s : Reading (List Char)) : resume why s = s := by
  rw [resume,readInput,recvErr]
  simp

variable (maxRequestBuffer parseHttpRequest env) in
def recorded : (chunked maxRequestBuffer parseHttpRequest env).Records where
  view := id
  line := fun _ => []
  close := []
  Admits := fun input l => l.digits.length ≤ 8 ∧ l.size + input.length ≤ maxRequestBuffer
  sized := by
    intro s s' l sized
    simp only [chunked] at sized
    split at sized
    · cases sized
    · rename_i short
      split at sized
      · cases sized
      · rename_i fits
        cases sized
        exact ⟨⟨Nat.le_of_not_lt short,Nat.le_of_not_lt fits⟩,by simp⟩
  admitted := by
    intro s l ⟨short,fits⟩
    simp only [id,SizeLine.size] at fits
    exact ⟨s,by simp only [chunked,if_neg (Nat.not_lt.mpr short),if_neg (Nat.not_lt.mpr fits)]⟩
  held := fun _ _ => rfl
  closed := fun s => (List.append_nil s).symm

end

section
variable (maxRequestBuffer : Nat) (parseHttpRequest : List Char → Env → Int × Env) (env : Env)

theorem recordedChunk : (recorded maxRequestBuffer parseHttpRequest env).chunk = Chunk.data := by
  funext c
  simp [Handler.Records.chunk,recorded]

theorem recordedData (b : Body) : (recorded maxRequestBuffer parseHttpRequest env).passed b = b.data := by
  rw [Handler.Records.passed,recordedChunk]
  exact List.append_nil _

theorem recordedAdmits (cs : List Chunk) (last : SizeLine) (zero : last.size = 0) (v : List Char) :
    (recorded maxRequestBuffer parseHttpRequest env).Admitted v cs last ↔
      (∀ l ∈ cs.map Chunk.line ++ [last],l.digits.length ≤ 8) ∧ v.length + (cs.flatMap Chunk.data).length ≤ maxRequestBuffer := by
  induction cs generalizing v with
  | nil => simp [Handler.Records.Admitted,recorded,zero]
  | cons c cs ih =>
    rw [Handler.Records.Admitted,recordedChunk,ih]
    simp only [recorded,← c.sized,List.length_append,List.map_cons,List.cons_append,List.forall_mem_cons,List.flatMap_cons]
    constructor
    · rintro ⟨⟨short,-⟩,few,fits⟩
      exact ⟨⟨short,few⟩,by omega⟩
    · rintro ⟨⟨short,few⟩,fits⟩
      exact ⟨⟨short,by omega⟩,few,by omega⟩

variable {maxRequestBuffer parseHttpRequest env}

/- A body that keeps within the limits of read_input_chunked is read back as its data, and the request goes
to the application with it, however its bytes and those of the next request were cut. -/
theorem chunksReassembled (b : Body) (within : b.Within 0x4000) (fits : b.data.length ≤ maxRequestBuffer) {merged : Env}
    (trailers : mergeTrailers parseHttpRequest env (trailerText b.trailers) = some merged) {rbuf next : List Char}
    {reads : List (Recv Char Unit)} (live : ∀ r ∈ reads,r.Live) (text : rbuf ++ reads.flatMap Recv.bytes = b.text ++ next) :
    ∃ kept left,(readInputChunked maxRequestBuffer parseHttpRequest env).drive reads (request rbuf) =
        (.done (.dispatch b.data merged (rbufIdle kept)),left) ∧
      left <:+ reads ∧ kept ++ left.flatMap Recv.bytes = next := by
  have admitted := (recordedAdmits maxRequestBuffer parseHttpRequest env b.chunks b.last b.zero []).mpr
    ⟨within.digits,by rw [List.length_nil,Nat.zero_add]; exact fits⟩
  obtain ⟨w,left,runs,suffix,sink,kept,is,view,rest⟩ := (recorded maxRequestBuffer parseHttpRequest env).follows
    (f := resume) (fun why s => by rw [resumed]; exact ⟨rfl,rfl,rfl⟩) b within live admitted text
  refine ⟨kept,left,runs.trans ?_,suffix,rest⟩
  rw [recordedData] at view
  have data : sink = b.data := view
  rw [is,data]
  simp only [chunked,trailers]

end

def parsedMd5 (buf : List Char) (env : Env) : Int × Env :=
  (buf.length,Env.put (Env.put env "REQUEST_METHOD".toList "GET".toList) "HTTP_X_MD5".toList "1".toList)

theorem helloReassembled :
    ∃ kept left,(readInputChunked 10485760 parsedMd5 [("HTTP_TRAILER".toList,"X-Md5".toList)]).drive
        [.data "=b\r\nhel".toList,.again (),.data "lo\r".toList,.data "\n0\r\nX-Md5: 1\r\n\r\nGET".toList,.data " /".toList]
        (request "5;a".toList) =
        (.done (.dispatch "hello".toList [("HTTP_X_MD5".toList,"1".toList),("HTTP_TRAILER".toList,"X-Md5".toList)] (rbufIdle kept)),left) ∧
      left <:+ [.data "=b\r\nhel".toList,.again (),.data "lo\r".toList,.data "\n0\r\nX-Md5: 1\r\n\r\nGET".toList,.data " /".toList] ∧
      kept ++ left.flatMap Recv.bytes = "GET /".toList :=
  chunksReassembled helloBody ⟨by decide,by decide,by decide⟩ (by decide) (by decide) (by simp [Recv.Live]) (by decide)

/- Nine digits are answered with 400, so is an extension that is longer than CHUNK_MAX_HDR when a read ends
in it, and trailers that no Trailer header has announced; a body over the maximum is answered with 413. -/
theorem wellFormedRefused :
    (readInputChunked 10485760 parsedMd5 []).drive [.data "000000005\r\nhello\r\n0\r\n\r\n".toList] (request []) =
        (.done (.quit 400),[]) ∧
      (readInputChunked 10485760 parsedMd5 []).drive
        [.data ("5;a=".toList ++ List.replicate 253 'b'),.data "\r\nhello\r\n0\r\n\r\n".toList] (request []) =
        (.done (.quit 400),[.data "\r\nhello\r\n0\r\n\r\n".toList]) ∧
      (readInputChunked 10485760 parsedMd5 []).drive [.data "0\r\nX-Md5: 1\r\n\r\n".toList] (request []) =
        (.done (.quit 400),[]) ∧
      (readInputChunked 4 parsedMd5 []).drive [.data "5\r\nhello\r\n0\r\n\r\n".toList] (request []) =
        (.done (.quit 413),[]) := by
  decide +kernel

section
variable (maxRequestBuffer : Nat) (parseHttpRequest : List Char → Env → Int × Env) (env : Env)

def Answered (taken : List Char) : End (Reading (List Char)) Answer → Prop
  | .done (.dispatch input merged kept) => ∃ b : Body,
      taken = b.text ++ kept.getD [] ∧ input = b.data ∧ (∀ l ∈ b.lines,l.digits.length ≤ 8) ∧
        b.data.length ≤ maxRequestBuffer ∧ mergeTrailers parseHttpRequest env (trailerText b.trailers) = some merged
  | .done (.quit status) => status = 400 ∨ status = 413
  | .waits s | .gone s => s.rbuf.length ≤ Handler.Records.limit (chunked maxRequestBuffer parseHttpRequest env) s.left

variable {maxRequestBuffer parseHttpRequest env}

theorem stoppedAnswered {taken : List Char} {e : End (Reading (List Char)) Answer}
    (stopped : (recorded maxRequestBuffer parseHttpRequest env).Stopped [] taken e) :
    Answered maxRequestBuffer parseHttpRequest env taken e := by
  cases stopped with
  | waits short => exact short
  | gone short => exact short
  | long left => exact .inl rfl
  | size refused =>
    simp only [chunked] at refused
    split at refused
    · cases refused
      exact .inl rfl
    · split at refused
      · cases refused
        exact .inr rfl
      · cases refused
  | finished b sink rest admitted text view =>
    obtain ⟨short,fits⟩ := (recordedAdmits maxRequestBuffer parseHttpRequest env b.chunks b.last b.zero []).mp admitted
    rw [recordedData] at view
    have data : sink = b.data := view
    simp only [chunked]
    split
    · rename_i refused
      exact .inl rfl
    · rename_i merged took
      exact ⟨b,by rw [idleKept]; exact text,data,short,by rwa [List.length_nil,Nat.zero_add] at fits,took⟩

variable (maxRequestBuffer parseHttpRequest env)

theorem onlyChunksDispatched (rbuf : List Char) (reads : List (Recv Char Unit)) :
    ∃ taken,taken ++ ((readInputChunked maxRequestBuffer parseHttpRequest env).drive reads (request rbuf)).2 = reads ∧
      Answered maxRequestBuffer parseHttpRequest env (rbuf ++ taken.flatMap Recv.bytes)
        ((readInputChunked maxRequestBuffer parseHttpRequest env).drive reads (request rbuf)).1 := by
  obtain ⟨taken,all,stopped⟩ := (recorded maxRequestBuffer parseHttpRequest env).stops
    (f := resume) (fun why s => by rw [resumed]; exact ⟨rfl,rfl,rfl⟩) reads rbuf []
  exact ⟨taken,all,stoppedAnswered stopped⟩

def isSizeLine (line : List Char) : Bool :=
  match (line.dropWhile isHex).dropWhile (fun c => c == ' ' || c == '\t') with
  | [] => line.takeWhile isHex != []
  | c :: _ => line.takeWhile isHex != [] && c == ';'

def SizeLined (b : Body) : Prop := ∀ l ∈ b.lines,isSizeLine (l.digits ++ l.ext) = true

def Grammatical (taken : List Char) : End (Reading (List Char)) Answer → Prop
  | .done (.dispatch input merged kept) => ∃ b : Body,
      SizeLined b ∧ taken = b.text ++ kept.getD [] ∧ input = b.data ∧ (∀ l ∈ b.lines,l.digits.length ≤ 8) ∧
        b.data.length ≤ maxRequestBuffer ∧ mergeTrailers parseHttpRequest env (trailerText b.trailers) = some merged
  | .done (.quit status) => status = 400 ∨ status = 413
  | .waits s | .gone s => s.rbuf.length ≤ Handler.Records.limit (chunked maxRequestBuffer parseHttpRequest env) s.left

def GrammarKept (rbuf : List Char) (reads : List (Recv Char Unit)) : Prop :=
  ∃ taken,taken ++ ((readInputChunked maxRequestBuffer parseHttpRequest env).drive reads (request rbuf)).2 = reads ∧
    Grammatical maxRequestBuffer parseHttpRequest env (rbuf ++ taken.flatMap Recv.bytes)
      ((readInputChunked maxRequestBuffer parseHttpRequest env).drive reads (request rbuf)).1

def LinesGrammatical (stream : List Char) : Prop := ∀ (b : Body) (rest : List Char),stream = b.text ++ rest → SizeLined b

variable {maxRequestBuffer parseHttpRequest env}

theorem linesKept {rbuf : List Char} {reads : List (Recv Char Unit)} (lines : LinesGrammatical (rbuf ++ reads.flatMap Recv.bytes)) :
    GrammarKept maxRequestBuffer parseHttpRequest env rbuf reads := by
  obtain ⟨taken,all,answered⟩ := onlyChunksDispatched maxRequestBuffer parseHttpRequest env rbuf reads
  refine ⟨taken,all,?_⟩
  generalize (readInputChunked maxRequestBuffer parseHttpRequest env).drive reads (request rbuf) = stopped at all answered
  obtain ⟨stop,left⟩ := stopped
  match stop,answered with
  | .done (.dispatch input merged kept),answered =>
    obtain ⟨b,text,rest⟩ := answered
    refine ⟨b,lines b (kept.getD [] ++ left.flatMap Recv.bytes) ?_,text,rest⟩
    rw [← all,List.flatMap_append,← List.append_assoc,text,List.append_assoc]
  | .done (.quit status),answered => exact answered
  | .waits s,answered => exact answered
  | .gone s,answered => exact answered

theorem dispatchedLines {rbuf input : List Char} {reads left : List (Recv Char Unit)} {merged : Env} {kept : Option (List Char)}
    (runs : (readInputChunked maxRequestBuffer parseHttpRequest env).drive reads (request rbuf) = (.done (.dispatch input merged kept),left))
    (grammar : GrammarKept maxRequestBuffer parseHttpRequest env rbuf reads) : LinesGrammatical (rbuf ++ reads.flatMap Recv.bytes) := by
  obtain ⟨taken,all,dispatched⟩ := grammar
  rw [runs] at all dispatched
  obtain ⟨b,lined,text,_⟩ := dispatched
  intro b' rest same
  have whole : b'.text ++ rest = b.text ++ (kept.getD [] ++ left.flatMap Recv.bytes) := by
    rw [← same,← all,List.flatMap_append,← List.append_assoc,text,List.append_assoc]
  rw [SizeLined,Body.linesSame whole]
  exact lined

variable (maxRequestBuffer parseHttpRequest env)

end

end PublicInbox.HTTP
