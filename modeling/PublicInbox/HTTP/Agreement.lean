import PublicInbox.HTTP.Heads

/-! What a client reads is what the applications said, and both sides agree on when a connection is used again. -/
namespace PublicInbox.HTTP.Client
open Chunks Feed Response

def kept : List (Text × Option Text) → List (Text × Text)
  | [] => []
  | (_,none) :: headers => kept headers
  | (k,some v) :: headers =>
    if lower k = lower connectionName ∨ lower k = lower dateName then kept headers else (k,v) :: kept headers

def pieces : Content → List Text
  | .array bufs | .handle bufs _ | .push bufs => bufs

def said (res : Res) : Text := (pieces res.body).flatten

def dies : Content → Bool
  | .handle _ .getlineDies => true
  | _ => false

def bodyless (env : Request) (res : Res) : Bool := env.head || statusWithNoEntityBody res.status

def lengths (res : Res) : List Text := values (lower contentLength) (kept res.headers)

def codings (res : Res) : List Text := values (lower transferEncoding) (kept res.headers)

inductive Framed (env : Request) (res : Res) : Prop where
  | untold (noLength : lengths res = []) (noCoding : codings res = [])
  | length (v : Text) (is : lengths res = [v]) (noCoding : codings res = []) (digits : v ≠ [] ∧ v.all Char.isDigit = true)
      (fits : (said res).length ≤ Decimal.value v) (all : dies res.body = false → (said res).length = Decimal.value v)
  | chunks (v : Text) (b : Body) (noLength : lengths res = []) (is : codings res = [v]) (chunked : lower v = chunkedWord)
      (proto : env.proto = http11) (part : said res <+: b.text) (all : dies res.body = false → said res = b.text)

structure Sane (statusMessage : Nat → Option Text) (env : Request) (res : Res) : Prop where
  proto : env.proto = http11 ∨ env.proto = "HTTP/1.0".toList
  status : 200 ≤ res.status ∧ res.status < 1000
  plain : ∀ k v,(k,some v) ∈ res.headers → ':' ∉ k ∧ '\n' ∉ k ∧ '\n' ∉ v
  message : '\n' ∉ statusMsg statusMessage res.status
  empty : statusWithNoEntityBody res.status = true → said res = []
  framed : bodyless env res = false → Framed env res

def trimmed (f : Text × Text) : Text × Text := (f.1,trim f.2)

structure Received (env : Request) (res : Res) (r : Reply) : Prop where
  status : r.status = res.status
  fields : ∃ added,r.fields = (kept res.headers).map trimmed ++ added ∧
    ∀ f ∈ added,f.1 ∈ [contentLength,transferEncoding,connectionName,dateName]
  empty : bodyless env res = true → r.body = []
  plain : bodyless env res = false → codings res = [] → r.body = said res
  chunked : bodyless env res = false → codings res ≠ [] → ∃ b : Body,said res = b.text ∧ r.body = b.data
  whole : bodyless env res = false → dies res.body = true → codings res = [] → ∃ v,lengths res = [v] ∧ (said res).length = Decimal.value v

/-! What is written -/

def term (res : Res) : Bool :=
  !(lengths res).isEmpty || (codings res).any (hasWord chunkedWord false) || statusWithNoEntityBody res.status ||
    match res.body with | .array _ => true | _ => false

def found (res : Res) : List (Text × Text) :=
  match res.body with
  | .array bufs =>
    if !(lengths res).isEmpty || (codings res).any (hasWord chunkedWord false) || statusWithNoEntityBody res.status then []
    else [(contentLength,Decimal.render (bufs.map List.length).sum)]
  | _ => []

def offers (env : Request) (term : Bool) : List (Text × Text) :=
  (if env.asks closeWord then [(connectionName,closeWord)] else []) ++
    if !term && env.proto == http11 then [(transferEncoding,chunkedWord)]
    else if env.asks closeWord then []
    else if term && (env.proto == http11 || env.asks keepAlive) then [(connectionName,keepAlive)]
    else [(connectionName,closeWord)]

def alive (env : Request) (term : Bool) : Bool := !env.asks closeWord && (env.proto == http11 || (term && env.asks keepAlive))

theorem connectIs (env : Request) (term : Bool) (h : Text) (chunked : Option Nat) :
    connect env term h chunked = ⟨h ++ (offers env term).flatMap field,
      if !term && env.proto == http11 && !env.head then chunked.or (some 2) else chunked,alive env term⟩ := by
  simp only [connect,offers,alive]
  cases env.asks closeWord <;> cases term <;> cases env.proto == http11 <;> cases env.asks keepAlive <;> cases env.head <;> simp

theorem valuesCons (name k v : Text) (fs : List (Text × Text)) :
    values name ((k,v) :: fs) = if lower k = name then v :: values name fs else values name fs := by
  rw [values,List.filterMap_cons]
  split_ifs <;> rfl

theorem valuesAppend (name : Text) (fs gs : List (Text × Text)) : values name (fs ++ gs) = values name fs ++ values name gs :=
  List.filterMap_append

theorem scanIs (s : Scan) (headers : List (Text × Option Text)) :
    (scan s headers).h = s.h ++ (kept headers).flatMap field ∧
      (scan s headers).len.isSome = (s.len.isSome || !(values (lower contentLength) (kept headers)).isEmpty) ∧
      (scan s headers).chunked = if (values (lower transferEncoding) (kept headers)).any (hasWord chunkedWord false) then some 1 else s.chunked := by
  induction headers generalizing s with
  | nil => simp [scan,kept,values]
  | cons header headers ih =>
    obtain ⟨k,_ | v⟩ := header
    · exact ih s
    · obtain ⟨h,len,chunked⟩ := ih (scanHeader s k v)
      rw [scan,kept,h,len,chunked,scanHeader]
      by_cases skipped : lower k = lower connectionName ∨ lower k = lower dateName
      · rw [if_pos skipped,if_pos skipped]
        exact ⟨rfl,rfl,rfl⟩
      · rw [if_neg skipped,if_neg skipped,valuesCons,valuesCons]
        refine ⟨by simp,?_,?_⟩
        · split_ifs <;> simp
        · by_cases coding : lower k = lower transferEncoding
          · cases word : hasWord chunkedWord false v <;> simp [coding,word]
          · simp [coding]

theorem planIs (statusMessage : Nat → Option Text) (env : Request) (res : Res) :
    plan statusMessage env res = ⟨statusLine statusMessage env res.status ++ crlf ++
        (kept res.headers ++ found res ++ offers env (term res)).flatMap field,
      if !term res && env.proto == http11 && !env.head then some 2
      else if (codings res).any (hasWord chunkedWord false) then some 1 else none,alive env (term res)⟩ := by
  obtain ⟨h,len,chunked⟩ := scanIs ⟨statusLine statusMessage env res.status ++ crlf,none,none⟩ res.headers
  have told : ((scan ⟨statusLine statusMessage env res.status ++ crlf,none,none⟩ res.headers).chunked).isSome =
      (codings res).any (hasWord chunkedWord false) := by
    rw [chunked,codings]
    split_ifs with any <;> simp [any]
  have length : ((scan ⟨statusLine statusMessage env res.status ++ crlf,none,none⟩ res.headers).len).isSome = !(lengths res).isEmpty := by
    rw [len,lengths]
    rfl
  rw [plan,term,found]
  simp only [length,told,connectIs]
  rw [h,chunked]
  generalize (lengths res).isEmpty = some,statusWithNoEntityBody res.status = none
  rw [codings]
  generalize (values (lower transferEncoding) (kept res.headers)).any (hasWord chunkedWord false) = coded
  cases res.body <;> cases some <;> cases coded <;> cases none <;> simp

/-! What is read of the head -/

def sent (now : Text) (env : Request) (res : Res) : List (Text × Text) :=
  kept res.headers ++ found res ++ offers env (term res) ++ [(dateName,now)]

def headText (statusMessage : Nat → Option Text) (now : Text) (env : Request) (res : Res) : Text :=
  statusLine statusMessage env res.status ++ crlf ++ (sent now env res).flatMap field ++ crlf

def minorOf (env : Request) : Nat := if env.proto = http11 then 1 else 0

def headRead (now : Text) (env : Request) (res : Res) : Head := ⟨minorOf env,res.status,(sent now env res).map trimmed⟩

theorem keptMem {headers : List (Text × Option Text)} {f : Text × Text} (mem : f ∈ kept headers) :
    (f.1,some f.2) ∈ headers ∧ lower f.1 ≠ lower connectionName ∧ lower f.1 ≠ lower dateName := by
  induction headers with
  | nil => cases mem
  | cons header headers ih =>
    obtain ⟨k,_ | v⟩ := header
    · obtain ⟨there,other⟩ := ih mem
      exact ⟨List.mem_cons_of_mem _ there,other⟩
    · rw [kept] at mem
      split at mem
      · obtain ⟨there,other⟩ := ih mem
        exact ⟨List.mem_cons_of_mem _ there,other⟩
      · rename_i other
        rcases List.mem_cons.mp mem with rfl | later
        · exact ⟨List.mem_cons_self,not_or.mp other⟩
        · obtain ⟨there,other⟩ := ih later
          exact ⟨List.mem_cons_of_mem _ there,other⟩

theorem foundNames {res : Res} {f : Text × Text} (mem : f ∈ found res) : f.1 = contentLength ∧ ∃ n,f.2 = Decimal.render n := by
  rw [found] at mem
  split at mem
  · split at mem
    · cases mem
    · rw [List.mem_singleton.mp mem]
      exact ⟨rfl,_,rfl⟩
  · cases mem

theorem offersNames {env : Request} {term : Bool} {f : Text × Text} (mem : f ∈ offers env term) :
    f.1 ∈ [transferEncoding,connectionName] ∧ f.2 ∈ [chunkedWord,closeWord,keepAlive] := by
  rw [offers] at mem
  rcases List.mem_append.mp mem with close | other
  · split at close
    · rw [List.mem_singleton.mp close]
      simp
    · cases close
  · split at other
    · rw [List.mem_singleton.mp other]
      simp
    · split at other
      · cases other
      · split at other
        · rw [List.mem_singleton.mp other]
          simp
        · rw [List.mem_singleton.mp other]
          simp

section
variable {statusMessage : Nat → Option Text} {now : Text} {env : Request} {res : Res}

theorem sentPlain (sane : Sane statusMessage env res) (clock : '\n' ∉ now) : ∀ f ∈ sent now env res,':' ∉ f.1 ∧ '\n' ∉ f.1 ∧ '\n' ∉ f.2 := by
  intro f mem
  simp only [sent,List.mem_append,List.mem_singleton] at mem
  rcases mem with ((mem | mem) | mem) | rfl
  · exact sane.plain _ _ (keptMem mem).1
  · obtain ⟨name,n,value⟩ := foundNames mem
    rw [name,value]
    exact ⟨by decide,by decide,fun newline => absurd (Decimal.renderDigits n _ newline) (by decide)⟩
  · obtain ⟨name,value⟩ := offersNames mem
    simp only [List.mem_cons,List.not_mem_nil,or_false] at name value
    refine ⟨?_,?_,?_⟩
    · rcases name with name | name <;> rw [name] <;> decide
    · rcases name with name | name <;> rw [name] <;> decide
    · rcases value with value | value | value <;> rw [value] <;> decide
  · exact ⟨show ':' ∉ dateName by decide,show '\n' ∉ dateName by decide,clock⟩

theorem protoPlain (sane : Sane statusMessage env res) : '\n' ∉ env.proto ∧ env.proto ≠ [] := by
  rcases sane.proto with is | is <;> rw [is] <;> decide

theorem headTakes (sane : Sane statusMessage env res) (clock : '\n' ∉ now) :
    ∃ lines,Takes (linesFrom []) (headText statusMessage now env res) lines ∧ headOf lines = some (headRead now env res) := by
  have text : headText statusMessage now env res =
      ((statusLine statusMessage env res.status :: (sent now env res).map fun f => f.1 ++ [':',' '] ++ f.2).flatMap (· ++ crlf)) ++ crlf := by
    rw [headText,List.flatMap_cons,List.flatMap_map]
    rfl
  rw [text]
  refine ⟨_,linesTake ?_,?_⟩
  · intro l mem
    rcases List.mem_cons.mp mem with rfl | mem
    · obtain ⟨plain,some⟩ := protoPlain sane
      have digits : '\n' ∉ Decimal.render res.status := fun newline => absurd (Decimal.renderDigits _ _ newline) (by decide)
      exact ⟨by simp [statusLine,plain,digits,sane.message],by simp [statusLine]⟩
    · obtain ⟨f,there,rfl⟩ := List.mem_map.mp mem
      obtain ⟨_,name,value⟩ := sentPlain sane clock f there
      exact ⟨by simp [name,value],by simp⟩
  · have minor : env.proto = "HTTP/1.1".toList ∧ minorOf env = 1 ∨ env.proto = "HTTP/1.0".toList ∧ minorOf env = 0 := by
      rcases sane.proto with is | is
      · exact .inl ⟨is,if_pos is⟩
      · exact .inr ⟨is,if_neg (by rw [is]; decide)⟩
    have status := statusRead minor (by have := sane.status.1; omega) sane.status.2 (statusMsg statusMessage res.status)
    rw [headOf,statusLine,status,Option.map_some,List.map_map]
    have fields : (sent now env res).map (fieldOf ∘ fun f => f.1 ++ [':',' '] ++ f.2) = (sent now env res).map trimmed :=
      List.map_congr_left fun f mem => fieldRead (sentPlain sane clock f mem).1 f.2
    rw [fields]
    rfl

theorem valuesTrimmed (name : Text) (fs : List (Text × Text)) : values name (fs.map trimmed) = (values name fs).map trim := by
  induction fs with
  | nil => rfl
  | cons f fs ih =>
    obtain ⟨k,v⟩ := f
    rw [List.map_cons,trimmed,valuesCons,valuesCons,ih]
    split_ifs <;> rfl

theorem valuesNone {name : Text} {fs : List (Text × Text)} (other : ∀ f ∈ fs,lower f.1 ≠ name) : values name fs = [] := by
  rw [values,List.filterMap_eq_nil_iff]
  exact fun f mem => if_neg (other f mem)

theorem foundOther {name : Text} (other : lower contentLength ≠ name) : values name (found res) = [] :=
  valuesNone fun f mem => by rw [(foundNames mem).1]; exact other

theorem readValues (name : Text) (other : lower dateName ≠ name) : values name (headRead now env res).fields =
    (values name (kept res.headers) ++ values name (found res) ++ values name (offers env (term res))).map trim := by
  rw [headRead,valuesTrimmed,sent,valuesAppend,valuesAppend,valuesAppend,valuesCons,if_neg other]
  rw [show values name [] = [] from rfl,List.append_nil]

theorem offersConnection (env : Request) (term : Bool) : members ((values (lower connectionName) (offers env term)).map trim) =
    if env.asks closeWord then [closeWord] else if !term && env.proto == http11 then []
    else if term && (env.proto == http11 || env.asks keepAlive) then [keepAlive] else [closeWord] := by
  rw [offers]
  split_ifs <;> decide

theorem offersCoding (env : Request) (term : Bool) : values (lower transferEncoding) (offers env term) =
    if !term && env.proto == http11 then [chunkedWord] else [] := by
  rw [offers]
  split_ifs <;> decide

theorem offersLength (env : Request) (term : Bool) : values (lower contentLength) (offers env term) = [] := by
  rw [offers]
  split_ifs <;> decide

theorem persistsAlive {f : Framing} (bounded : f ≠ .toClose) : persists (headRead now env res) f = alive env (term res) := by
  have options : members (values "connection".toList (headRead now env res).fields) = members ((values (lower connectionName) (offers env (term res))).map trim) := by
    have name : "connection".toList = lower connectionName := by decide
    have none : values (lower connectionName) (kept res.headers) = [] := valuesNone fun f mem => (keptMem mem).2.1
    rw [name,readValues _ (by decide),none,foundOther (by decide)]
    rfl
  have minor : decide (1 ≤ (headRead now env res).minor) = (env.proto == http11) := by
    rw [headRead,minorOf]
    by_cases is : env.proto = http11 <;> simp [is]
  have same : persists (headRead now env res) f =
      (!(members (values "connection".toList (headRead now env res).fields)).any (fun m => m = "close".toList) &&
        (decide (1 ≤ (headRead now env res).minor) ||
          (members (values "connection".toList (headRead now env res).fields)).any fun m => m = "keep-alive".toList)) := by
    cases f with
    | toClose => exact absurd rfl bounded
    | empty | chunked | length => rfl
  rw [same,options,minor,offersConnection,alive]
  cases env.asks closeWord <;> cases term res <;> cases env.proto == http11 <;> cases env.asks keepAlive <;> decide

/-! Where the body ends -/

theorem trimSame {v : Text} (none : ∀ c ∈ v,isBlank c = false) : trim v = v := by
  have front : v.dropWhile isBlank = v := by
    cases v with
    | nil => rfl
    | cons c cs => exact List.dropWhile_cons_of_neg (by rw [none c List.mem_cons_self]; exact Bool.false_ne_true)
  have back : v.reverse.dropWhile isBlank = v.reverse := by
    cases is : v.reverse with
    | nil => rfl
    | cons c cs =>
      have mem : c ∈ v := List.mem_reverse.mp (by rw [is]; exact List.mem_cons_self)
      exact List.dropWhile_cons_of_neg (by rw [none c mem]; exact Bool.false_ne_true)
  rw [trim,front,back,List.reverse_reverse]

theorem notBlank {c : Char} (space : c ≠ ' ') (tab : c ≠ '\t') : isBlank c = false := by
  rw [isBlank,Bool.or_eq_false_iff,beq_eq_false_iff_ne,beq_eq_false_iff_ne]
  exact ⟨space,tab⟩

theorem trimDigits {v : Text} (digits : v.all Char.isDigit = true) : trim v = v := by
  refine trimSame fun c mem => ?_
  have digit := List.all_eq_true.mp digits c mem
  exact notBlank (fun is => absurd (is ▸ digit) (by decide)) fun is => absurd (is ▸ digit) (by decide)

theorem chunkedLetters {v : Text} (chunked : lower v = chunkedWord) : ∀ c ∈ v,isBlank c = false ∧ c ≠ ',' := by
  intro c mem
  have letter : c.toLower ∈ chunkedWord := chunked ▸ List.mem_map_of_mem mem
  have other {d : Char} (strange : d.toLower ∉ chunkedWord) : c ≠ d := fun is => strange (is ▸ letter)
  exact ⟨notBlank (other (by decide)) (other (by decide)),other (by decide)⟩

theorem chunkedCoding {v : Text} (chunked : lower v = chunkedWord) : members [trim v] = [chunkedWord] := by
  have letters := chunkedLetters chunked
  have trims := trimSame fun c mem => (letters c mem).1
  have one : v.splitOn ',' = [v] := List.splitOn_eq_singleton fun comma => (letters _ comma).2 rfl
  rw [trims,members,List.flatMap_singleton,one,List.map_singleton,trims,chunked]

theorem chunkedAsked {v : Text} (chunked : lower v = chunkedWord) : hasWord chunkedWord false v = true := by
  have size : v.length = chunkedWord.length := by rw [← chunked,lower,List.length_map]
  cases v with
  | nil => cases size
  | cons c cs =>
    rw [hasWord,← size,List.take_length,List.drop_length,chunked]
    rfl

theorem framedEmpty (none : bodyless env res = true) : framing env.head (headRead now env res) = some .empty := by
  refine if_pos ?_
  simpa [bodyless,statusWithNoEntityBody,or_assoc,headRead] using none

theorem framedOther (some : bodyless env res = false) : framing env.head (headRead now env res) =
    match (members (values "transfer-encoding".toList (headRead now env res).fields)).getLast? with
    | .some coding => .some (if coding = "chunked".toList then .chunked else .toClose)
    | none => match values "content-length".toList (headRead now env res).fields with
      | [] => .some .toClose
      | v :: vs => if v ≠ [] ∧ v.all Char.isDigit ∧ ∀ w ∈ vs,w = v then .some (.length (Decimal.value v)) else none := by
  refine if_neg ?_
  simpa [bodyless,statusWithNoEntityBody,and_assoc,headRead] using some

theorem readCodings : values "transfer-encoding".toList (headRead now env res).fields =
    (codings res ++ if !term res && env.proto == http11 then [chunkedWord] else []).map trim := by
  have name : "transfer-encoding".toList = lower transferEncoding := by decide
  rw [name,readValues _ (by decide),foundOther (by decide),offersCoding,List.append_nil]
  rfl

theorem readLengths : values "content-length".toList (headRead now env res).fields = (lengths res ++ (found res).map Prod.snd).map trim := by
  have name : "content-length".toList = lower contentLength := by decide
  have own : values (lower contentLength) (found res) = (found res).map Prod.snd := by
    rw [found]
    split
    · split_ifs <;> rfl
    · rfl
  rw [name,readValues _ (by decide),offersLength,List.append_nil,own]
  rfl

theorem framedLength (some : bodyless env res = false) {v : Text} (noCoding : codings res = []) (told : term res = true)
    (is : lengths res ++ (found res).map Prod.snd = [v]) (digits : v ≠ [] ∧ v.all Char.isDigit = true) :
    framing env.head (headRead now env res) = .some (.length (Decimal.value v)) := by
  rw [framedOther some,readCodings,readLengths,noCoding,told,is,List.map_singleton,trimDigits digits.2]
  exact if_pos ⟨digits.1,digits.2,fun _ mem => absurd mem List.not_mem_nil⟩

theorem framedChunks (some : bodyless env res = false) {v : Text} (chunked : lower v = chunkedWord)
    (is : (codings res ++ if !term res && env.proto == http11 then [chunkedWord] else []) = [v]) :
    framing env.head (headRead now env res) = .some .chunked := by
  rw [framedOther some,readCodings,is,List.map_singleton,chunkedCoding chunked]
  rfl

theorem framedClose (some : bodyless env res = false) (noCoding : codings res = []) (noLength : lengths res = []) (none : found res = [])
    (old : (env.proto == http11) = false) : framing env.head (headRead now env res) = .some .toClose := by
  rw [framedOther some,readCodings,readLengths,noCoding,noLength,none,old,Bool.and_false]
  rfl

end

/-! What is written behind the head -/

def endingOf (head alive : Bool) : Content → Ending
  | .handle _ .closeDies => .breaks
  | .handle _ .getlineDies => if head then (if alive then .keeps else .closes) else .breaks
  | _ => if alive then .keeps else .closes

theorem endingLive {head alive : Bool} {body : Content} (live : endingOf head alive body ≠ .breaks) :
    endingOf head alive body = (if alive then .keeps else .closes) ∧ (head = false → dies body = false) := by
  cases body with
  | array bufs => exact ⟨rfl,fun _ => rfl⟩
  | push bufs => exact ⟨rfl,fun _ => rfl⟩
  | handle bufs fate =>
    cases fate with
    | done => exact ⟨rfl,fun _ => rfl⟩
    | closeDies => exact absurd rfl live
    | getlineDies =>
      cases head with
      | true => exact ⟨rfl,fun off => nomatch off⟩
      | false => exact absurd rfl live

theorem writeHead (doChunk alive : Bool) (body : Content) : writeBody true doChunk alive body = ([],endingOf true alive body) := by
  cases body with
  | array bufs => rfl
  | handle bufs fate => cases fate <;> rfl
  | push bufs => rfl

theorem pullPlain (alive : Bool) (fate : Fate) (bufs : List Text) :
    getlinePull false alive fate bufs = (bufs.flatten,endingOf false alive (.handle bufs fate)) := by
  induction bufs with
  | nil => cases fate <;> rfl
  | cons buf bufs ih =>
    rw [getlinePull,ih]
    cases fate <;> rfl

theorem writePlain (alive : Bool) (body : Content) : writeBody false false alive body = ((pieces body).flatten,endingOf false alive body) := by
  cases body with
  | array bufs => exact Prod.ext (List.append_nil _) rfl
  | handle bufs fate => exact pullPlain alive fate bufs
  | push bufs => exact Prod.ext ((List.append_nil _).trans List.flatMap_id) rfl

theorem pullChunked (alive : Bool) (fate : Fate) (bufs : List Text) : getlinePull true alive fate bufs =
    (bufs.flatMap chunkedWrite ++ (if endingOf false alive (.handle bufs fate) = .breaks then [] else "0\r\n\r\n".toList),
      endingOf false alive (.handle bufs fate)) := by
  induction bufs with
  | nil => cases fate <;> cases alive <;> rfl
  | cons buf bufs ih =>
    rw [getlinePull,ih,List.flatMap_cons,List.append_assoc]
    cases fate <;> rfl

theorem writeChunked (alive : Bool) {body : Content} (other : ∀ bufs,body ≠ .array bufs) : writeBody false true alive body =
    ((pieces body).flatMap chunkedWrite ++ (if endingOf false alive body = .breaks then [] else "0\r\n\r\n".toList),endingOf false alive body) := by
  cases body with
  | array bufs => exact absurd rfl (other bufs)
  | handle bufs fate => exact pullChunked alive fate bufs
  | push bufs => cases alive <;> rfl

/-! One response -/

section
variable {statusMessage : Nat → Option Text} {now : Text} {env : Request} {res : Res}

def replyOf (now : Text) (env : Request) (res : Res) (body : Text) : Reply := ⟨res.status,(sent now env res).map trimmed,body⟩

theorem restIs {lines : List Text} {h : Head} {f : Framing} (head : headOf lines = some h) (ends : framing env.head h = some f) (closed : Bool) :
    takeRest closed env.head lines = given (fun body => (⟨h.status,h.fields,body⟩,persists h f)) (takeBody closed f) := by
  rw [takeRest,head]
  dsimp only
  rw [ends]

theorem replyTakes (sane : Sane statusMessage env res) (clock : '\n' ∉ now) {f : Framing} (ends : framing env.head (headRead now env res) = some f)
    {closed : Bool} {body content : Text} (takes : Takes (takeBody closed f) body content) :
    Takes (takeReply closed env.head) (headText statusMessage now env res ++ body) (replyOf now env res content,persists (headRead now env res) f) := by
  obtain ⟨lines,found,head⟩ := headTakes sane clock
  refine found.andThen ?_
  rw [restIs head ends]
  exact takes.given _

theorem responseIs : responseWrite statusMessage now env res =
    (headText statusMessage now env res ++
        (writeBody env.head (!term res && env.proto == http11 && !env.head) (alive env (term res)) res.body).1,
      (writeBody env.head (!term res && env.proto == http11 && !env.head) (alive env (term res)) res.body).2) := by
  have doChunk : ((plan statusMessage env res).chunked == some 2) = (!term res && env.proto == http11 && !env.head) := by
    rw [planIs]
    dsimp only
    split_ifs with auto own
    · exact auto.symm
    · exact (Bool.not_eq_true _ ▸ auto).symm
    · exact (Bool.not_eq_true _ ▸ auto).symm
  rw [responseWrite,doChunk,planIs,headText,sent]
  simp

theorem fieldsKept (body : Text) : ∃ added,(replyOf now env res body).fields = (kept res.headers).map trimmed ++ added ∧
    ∀ f ∈ added,f.1 ∈ [contentLength,transferEncoding,connectionName,dateName] := by
  refine ⟨(found res ++ offers env (term res) ++ [(dateName,now)]).map trimmed,by simp [replyOf,sent],?_⟩
  intro f mem
  obtain ⟨g,there,rfl⟩ := List.mem_map.mp mem
  simp only [List.mem_append,List.mem_singleton] at there
  rcases there with (there | there) | rfl
  · rw [trimmed,(foundNames there).1]
    exact List.mem_cons_self
  · have name := (offersNames there).1
    simp only [List.mem_cons,List.not_mem_nil,or_false] at name
    rcases name with name | name <;> rw [trimmed,name] <;> simp
  · simp [trimmed]

theorem receivedPlain (some : bodyless env res = false) (noCoding : codings res = [])
    (whole : dies res.body = true → ∃ v,lengths res = [v] ∧ (said res).length = Decimal.value v) :
    Received env res (replyOf now env res (said res)) :=
  ⟨rfl,fieldsKept _,fun none => Bool.noConfusion (some.symm.trans none),fun _ _ => rfl,fun _ coded => absurd noCoding coded,
    fun _ died _ => whole died⟩

inductive Exchange (env : Request) (res : Res) (t : Text) (ending : Ending) : Prop where
  | framed (missing : Text) (reply : Reply) (again : Bool)
      (takes : ∀ closed,Takes (takeReply closed env.head) (t ++ missing) (reply,again))
      (received : missing = [] → Received env res reply)
      (whole : ending ≠ .breaks → missing = [] ∧ ending = if again then .keeps else .closes)
  | toClose (reply : Reply) (old : env.proto ≠ http11) (ends : ending ≠ .keeps)
      (received : ending = .closes → Received env res reply)
      (last : takeReply true env.head t = some ((reply,false),[]))
      (none : ∀ p q,t = p ++ q → takeReply false env.head p = none)

theorem bodylessExchange (sane : Sane statusMessage env res) (clock : '\n' ∉ now) (none : bodyless env res = true) :
    Exchange env res (responseWrite statusMessage now env res).1 (responseWrite statusMessage now env res).2 := by
  have body : writeBody env.head (!term res && env.proto == http11 && !env.head) (alive env (term res)) res.body =
      ([],endingOf env.head (alive env (term res)) res.body) := by
    cases head : env.head with
    | true => exact writeHead _ _ _
    | false =>
      have entity : statusWithNoEntityBody res.status = true := by simpa [bodyless,head] using none
      have told : term res = true := by simp [term,entity]
      have empty : (pieces res.body).flatten = [] := sane.empty entity
      rw [told,Bool.not_true,Bool.false_and,Bool.false_and,writePlain,empty]
  rw [responseIs,body]
  refine .framed [] (replyOf now env res []) (alive env (term res)) (fun closed => ?_) (fun _ => ?_) fun live => ⟨rfl,(endingLive live).1⟩
  · have bounded : Framing.empty ≠ .toClose := Framing.noConfusion
    have takes : Takes (takeReply closed env.head) (headText statusMessage now env res ++ []) _ :=
      replyTakes sane clock (framedEmpty none) (nothingTakes [])
    rw [persistsAlive bounded] at takes
    rwa [List.append_nil]
  · have off : bodyless env res = false → False := fun is => Bool.noConfusion (none.symm.trans is)
    exact ⟨rfl,fieldsKept [],fun _ => rfl,fun is => (off is).elim,fun is => (off is).elim,fun is => (off is).elim⟩

theorem plainExchange (sane : Sane statusMessage env res) (clock : '\n' ∉ now) (some : bodyless env res = false)
    (asGiven : (!term res && env.proto == http11) = false) {f : Framing} (ends : framing env.head (headRead now env res) = .some f)
    (bounded : f ≠ .toClose) {missing content : Text} (takes : ∀ closed,Takes (takeBody closed f) (said res ++ missing) content)
    (whole : dies res.body = false → missing = []) (received : missing = [] → Received env res (replyOf now env res content)) :
    Exchange env res (responseWrite statusMessage now env res).1 (responseWrite statusMessage now env res).2 := by
  have head : env.head = false := (Bool.or_eq_false_iff.mp some).1
  have body : writeBody env.head (!term res && env.proto == http11 && !env.head) (alive env (term res)) res.body =
      (said res,endingOf false (alive env (term res)) res.body) := by
    rw [asGiven,head]
    exact writePlain _ _
  rw [responseIs,body]
  refine .framed missing (replyOf now env res content) (alive env (term res)) (fun closed => ?_) received fun live => ?_
  · have found := replyTakes sane clock ends (takes closed)
    rw [persistsAlive bounded] at found
    rwa [List.append_assoc]
  · obtain ⟨ending,lives⟩ := endingLive live
    exact ⟨whole (lives rfl),ending⟩

theorem untoldOther (untold : term res = false) : ∀ bufs,res.body ≠ .array bufs := by
  intro bufs is
  rw [term,is,Bool.or_true] at untold
  cases untold

theorem chunkedExchange (sane : Sane statusMessage env res) (clock : '\n' ∉ now) (some : bodyless env res = false)
    (noCoding : codings res = []) (new : env.proto = http11) (untold : term res = false) :
    Exchange env res (responseWrite statusMessage now env res).1 (responseWrite statusMessage now env res).2 := by
  have head : env.head = false := (Bool.or_eq_false_iff.mp some).1
  have auto : (!term res && env.proto == http11) = true := by rw [untold,new]; rfl
  have body : writeBody env.head (!term res && env.proto == http11 && !env.head) (alive env (term res)) res.body =
      ((pieces res.body).flatMap chunkedWrite ++
        (if endingOf false (alive env (term res)) res.body = .breaks then [] else "0\r\n\r\n".toList),
        endingOf false (alive env (term res)) res.body) := by
    rw [auto,head]
    exact writeChunked _ (untoldOther untold)
  have ends : framing env.head (headRead now env res) = .some .chunked := framedChunks some (v := chunkedWord) (by decide) (by rw [noCoding,auto]; rfl)
  rw [responseIs,body]
  refine .framed (if endingOf false (alive env (term res)) res.body = .breaks then "0\r\n\r\n".toList else [])
    (replyOf now env res (said res)) (alive env (term res)) (fun closed => ?_) (fun all => ?_) fun live => ⟨if_neg live,(endingLive live).1⟩
  · have takes := bodyTakes closed (bodyOf (pieces res.body))
    rw [bodyOfText,bodyOfData] at takes
    have bounded : Framing.chunked ≠ .toClose := Framing.noConfusion
    have found := replyTakes sane clock ends takes
    rw [persistsAlive bounded] at found
    have text : (headText statusMessage now env res ++ ((pieces res.body).flatMap chunkedWrite ++
        (if endingOf false (alive env (term res)) res.body = .breaks then [] else "0\r\n\r\n".toList))) ++
        (if endingOf false (alive env (term res)) res.body = .breaks then "0\r\n\r\n".toList else []) =
        headText statusMessage now env res ++ ((pieces res.body).flatMap chunkedWrite ++ "0\r\n\r\n".toList) := by
      split_ifs <;> simp
    rw [text]
    exact found
  · have live : endingOf false (alive env (term res)) res.body ≠ .breaks := by
      intro breaks
      rw [if_pos breaks] at all
      cases all
    exact receivedPlain some noCoding fun died => Bool.noConfusion (((endingLive live).2 rfl).symm.trans died)

theorem closeExchange (sane : Sane statusMessage env res) (clock : '\n' ∉ now) (some : bodyless env res = false)
    (noLength : lengths res = []) (noCoding : codings res = []) (old : env.proto ≠ http11) (untold : term res = false) :
    Exchange env res (responseWrite statusMessage now env res).1 (responseWrite statusMessage now env res).2 := by
  have head : env.head = false := (Bool.or_eq_false_iff.mp some).1
  have oldProto : (env.proto == http11) = false := beq_eq_false_iff_ne.mpr old
  have none : found res = [] := by
    rw [found]
    split
    · rename_i is
      exact absurd is (untoldOther untold _)
    · rfl
  have dead : alive env (term res) = false := by rw [alive,untold,oldProto]; simp
  have body : writeBody env.head (!term res && env.proto == http11 && !env.head) (alive env (term res)) res.body =
      (said res,endingOf false false res.body) := by
    rw [oldProto,Bool.and_false,Bool.false_and,head,dead]
    exact writePlain _ _
  have ends : framing env.head (headRead now env res) = .some .toClose := framedClose some noCoding noLength none oldProto
  obtain ⟨lines,read,is⟩ := headTakes sane clock
  rw [responseIs,body]
  refine .toClose (replyOf now env res (said res)) old ?_ (fun closes => ?_) ?_ fun p q split => ?_
  · intro keeps
    have keeps : endingOf false false res.body = .keeps := keeps
    have shut := (@endingLive false false res.body (by rw [keeps]; exact Ending.noConfusion)).1
    exact Ending.noConfusion (keeps.symm.trans shut)
  · have closes : endingOf false false res.body = .closes := closes
    have lives := (@endingLive false false res.body (by rw [closes]; exact Ending.noConfusion)).2 rfl
    exact receivedPlain some noCoding fun died => Bool.noConfusion (lives.symm.trans died)
  · rw [takeReply,andThenFound (read.whole _),restIs is ends]
    rfl
  · rw [takeReply]
    rcases read.cases split.symm with ⟨left,found,_,_⟩ | ⟨found,_⟩
    · rw [andThenFound found,restIs is ends]
      rfl
    · exact andThenNone found

theorem arrayExchange (sane : Sane statusMessage env res) (clock : '\n' ∉ now) (some : bodyless env res = false)
    (noLength : lengths res = []) (noCoding : codings res = []) {bufs : List Text} (array : res.body = .array bufs) :
    Exchange env res (responseWrite statusMessage now env res).1 (responseWrite statusMessage now env res).2 := by
  have entity : statusWithNoEntityBody res.status = false := (Bool.or_eq_false_iff.mp some).2
  have told : term res = true := by simp [term,array]
  have length : found res = [(contentLength,Decimal.render (said res).length)] := by
    rw [found,noLength,noCoding,entity,said,array]
    simp [pieces]
  have lives : dies res.body = false := by rw [array]; rfl
  have ends : framing env.head (headRead now env res) = _ := framedLength some noCoding told (by rw [noLength,length]; rfl)
    ⟨Decimal.renderSome _,List.all_eq_true.mpr (Decimal.renderDigits (said res).length)⟩
  rw [Decimal.valueRender] at ends
  refine @plainExchange _ _ _ _ sane clock some (by rw [told]; rfl) _ ends Framing.noConfusion [] (said res) (fun closed => ?_) (fun _ => rfl) fun _ => ?_
  · rw [List.append_nil]
    exact countTakes (said res)
  · exact receivedPlain some noCoding fun died => Bool.noConfusion (lives.symm.trans died)

theorem untoldExchange (sane : Sane statusMessage env res) (clock : '\n' ∉ now) (some : bodyless env res = false)
    (noLength : lengths res = []) (noCoding : codings res = []) (other : ∀ bufs,res.body ≠ .array bufs) :
    Exchange env res (responseWrite statusMessage now env res).1 (responseWrite statusMessage now env res).2 := by
  have entity : statusWithNoEntityBody res.status = false := (Bool.or_eq_false_iff.mp some).2
  have noArray : (match res.body with | .array _ => true | _ => false) = false := by
    cases body : res.body with
    | array bufs => exact absurd body (other bufs)
    | handle | push => rfl
  have untold : term res = false := by rw [term,noArray,noLength,noCoding,entity]; rfl
  rcases sane.proto with new | old
  · exact chunkedExchange sane clock some noCoding new untold
  · exact closeExchange sane clock some noLength noCoding (by rw [old]; decide) untold

theorem lengthExchange (sane : Sane statusMessage env res) (clock : '\n' ∉ now) (some : bodyless env res = false) {v : Text}
    (is : lengths res = [v]) (noCoding : codings res = []) (digits : v ≠ [] ∧ v.all Char.isDigit = true)
    (fits : (said res).length ≤ Decimal.value v) (all : dies res.body = false → (said res).length = Decimal.value v) :
    Exchange env res (responseWrite statusMessage now env res).1 (responseWrite statusMessage now env res).2 := by
  have told : term res = true := by simp [term,is]
  have own : found res = [] := by
    rw [found,is]
    split <;> rfl
  have ends : framing env.head (headRead now env res) = _ := framedLength some noCoding told (by rw [is,own]; rfl) digits
  obtain ⟨missing,size⟩ : ∃ missing : Text,(said res).length + missing.length = Decimal.value v :=
    ⟨List.replicate (Decimal.value v - (said res).length) ' ',by rw [List.length_replicate]; omega⟩
  refine @plainExchange _ _ _ _ sane clock some (by rw [told]; rfl) _ ends Framing.noConfusion missing (said res ++ missing)
    (fun closed => ?_) (fun lives => ?_) fun full => ?_
  · have takes := countTakes (said res ++ missing)
    rw [List.length_append,size] at takes
    exact takes
  · have same := all lives
    exact List.eq_nil_of_length_eq_zero (by omega)
  · rw [full,List.length_nil,Nat.add_zero] at size
    rw [full,List.append_nil]
    exact receivedPlain some noCoding fun _ => ⟨v,is,size⟩

theorem chunksExchange (sane : Sane statusMessage env res) (clock : '\n' ∉ now) (some : bodyless env res = false) {v : Text} {b : Body}
    (is : codings res = [v]) (chunked : lower v = chunkedWord) (part : said res <+: b.text)
    (all : dies res.body = false → said res = b.text) :
    Exchange env res (responseWrite statusMessage now env res).1 (responseWrite statusMessage now env res).2 := by
  obtain ⟨missing,part⟩ := part
  have told : term res = true := by simp [term,is,chunkedAsked chunked]
  have ends : framing env.head (headRead now env res) = .some .chunked := framedChunks some chunked (by rw [is,told]; rfl)
  refine @plainExchange _ _ _ _ sane clock some (by rw [told]; rfl) _ ends Framing.noConfusion missing b.data (fun closed => ?_)
    (fun lives => ?_) fun full => ?_
  · rw [part]
    exact bodyTakes closed b
  · rw [all lives] at part
    exact List.append_right_eq_self.mp part
  · rw [full,List.append_nil] at part
    have coded : codings res ≠ [] := by rw [is]; exact List.cons_ne_nil _ _
    exact ⟨rfl,fieldsKept _,fun none => Bool.noConfusion (some.symm.trans none),fun _ noCoding => absurd noCoding coded,fun _ _ => ⟨b,part,rfl⟩,
      fun _ _ noCoding => absurd noCoding coded⟩

theorem exchange (sane : Sane statusMessage env res) (clock : '\n' ∉ now) :
    Exchange env res (responseWrite statusMessage now env res).1 (responseWrite statusMessage now env res).2 := by
  cases none : bodyless env res with
  | true => exact bodylessExchange sane clock none
  | false =>
    rcases sane.framed none with ⟨noLength,noCoding⟩ | ⟨v,is,noCoding,digits,fits,all⟩ | ⟨v,b,noLength,is,chunked,proto,part,all⟩
    · cases body : res.body with
      | array bufs => exact arrayExchange sane clock none noLength noCoding body
      | handle | push => exact untoldExchange sane clock none noLength noCoding fun bufs is => by rw [body] at is; cases is
    · exact lengthExchange sane clock none is noCoding digits fits all
    · exact chunksExchange sane clock none is chunked part all

end

/-! A connection -/

section
variable (statusMessage : Nat → Option Text) (now : Text)

def begun : List (Request × Res) → List (Request × Res)
  | [] => []
  | e :: es => e :: if (responseWrite statusMessage now e.1 e.2).2 = .keeps then begun es else []

def heads (es : List (Request × Res)) : List Bool := es.map fun e => e.1.head

/- A client has all replies and goes on where the server does. Of a connection that breaks off anywhere it has the
first replies; a client of HTTP/1.1 knows that also where the connection is closed. -/
structure Understood (es : List (Request × Res)) : Prop where
  whole : (connection statusMessage now es).2 ≠ .breaks →
    List.Forall₂ (fun e r => Received e.1 e.2 r) (begun statusMessage now es)
      (replies ((connection statusMessage now es).2 == .closes) (heads es) (connection statusMessage now es).1).1 ∧
    (replies ((connection statusMessage now es).2 == .closes) (heads es) (connection statusMessage now es).1).2 =
      ((connection statusMessage now es).2 == .keeps)
  part : ∀ closed,(closed = true → ∀ e ∈ es,e.1.proto = http11) → ∀ p,p <+: (connection statusMessage now es).1 →
    ∃ n,List.Forall₂ (fun e r => Received e.1 e.2 r) ((begun statusMessage now es).take n) (replies closed (heads es) p).1

end

section
variable {statusMessage : Nat → Option Text} {now : Text} {closed head : Bool} {hs : List Bool} {buf rest : Text} {reply : Reply}

theorem repliesMore (found : takeReply closed head buf = some ((reply,true),rest)) :
    replies closed (head :: hs) buf = (reply :: (replies closed hs rest).1,(replies closed hs rest).2) := by
  rw [replies,found]

theorem repliesLast (found : takeReply closed head buf = some ((reply,false),rest)) : replies closed (head :: hs) buf = ([reply],false) := by
  rw [replies,found]

theorem repliesNone (none : takeReply closed head buf = .none) : replies closed (head :: hs) buf = ([],true) := by
  rw [replies,none]

theorem repliesNil (closed : Bool) (hs : List Bool) : replies closed hs [] = ([],true) := by
  cases hs with
  | nil => rfl
  | cons head hs => exact repliesNone (andThenNone rfl)

theorem repliesOne {again : Bool} (found : takeReply closed head buf = some ((reply,again),[])) : (replies closed (head :: hs) buf).1 = [reply] := by
  cases again with
  | true => rw [repliesMore found,repliesNil]
  | false => rw [repliesLast found]

theorem repliesPart {e : Request × Res} {t missing p : Text} {again : Bool} (takes : Takes (takeReply closed e.1.head) (t ++ missing) (reply,again))
    (received : missing = [] → Received e.1 e.2 reply) (part : p <+: t) :
    ∃ n,List.Forall₂ (fun e r => Received e.1 e.2 r) ([e].take n) (replies closed (e.1.head :: hs) p).1 := by
  obtain ⟨q,rfl⟩ := part
  have text : p ++ (q ++ missing) = p ++ q ++ missing ++ [] := by simp
  rcases takes.cases text with ⟨left,found,_,follows⟩ | ⟨none,_⟩
  · obtain ⟨rfl,more⟩ := List.append_eq_nil_iff.mp follows
    refine ⟨1,?_⟩
    rw [repliesOne found]
    exact .cons (received (List.append_eq_nil_iff.mp more).2) .nil
  · refine ⟨0,?_⟩
    rw [repliesNone none]
    exact .nil

theorem exchangePart {e : Request × Res} {t p : Text} {ending : Ending} (one : Exchange e.1 e.2 t ending)
    (new : closed = true → e.1.proto = http11) (part : p <+: t) :
    ∃ n,List.Forall₂ (fun e r => Received e.1 e.2 r) ([e].take n) (replies closed (e.1.head :: hs) p).1 := by
  rcases one with ⟨missing,reply,again,takes,received,_⟩ | ⟨_,old,_,_,_,none⟩
  · exact repliesPart (takes closed) received part
  · obtain ⟨q,split⟩ := part
    refine ⟨0,?_⟩
    cases closed with
    | true => exact absurd (new rfl) old
    | false =>
      rw [repliesNone (none p q split.symm)]
      exact .nil

theorem exchangeKept {e : Request × Res} {t : Text} (one : Exchange e.1 e.2 t .keeps) :
    ∃ reply,Received e.1 e.2 reply ∧ ∀ closed,Takes (takeReply closed e.1.head) t (reply,true) := by
  rcases one with ⟨missing,reply,again,takes,received,whole⟩ | ⟨_,_,ends,_,_,_⟩
  · obtain ⟨rfl,is⟩ := whole Ending.noConfusion
    cases again with
    | false => cases is
    | true =>
      rw [List.append_nil] at takes
      exact ⟨reply,received rfl,takes⟩
  · exact absurd rfl ends

theorem exchangeLast {e : Request × Res} {t : Text} (one : Exchange e.1 e.2 t .closes) :
    ∃ reply rest,Received e.1 e.2 reply ∧ takeReply true e.1.head t = some ((reply,false),rest) := by
  rcases one with ⟨missing,reply,again,takes,received,whole⟩ | ⟨reply,_,_,received,last,_⟩
  · obtain ⟨rfl,is⟩ := whole Ending.noConfusion
    cases again with
    | true => cases is
    | false =>
      have found := (takes true).whole []
      rw [List.append_nil,List.append_nil] at found
      exact ⟨reply,[],received rfl,found⟩
  · exact ⟨reply,[],received rfl,last⟩

theorem keptUnderstood {e : Request × Res} {es : List (Request × Res)} {t : Text} (written : responseWrite statusMessage now e.1 e.2 = (t,.keeps))
    (one : Exchange e.1 e.2 t .keeps) (later : Understood statusMessage now es) : Understood statusMessage now (e :: es) := by
  have text : connection statusMessage now (e :: es) = (t ++ (connection statusMessage now es).1,(connection statusMessage now es).2) := by
    rw [connection,written]
  have all : begun statusMessage now (e :: es) = e :: begun statusMessage now es := by rw [begun,written,if_pos rfl]
  obtain ⟨reply,received,takes⟩ := exchangeKept one
  refine ⟨fun live => ?_,fun closed new p part => ?_⟩
  · rw [text] at live ⊢
    obtain ⟨replied,goes⟩ := later.whole live
    rw [all,heads,List.map_cons,repliesMore ((takes _).whole _)]
    exact ⟨.cons received replied,goes⟩
  · rw [text] at part
    obtain ⟨q,split⟩ := part
    rcases (takes closed).cases split with ⟨left,found,_,follows⟩ | ⟨none,_⟩
    · obtain ⟨n,replied⟩ := later.part closed (fun is e mem => new is e (List.mem_cons_of_mem _ mem)) left ⟨q,follows⟩
      refine ⟨n + 1,?_⟩
      rw [all,heads,List.map_cons,repliesMore found]
      exact .cons received replied
    · refine ⟨0,?_⟩
      rw [heads,List.map_cons,repliesNone none]
      exact .nil

theorem endedUnderstood {e : Request × Res} {t : Text} {ending : Ending} (written : responseWrite statusMessage now e.1 e.2 = (t,ending))
    (ends : ending ≠ .keeps) (one : Exchange e.1 e.2 t ending) (es : List (Request × Res)) : Understood statusMessage now (e :: es) := by
  have text : connection statusMessage now (e :: es) = (t,ending) := by
    rw [connection,written]
    cases ending with
    | keeps => exact absurd rfl ends
    | closes | breaks => rfl
  have all : begun statusMessage now (e :: es) = [e] := by rw [begun,written,if_neg ends]
  refine ⟨fun live => ?_,fun closed new p part => ?_⟩
  · rw [text] at live ⊢
    cases ending with
    | keeps => exact absurd rfl ends
    | breaks => exact absurd rfl live
    | closes =>
      obtain ⟨reply,rest,received,last⟩ := exchangeLast one
      rw [all,heads,List.map_cons]
      dsimp only
      rw [beq_self_eq_true,repliesLast last]
      exact ⟨.cons received .nil,rfl⟩
  · rw [text] at part
    rw [all,heads,List.map_cons]
    exact exchangePart one (fun is => new is e List.mem_cons_self) part

theorem clientUnderstands (es : List (Request × Res)) (clock : '\n' ∉ now) (sane : ∀ e ∈ es,Sane statusMessage e.1 e.2) :
    Understood statusMessage now es := by
  induction es with
  | nil => exact ⟨fun _ => ⟨.nil,rfl⟩,fun _ _ _ _ => ⟨0,.nil⟩⟩
  | cons e es ih =>
    have later := ih fun e mem => sane e (List.mem_cons_of_mem _ mem)
    have one := exchange (sane e List.mem_cons_self) clock
    cases written : responseWrite statusMessage now e.1 e.2 with | mk t ending =>
    rw [written] at one
    cases ending with
    | keeps => exact keptUnderstood written one later
    | closes => exact endedUnderstood written Ending.noConfusion one es
    | breaks => exact endedUnderstood written Ending.noConfusion one es

end

def pageGet : Request × Res :=
  (⟨http11,"GET".toList,none⟩,⟨200,[("Content-Type".toList,some "text/plain".toList),("X-A".toList,none)],.handle ["hello".toList,[],"you".toList] .done⟩)

def pageHead : Request × Res := (⟨http11,"HEAD".toList,some "Close".toList⟩,⟨404,[],.array ["none".toList]⟩)

theorem clientUnderstandsPage : Understood (fun _ => some "OK".toList) "now".toList [pageGet,pageHead] := by
  refine clientUnderstands _ (by decide) fun e mem => ?_
  rcases List.mem_cons.mp mem with rfl | mem
  · exact ⟨.inl rfl,by decide,by simp [pageGet],by decide,by decide,fun _ => .untold (by decide) (by decide)⟩
  · rw [List.mem_singleton.mp mem]
    exact ⟨.inl rfl,by decide,by simp [pageHead],by decide,by decide,fun _ => .untold (by decide) (by decide)⟩

example : replies false [false] (connection (fun _ => some "OK".toList) "now".toList [pageGet]).1 =
    ([⟨200,[("Content-Type".toList,"text/plain".toList),(transferEncoding,chunkedWord),(dateName,"now".toList)],"helloyou".toList⟩],true) := by rfl

end PublicInbox.HTTP.Client
