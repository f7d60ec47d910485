import PublicInbox.Chunks
import PublicInbox.Library.Decimal

/-! HTTP.pm: the response of an application as it is written to the client, and what becomes of the connection. -/
namespace PublicInbox.HTTP.Response
open Chunks

abbrev Text := List Char

structure Request where
  proto : Text
  method : Text
  connection : Option Text

inductive Fate where
  | done
  | getlineDies
  | closeDies
  deriving DecidableEq

inductive Content where
  | array (bufs : List Text)
  | handle (bufs : List Text) (fate : Fate)
  | push (bufs : List Text)

structure Res where
  status : Nat
  headers : List (Text × Option Text)
  body : Content

inductive Ending where
  | keeps
  | closes
  | breaks
  deriving DecidableEq

def lower (t : Text) : Text := t.map Char.toLower

def wordChar (c : Char) : Bool := c.isAlpha || c.isDigit || c == '_'

def hasWord (pat : Text) (word : Bool) : Text → Bool
  | [] => false
  | c :: s =>
    (!word && lower ((c :: s).take pat.length) == pat && !(((c :: s).drop pat.length).head?.any wordChar)) ||
      hasWord pat (wordChar c) s

def statusWithNoEntityBody (status : Nat) : Bool := status < 200 || status == 204 || status == 304

def crlf : Text := ['\r','\n']

def connectionName : Text := "Connection".toList
def contentLength : Text := "Content-Length".toList
def transferEncoding : Text := "Transfer-Encoding".toList
def dateName : Text := "Date".toList
def closeWord : Text := "close".toList
def keepAlive : Text := "keep-alive".toList
def chunkedWord : Text := "chunked".toList
def http11 : Text := "HTTP/1.1".toList

def field (f : Text × Text) : Text := f.1 ++ [':',' '] ++ f.2 ++ crlf

structure Scan where
  h : Text
  len : Option Text
  chunked : Option Nat

def scanHeader (s : Scan) (k v : Text) : Scan :=
  if lower k = lower connectionName ∨ lower k = lower dateName then s
  else {
    h := s.h ++ field (k,v)
    len := if lower k = lower contentLength then some v else s.len
    chunked := if lower k = lower transferEncoding ∧ hasWord chunkedWord false v then some 1 else s.chunked }

def scan (s : Scan) : List (Text × Option Text) → Scan
  | [] => s
  | (_,none) :: headers => scan s headers
  | (k,some v) :: headers => scan (scanHeader s k v) headers

structure Plan where
  h : Text
  chunked : Option Nat
  alive : Bool

def Request.head (env : Request) : Bool := env.method == "HEAD".toList

def Request.asks (env : Request) (word : Text) : Bool := hasWord word false (env.connection.getD [])

def connect (env : Request) (term : Bool) (h : Text) (chunked : Option Nat) : Plan :=
  let close := env.asks closeWord
  let h := if close then h ++ field (connectionName,closeWord) else h
  if !term && env.proto == http11 then
    ⟨h ++ field (transferEncoding,chunkedWord),if env.head then chunked else chunked.or (some 2),!close⟩
  else if term && (env.proto == http11 || env.asks keepAlive) then
    ⟨if close then h else h ++ field (connectionName,keepAlive),chunked,!close⟩
  else ⟨if close then h else h ++ field (connectionName,closeWord),chunked,false⟩

section
variable (statusMessage : Nat → Option Text) (now : Text)

def statusMsg (status : Nat) : Text := (statusMessage status).getD "error".toList

def statusLine (env : Request) (status : Nat) : Text :=
  env.proto ++ [' '] ++ Decimal.render status ++ [' '] ++ statusMsg statusMessage status

def plan (env : Request) (res : Res) : Plan :=
  let s := scan ⟨statusLine statusMessage env res.status ++ crlf,none,none⟩ res.headers
  let term := s.len.isSome || s.chunked.isSome || statusWithNoEntityBody res.status
  match res.body with
  | .array bufs =>
    if term then connect env term s.h s.chunked
    else connect env true (s.h ++ field (contentLength,Decimal.render (bufs.map List.length).sum)) s.chunked
  | _ => connect env term s.h s.chunked

def hexText (n : Nat) : Text := if n = 0 then ['0'] else ((Nat.digits 16 n).map Nat.digitChar).reverse

def chunkedWrite (buf : Text) : Text := if buf = [] then [] else hexText buf.length ++ crlf ++ buf ++ crlf

def identityWrite (buf : Text) : Text := buf

def write (doChunk : Bool) (buf : Text) : Text := if doChunk then chunkedWrite buf else identityWrite buf

def responseDone (dies doChunk alive : Bool) : Text × Ending :=
  if dies then ([],.breaks)
  else (if doChunk then "0\r\n\r\n".toList else [],if alive then .keeps else .closes)

def getlinePull (doChunk alive : Bool) (fate : Fate) : List Text → Text × Ending
  | [] => if fate = .getlineDies then ([],.breaks) else responseDone (fate == .closeDies) doChunk alive
  | buf :: bufs => (write doChunk buf ++ (getlinePull doChunk alive fate bufs).1,(getlinePull doChunk alive fate bufs).2)

def writeBody (head doChunk alive : Bool) : Content → Text × Ending
  | .array bufs => if head then responseDone false false alive
    else (bufs.flatten ++ (responseDone false doChunk alive).1,(responseDone false doChunk alive).2)
  | .handle bufs fate => if head then responseDone (fate == .closeDies) false alive else getlinePull doChunk alive fate bufs
  | .push bufs => if head then responseDone false false alive
    else (bufs.flatMap (write doChunk) ++ (responseDone false doChunk alive).1,(responseDone false doChunk alive).2)

def responseWrite (env : Request) (res : Res) : Text × Ending :=
  let p := plan statusMessage env res
  let body := writeBody env.head (p.chunked == some 2) p.alive res.body
  (p.h ++ field (dateName,now) ++ crlf ++ body.1,body.2)

def connection : List (Request × Res) → Text × Ending
  | [] => ([],.keeps)
  | (env,res) :: rest =>
    match responseWrite statusMessage now env res with
    | (t,.keeps) => (t ++ (connection rest).1,(connection rest).2)
    | done => done

end

end PublicInbox.HTTP.Response
