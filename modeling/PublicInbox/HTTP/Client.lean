import PublicInbox.Chunks
import PublicInbox.Library.Decimal
import PublicInbox.Library.Tokens
import PublicInbox.HTTP.Response

/-! What a client of HTTP/1.1 takes the bytes of a connection for: status line and fields, where the body ends,
and whether the connection is used again. -/
namespace PublicInbox.HTTP.Client
open Chunks Feed
open Response (Text lower crlf)

structure Head where
  minor : Nat
  status : Nat
  fields : List (Text × Text)

structure Reply where
  status : Nat
  fields : List (Text × Text)
  body : Text

def linesFrom (line : Text) : Text → Option (List Text × Text)
  | [] => none
  | c :: rest =>
    if c = '\n' ∧ line.getLast? = some '\r' then
      if line = ['\r'] then some ([],rest)
      else (linesFrom [] rest).map fun (ls,rest) => (line.dropLast :: ls,rest)
    else linesFrom (line ++ [c]) rest

def isBlank (c : Char) : Bool := c == ' ' || c == '\t'

def trim (t : Text) : Text := ((t.dropWhile isBlank).reverse.dropWhile isBlank).reverse

def fieldOf (line : Text) : Text × Text := (line.takeWhile (· ≠ ':'),trim (line.dropWhile (· ≠ ':')).tail)

def statusOf : Text → Option (Nat × Nat)
  | 'H' :: 'T' :: 'T' :: 'P' :: '/' :: '1' :: '.' :: minor :: ' ' :: a :: b :: c :: ' ' :: _ =>
    if [minor,a,b,c].all Char.isDigit then some (Decimal.value [minor],Decimal.value [a,b,c]) else none
  | _ => none

def headOf : List Text → Option Head
  | [] => none
  | line :: lines => (statusOf line).map fun (minor,status) => ⟨minor,status,lines.map fieldOf⟩

def values (name : Text) (fields : List (Text × Text)) : List Text :=
  fields.filterMap fun f => if lower f.1 = name then some f.2 else none

def members (vs : List Text) : List Text := vs.flatMap fun v => (v.splitOn ',').map fun m => lower (trim m)

inductive Framing where
  | empty
  | chunked
  | length (n : Nat)
  | toClose

def framing (head : Bool) (h : Head) : Option Framing :=
  if head ∨ h.status < 200 ∨ h.status = 204 ∨ h.status = 304 then some .empty
  else match (members (values "transfer-encoding".toList h.fields)).getLast? with
    | some coding => some (if coding = "chunked".toList then .chunked else .toClose)
    | none => match values "content-length".toList h.fields with
      | [] => some .toClose
      | v :: vs => if v ≠ [] ∧ v.all Char.isDigit ∧ ∀ w ∈ vs,w = v then some (.length (Decimal.value v)) else none

def persists (h : Head) (f : Framing) : Bool :=
  let option := fun name => (members (values "connection".toList h.fields)).any fun m => m = name
  match f with
  | .toClose => false
  | _ => !option "close".toList && (1 ≤ h.minor || option "keep-alive".toList)

def takeChunks : Nat → Reader Char Text
  | 0 => fun _ => none
  | fuel + 1 => andThen takeSize fun line =>
    if hex line.1 = 0 then given (fun _ => []) takeTrailers
    else andThen (count (hex line.1)) fun data => andThen takeEnd fun _ => given (data ++ ·) (takeChunks fuel)

def takeBody (closed : Bool) : Framing → Reader Char Text
  | .empty => nothing []
  | .chunked => fun buf => takeChunks (buf.length + 1) buf
  | .length n => count n
  | .toClose => fun buf => if closed then some (buf,[]) else none

def takeRest (closed head : Bool) (lines : List Text) : Reader Char (Reply × Bool) :=
  match headOf lines with
  | none => fun _ => none
  | some h => match framing head h with
    | none => fun _ => none
    | some f => given (fun body => (⟨h.status,h.fields,body⟩,persists h f)) (takeBody closed f)

def takeReply (closed head : Bool) : Reader Char (Reply × Bool) := andThen (linesFrom []) (takeRest closed head)

def replies (closed : Bool) : List Bool → Text → List Reply × Bool
  | [],_ => ([],true)
  | head :: heads,buf => match takeReply closed head buf with
    | none => ([],true)
    | some ((reply,true),rest) => (reply :: (replies closed heads rest).1,(replies closed heads rest).2)
    | some ((reply,false),_) => ([reply],false)

end PublicInbox.HTTP.Client
