import PublicInbox.Mid
import Mathlib.Data.List.DropRight

/-! The byte string ContentHash.pm feeds to its digest, over decoded messages: Eml.pm has split
the MIME tree and decoded headers and bodies. The normalised content of a message is a value
of its own, and the digest input is that value's rendering. -/
namespace PublicInbox.ContentHash

abbrev Bytes := List UInt8

structure Unicode where
  lc : Char → List Char
  space : Char → Bool
  word : Char → Bool
  print : Char → Bool
  fold : Char → Char

def ascii : Unicode where
  lc := fun c => [c.toLower]
  space := Char.isWhitespace
  word := fun c => c.isAlphanum || c == '_'
  print := fun c => 32 ≤ c.toNat && c.toNat < 127
  fold := Char.toLower

def encode (s : String) : Bytes := s.toList.flatMap String.utf8EncodeChar

def latin1 (b : Bytes) : String := String.ofList (b.map (fun x => Char.ofNat x.toNat))

def utf8Decode (b : Bytes) : String := (String.fromUTF8? ⟨b.toArray⟩).getD (latin1 b)

/- One leaf (or message) of the MIME tree, as the accessors of Eml.pm answer for it. `bodyStr`
is none where body_str dies; `bodyStrUtf8` is its answer after charset_set('UTF-8'). -/
structure Part where
  filename : Option String
  contentDescription : List String
  contentType : Option String
  contentTransferEncoding : Option String
  isSubmsg : Bool
  bodyStr : Option String
  bodyStrUtf8 : Option String
  body : Bytes
  deriving DecidableEq, Repr

inductive Mime where
  | leaf (part : Part)
  | node (part : Part) (callCb : Bool) (subs : List Mime)

def Mime.part : Mime → Part
  | leaf part => part
  | node part _ _ => part

structure Eml where
  hdr : Header
  header : String → List String
  mime : Mime

structure Place where
  depth : Nat
  idx : List Nat
  deriving DecidableEq, Repr

def mimePartsLimit : Nat := 1000
def mimeNestingLimit : Nat := 20

structure Level where
  queue : List Mime
  outer : List Nat
  last : Nat

def Level.next : Level → List Level → Option (Mime × List Nat × Level × List Level)
  | ⟨sub :: queue,outer,last⟩, s => some (sub,outer ++ [last + 1],⟨queue,outer,last + 1⟩,s)
  | ⟨[],_,_⟩, ⟨sub :: queue,outer,last⟩ :: s =>
    some (sub,outer ++ [last + 1],⟨queue,outer,last + 1⟩,s)
  | _, _ => none

def walk : Nat → Level → List Level → List (Part × Place)
  | 0, _, _ => []
  | nr + 1, p, s => match p.next s with
    | none => []
    | some (sub,idx,p,s) => match sub with
      | .leaf part => (part,⟨idx.length,idx⟩) :: walk nr p s
      | .node part callCb subs =>
        if idx.length < mimeNestingLimit then
          let s := if p.queue = [] then s else p :: s
          if callCb then (part,⟨idx.length,idx⟩) :: walk nr ⟨subs,idx,0⟩ s
          else walk nr ⟨subs,idx,0⟩ s
        else (part,⟨idx.length,idx⟩) :: walk nr p s

def eachPart : Mime → List (Part × Place)
  | .leaf part => [(part,⟨0,[1]⟩)]
  | .node part callCb subs =>
    (if callCb then [(part,⟨0,[0]⟩)] else []) ++ walk mimePartsLimit ⟨subs,[],0⟩ []

section
variable (u : Unicode)

def boundary (a b : Option Char) : Bool := a.any u.word != b.any u.word

def bounded (pat : List Char) : Option Char → List Char → Bool
  | _, [] => false
  | before, c :: cs =>
    (boundary u before (some c) && pat.isPrefixOf (c :: cs) &&
      boundary u pat.getLast? ((c :: cs).drop pat.length).head?) || bounded pat (some c) cs

def hasWord (pat text : String) : Bool := bounded u pat.toList none text.toList

def hasWordI (pat text : String) : Bool := bounded u pat.toList none (text.toList.map u.fold)

def msgPartText (part : Part) (ct : String) : Option String :=
  if hasWord u "text/html" ct || hasWord u "text/xhtml" ct then none else
  match part.bodyStr with
  | some s => some s
  | none =>
    if hasWordI u "text/" ct || (!part.isSubmsg && hasWordI u "multipart/mixed" ct) then
      if part.contentTransferEncoding.any (hasWordI u "7bit") then some (latin1 part.body)
      else some (part.bodyStrUtf8.getD (latin1 part.body))
    else if hasWordI u "application/octet-stream" ct then
      let s := utf8Decode part.body
      if s.toList.all (fun c => u.print c || u.space c) then some s else none
    else none

def squeeze : Bool → List Char → List Char
  | _, [] => []
  | run, c :: cs =>
    if c ∈ ['\r','\n','\t',' '] then
      if run then squeeze true cs else ' ' :: squeeze true cs
    else c :: squeeze false cs

def hostChar (c : Char) : Bool := c.isLower || c.isDigit || c ∈ ['_','.','-','(',')']

def lowerHost : Bool → List Char → List Char
  | _, [] => []
  | true, c :: cs => if u.space c then c :: lowerHost false cs else u.lc c ++ lowerHost true cs
  | false, c :: cs =>
    c :: lowerHost (c = '@' && (cs.dropWhile hostChar).head?.any Char.isUpper) cs

def addrText (v : String) : String :=
  String.ofList (lowerHost u false (squeeze false (v.toList.filter (· ≠ '"'))))

def lineEnds : List Char → List Char
  | '\r' :: '\n' :: cs => '\n' :: lineEnds cs
  | c :: cs => c :: lineEnds cs
  | [] => []

def partText (s : String) : String := String.ofList ((lineEnds s.toList).rdropWhile u.space)

def partType (part : Part) : String := match part.contentType with
  | none => "text/plain"
  | some ct => if ct = "" ∨ ct = "0" then "text/plain" else ct

def partContent (part : Part) : Bytes := match msgPartText u part (partType part) with
  | some s => encode (partText u s)
  | none => part.body

def field (tag : String) (value : Bytes) : Bytes := encode tag ++ 0 :: value ++ [0]

def digestAddr (h v : String) : Bytes := field h (encode (addrText u v))

def dotted (idx : List Nat) : String := ".".intercalate (idx.map Nat.repr)

def label (place : Place) : Bytes := encode (place.depth.repr ++ ":" ++ dotted place.idx)

def contentDigI (visit : Part × Place) : Bytes :=
  0 :: label visit.2 ++ [0] ++
    visit.1.filename.toList.flatMap (fun fn => field "fn" (encode fn)) ++
    visit.1.contentDescription.flatMap (fun d => field "d" (encode d)) ++
    (encode "b" ++ 0 :: partContent u visit.1)

def contentDigest (eml : Eml) : Bytes :=
  (uniq (mids eml.hdr) (references eml.hdr)).flatMap (fun r => field "ref" (encode r.val)) ++
  (if eml.header "From" = [] then (eml.header "Sender").flatMap (digestAddr u "Sender")
    else (eml.header "From").flatMap (digestAddr u "From")) ++
  ["Subject","Date"].flatMap (fun h => (eml.header h).flatMap (fun v => field h (encode v))) ++
  ["To","Cc"].flatMap (fun h => (eml.header h).flatMap (digestAddr u h)) ++
  (eachPart eml.mime).flatMap (contentDigI u)

end

end PublicInbox.ContentHash
