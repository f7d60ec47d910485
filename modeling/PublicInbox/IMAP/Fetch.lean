import Mathlib.Data.List.Sort
import PublicInbox.ContentHash
import PublicInbox.Library.Decimal

/-! What IMAP.pm writes for one message of a FETCH: the items of fetch_compile, the emitters, and
BODY and BODYSTRUCTURE. What Eml.pm, Address.pm and EmlContentFoo.pm read in a message, and the
matches of a header regular expression, are taken from a record of accessors. -/
namespace PublicInbox.IMAP
open ContentHash (Bytes encode mimePartsLimit mimeNestingLimit)

inductive Tok where
  | text (s : Bytes)
  | literal (size : Option (List Char)) (data : Bytes)
  deriving DecidableEq

def Tok.bytes : Tok → Bytes
  | text s => s
  | literal size data => encode "\x7b" ++ encode (String.ofList (size.getD [])) ++ encode "\x7d\r\n" ++ data

def Tok.sized (data : Bytes) : Tok := .literal (some (Decimal.render data.length)) data

abbrev Buf := List Tok

def plain (s : String) : Buf := [.text (encode s)]

def render (b : Buf) : Bytes := b.flatMap Tok.bytes

def esc : Option String → Buf
  | none => plain "NIL"
  | some v =>
    if v.toList.any (· ∈ ['\x7b','"','\r','\n','%','*','\\','[']) then [.sized (encode v)]
    else plain ("\"" ++ v ++ "\"")

def spaced : List Buf → Buf
  | [] => []
  | [b] => b
  | b :: bs => b ++ plain " " ++ spaced bs

structure Address where
  name : Option String
  user : Option String
  host : Option String

structure ContentType where
  type : String
  subtype : Option String
  attributes : List (String × String)

inductive Mime (E : Type) where
  | leaf (eml : E)
  | node (eml : E) (subs : List (Mime E))

namespace Mime
variable {E : Type}

def eml : Mime E → E
  | leaf e => e
  | node e _ => e

def subs : Mime E → List (Mime E)
  | leaf _ => []
  | node _ subs => subs

end Mime

structure Visit (E : Type) where
  eml : E
  depth : Nat
  idx : List Nat

structure Level (E : Type) where
  queue : List (Mime E)
  outer : List Nat
  last : Nat

def Level.next {E : Type} : Level E → List (Level E) → Option (Mime E × List Nat × Level E × List (Level E))
  | ⟨sub :: queue,outer,last⟩, s => some (sub,outer ++ [last + 1],⟨queue,outer,last + 1⟩,s)
  | ⟨[],_,_⟩, ⟨sub :: queue,outer,last⟩ :: s => some (sub,outer ++ [last + 1],⟨queue,outer,last + 1⟩,s)
  | _, _ => none

def walk {E : Type} : Nat → Level E → List (Level E) → List (Visit E)
  | 0, _, _ => []
  | nr + 1, p, s => match p.next s with
    | none => []
    | some (.leaf e,idx,p,s) => ⟨e,idx.length,idx⟩ :: walk nr p s
    | some (.node e subs,idx,p,s) =>
      if idx.length < mimeNestingLimit then
        ⟨e,idx.length,idx⟩ :: walk nr ⟨subs,idx,0⟩ (if p.queue = [] then s else p :: s)
      else ⟨e,idx.length,idx⟩ :: walk nr p s

def eachPart {E : Type} : Mime E → List (Visit E)
  | .leaf e => [⟨e,0,[1]⟩]
  | .node e subs => ⟨e,0,[0]⟩ :: walk mimePartsLimit ⟨subs,[],0⟩ []

/- `new` also returns what it leaves of its argument, and `section` is what BODY[..] returns of a
part without a name. -/
structure Reads (E : Type) where
  headerRaw : E → String → Option String
  objects : String → List Address
  ct : E → ContentType
  contentDisposition : String → String × List (String × String)
  isSubmsg : E → Bool
  hdr : E → Bytes
  bdy : E → Option Bytes
  imapBdy : E → Bytes
  mime : E → Mime E
  new : Bytes → E × Bytes
  setHdr : E → Bytes → E
  setBdy : E → Bytes → E
  hdrsGet : List Char → Bytes → Bytes
  hdrsNot : List Char → Bytes → Bytes

section
variable {E : Type} (r : Reads E)

def bodyRaw (e : E) : Bytes := (r.bdy e).getD []

def addrEnvelope (e : E) (x : String) (y : Option String) : Buf :=
  match (r.headerRaw e x).or (y.bind (r.headerRaw e)) with
  | none => plain "NIL"
  | some v => match r.objects v with
    | [] => plain "NIL"
    | xs => plain "(" ++ xs.flatMap (fun a => plain "(" ++ spaced [esc a.name,plain "NIL",esc a.user,esc a.host] ++ plain ")") ++
        plain ")"

def emlEnvelope (e : E) : Buf :=
  plain "(" ++ spaced [esc (r.headerRaw e "Date"),esc (r.headerRaw e "Subject"),addrEnvelope r e "From" none,
    addrEnvelope r e "Sender" (some "From"),addrEnvelope r e "Reply-To" (some "From"),addrEnvelope r e "To" none,
    addrEnvelope r e "Cc" none,addrEnvelope r e "Bcc" none,esc (r.headerRaw e "In-Reply-To"),
    esc (r.headerRaw e "Message-ID")] ++ plain ")"

def escHash (hash : List (String × String)) : Buf :=
  if hash = [] then plain "NIL"
  else plain "(" ++ spaced (hash.flatMap (fun x => [esc (some x.1),esc (some x.2)])) ++ plain ")"

def bodyDisposition (e : E) : Buf :=
  match r.headerRaw e "Content-Disposition" with
  | none => plain "NIL"
  | some v =>
    if v = "" ∨ v = "0" then plain "NIL"
    else
      let cd := r.contentDisposition v
      plain "(" ++ esc (some cd.1) ++ plain " " ++ escHash cd.2 ++ plain ")"

def isType (e : E) (type : String) : Bool := (r.ct e).type.toLower = type

def held (hold : List Buf) : Buf := if hold = [] then plain "NIL" else hold.flatten

def bodyOpen (e : E) : Buf :=
  (if r.isSubmsg e then emlEnvelope r e ++ plain " " else []) ++
  plain "(" ++ esc (some (r.ct e).type) ++ plain " " ++ esc (r.ct e).subtype ++
  plain " " ++ escHash (r.ct e).attributes ++
  plain " " ++ esc (r.headerRaw e "Content-ID") ++
  plain " " ++ esc (r.headerRaw e "Content-Description") ++
  plain " " ++ esc (some ((r.headerRaw e "Content-Transfer-Encoding").getD "7bit")) ++
  plain (" " ++ (bodyRaw r e).length.repr) ++
  (if isType r e "text" then plain (" " ++ ((bodyRaw r e).count 10).repr) else [])

def bodyClose (structure_ : Bool) (e : E) : Buf :=
  (if structure_ then plain " " ++ esc (r.headerRaw e "Content-MD5") ++ plain " " ++ bodyDisposition r e ++
    plain " " ++ esc (r.headerRaw e "Content-Language") ++ plain " " ++ esc (r.headerRaw e "Content-Location")
  else []) ++ plain ")"

def bodyLeaf (structure_ : Bool) (e : E) (hold : Option (List Buf)) : Buf :=
  bodyOpen r e ++ (hold.map (fun h => plain " " ++ held h)).getD [] ++ bodyClose r structure_ e

def multipartClose (structure_ : Bool) (e : E) : Buf :=
  plain " " ++ esc (r.ct e).subtype ++
  (if structure_ then plain " " ++ escHash (r.ct e).attributes ++ plain " " ++ bodyDisposition r e ++
    plain " " ++ esc (r.headerRaw e "Content-Language") ++ plain " " ++ esc (r.headerRaw e "Content-Location")
  else []) ++ plain ")"

def bodyParent (structure_ : Bool) (e : E) (hold : List Buf) : Buf :=
  if isType r e "multipart" then plain "(" ++ held hold ++ multipartClose r structure_ e
  else bodyLeaf r structure_ e (some hold)

def fold (structure_ : Bool) (s : Nat × List Buf) (v : Visit E) : Nat × List Buf :=
  if v.depth + 1 = s.1 then (v.depth,[bodyParent r structure_ v.eml s.2])
  else (v.depth,bodyLeaf r structure_ v.eml none :: s.2)

def fetchBody (structure_ : Bool) (m : Mime E) : Buf :=
  ((eachPart m).reverse.foldl (fold r structure_) (0,[])).2.flatten

end

def toCrlf (b : Bytes) : Bytes :=
  go false b
where
  go : Bool → Bytes → Bytes
    | _, [] => []
    | cr, x :: xs => (if x = 10 ∧ cr = false then [13,10] else [x]) ++ go (x = 13) xs

def stripFrom (b : Bytes) : Bytes :=
  let s := b.dropWhile (fun x => x = 13 ∨ x = 10)
  if (encode "From ").isPrefixOf s then
    match s.dropWhile (fun x => x ≠ 10) with
    | [] => b
    | _ :: rest => rest
  else b

def toCrlfFull (b : Bytes) : Bytes := stripFrom (toCrlf b)

inductive SectionName where
  | header
  | mime
  | text
  deriving DecidableEq

inductive PartialCb where
  | body (idx : Option (List Char)) (name : Option SectionName)
  | hdrGet (idx : Option (List Char)) (hdrs : List Char)
  | hdrNot (idx : Option (List Char)) (hdrs : List Char)
  deriving DecidableEq

structure Partial where
  att : List Char
  cb : PartialCb
  offset : Option (List Char)
  len : Option (List Char)
  deriving DecidableEq

def takeDigits (s : List Char) : List Char × List Char := s.span Char.isDigit

def sectionIdx : Nat → List Char → Option (List Char × List Char)
  | 0, _ => none
  | fuel + 1, s => match takeDigits s with
    | ([],_) => none
    | (ds,'.' :: rest) => match sectionIdx fuel rest with
      | some (more,rest) => some (ds ++ '.' :: more,rest)
      | none => some (ds,'.' :: rest)
    | (ds,rest) => some (ds,rest)

def offsets : List Char → Option (Option (List Char) × Option (List Char))
  | [] => some (none,none)
  | '<' :: s => match takeDigits s with
    | ([],_) => none
    | (o,['>']) => some (some o,none)
    | (o,'.' :: s) => match takeDigits s with
      | ([],_) => none
      | (n,['>']) => some (some o,some n)
      | _ => none
    | _ => none
  | _ => none

def dropPrefix (p s : List Char) : Option (List Char) := if p.isPrefixOf s then some (s.drop p.length) else none

def bodyPattern (att : List Char) : Option Partial :=
  (dropPrefix "BODY[".toList att).bind fun s =>
    let (idx,s) := match sectionIdx s.length s with
      | some (idx,s) => (some idx,s)
      | none => (none,s)
    let (name,s) := match dropPrefix ".HEADER".toList s,dropPrefix ".MIME".toList s,dropPrefix ".TEXT".toList s with
      | some s,_,_ => (some SectionName.header,s)
      | _,some s,_ => (some SectionName.mime,s)
      | _,_,some s => (some SectionName.text,s)
      | none,none,none => (none,s)
    (dropPrefix "]".toList s).bind fun s => (offsets s).map fun o => ⟨att,.body idx name,o.1,o.2⟩

def fieldChar (c : Char) : Bool := c.isUpper || c.isDigit || c = '-' || c = ' '

def fieldsPattern (att : List Char) : Option Partial :=
  (dropPrefix "BODY[".toList att).bind fun s =>
    let (idx,s) := match sectionIdx s.length s with
      | some (idx,'.' :: s) => (some idx,s)
      | _ => (none,s)
    (dropPrefix "HEADER.FIELDS".toList s).bind fun s =>
      let (not,s) := match dropPrefix ".NOT".toList s with
        | some s => (true,s)
        | none => (false,s)
      (dropPrefix " (".toList s).bind fun s =>
        let (hdrs,s) := s.span fieldChar
        if hdrs = [] then none
        else (dropPrefix ")]".toList s).bind fun s => (offsets s).map fun o =>
          ⟨att,if not then .hdrNot idx hdrs else .hdrGet idx hdrs,o.1,o.2⟩

def recombine : List Char → List (List Char) → Option (List Char × List (List Char))
  | att, want =>
    if ']' ∈ att then some (att,want)
    else match want with
      | [] => none
      | next :: want => if next = [] ∨ next = ['0'] then none else recombine (att ++ ' ' :: next.map Char.toUpper) want

inductive Att where
  | bodyHeader
  | bodyText
  | bodyFull
  | rfc822Header
  | rfc822Text
  | rfc822Size
  | rfc822
  | body
  | bodystructure
  | envelope
  | flags
  | internaldate
  deriving DecidableEq

namespace Att

def key : Att → String
  | bodyHeader => "BODY[HEADER]"
  | bodyText => "BODY[TEXT]"
  | bodyFull => "BODY[]"
  | rfc822Header => "RFC822.HEADER"
  | rfc822Text => "RFC822.TEXT"
  | rfc822Size => "RFC822.SIZE"
  | rfc822 => "RFC822"
  | body => "BODY"
  | bodystructure => "BODYSTRUCTURE"
  | envelope => "ENVELOPE"
  | flags => "FLAGS"
  | internaldate => "INTERNALDATE"

def all : List Att := [bodyHeader,bodyText,bodyFull,rfc822Header,rfc822Text,rfc822Size,rfc822,body,bodystructure,
  envelope,flags,internaldate]

end Att

structure Need where
  smsg : Bool
  blob : Bool
  crlfBref : Bool
  emlHdr : Bool
  crlfHdr : Bool
  emlBdy : Bool
  crlfBdy : Bool

def Need.value (n : Need) : Nat :=
  n.smsg.toNat + 2 * n.blob.toNat + 4 * n.crlfBref.toNat + 8 * n.emlHdr.toNat + 16 * n.crlfHdr.toNat +
    32 * n.emlBdy.toNat + 64 * n.crlfBdy.toNat

def Need.or (a b : Need) : Need :=
  ⟨a.smsg || b.smsg,a.blob || b.blob,a.crlfBref || b.crlfBref,a.emlHdr || b.emlHdr,a.crlfHdr || b.crlfHdr,
    a.emlBdy || b.emlBdy,a.crlfBdy || b.crlfBdy⟩

def Need.zero : Need := ⟨false,false,false,false,false,false,false⟩

def Att.need : Att → Need
  | bodyHeader | rfc822Header => { Need.zero with smsg := true, blob := true, emlHdr := true, crlfHdr := true }
  | bodyText | rfc822Text => { Need.zero with smsg := true, blob := true, emlBdy := true, crlfBdy := true }
  | bodyFull | rfc822 => { Need.zero with smsg := true, blob := true, crlfBref := true }
  | rfc822Size | internaldate => { Need.zero with smsg := true }
  | body | bodystructure => { Need.zero with smsg := true, blob := true, emlHdr := true, emlBdy := true }
  | envelope => { Need.zero with smsg := true, blob := true, emlHdr := true }
  | flags => Need.zero

inductive Op where
  | emit (att : Att)
  | emlNew
  | crlfBref
  | crlfHdr
  | crlfBdy
  deriving DecidableEq

def Op.rank : Op → Nat
  | emit att => att.need.value
  | emlNew => 7
  | crlfBref => 4
  | crlfHdr => 16
  | crlfBdy => 64

def fetchAtt (order : List Att → List Att) (att : List Char) : Option (List Att) :=
  if att = "FAST".toList then some (order [.flags,.internaldate,.rfc822Size])
  else if att = "ALL".toList then some (order [.flags,.internaldate,.rfc822Size,.envelope])
  else if att = "FULL".toList then some (order [.flags,.internaldate,.rfc822Size,.envelope,.body])
  else (Att.all.find? (fun a => a.key.toList = att)).map (fun a => [a])

structure Compiling where
  need : Need
  ops : List Op
  partials : List Partial

def Compiling.add (s : Compiling) (a : Att) : Compiling :=
  if .emit a ∈ s.ops then s else { s with need := s.need.or a.need, ops := s.ops ++ [.emit a] }

def Compiling.addPartial (s : Compiling) (p : Partial) (need : Need) : Compiling :=
  { s with need := s.need.or need, partials := s.partials.filter (fun q => q.att ≠ p.att) ++ [p] }

def partialPrepare (s : Compiling) (att : List Char) : Option Compiling :=
  match bodyPattern att with
  | some p => some (s.addPartial p { Need.zero with crlfBref := true, emlHdr := true, emlBdy := true })
  | none => (fieldsPattern att).map fun p => s.addPartial p { Need.zero with emlHdr := true }

def unpeek (att : List Char) : List Char :=
  match dropPrefix "BODY.PEEK[".toList att with
  | some rest => "BODY[".toList ++ rest
  | none => att

def compileItems (order : List Att → List Att) : Nat → Compiling → List (List Char) → Option Compiling
  | _, s, [] => some s
  | 0, _, _ => none
  | fuel + 1, s, item :: want =>
    let att := item.map Char.toUpper
    if att = "UID".toList then compileItems order fuel s want
    else match fetchAtt order (unpeek att) with
      | some atts => compileItems order fuel (atts.foldl Compiling.add s) want
      | none =>
        if (dropPrefix "BODY[".toList (unpeek att)).isSome then
          (recombine (unpeek att) want).bind fun x => (partialPrepare s x.1).bind fun s => compileItems order fuel s x.2
        else none

def stripParens : List (List Char) → Option (List (List Char))
  | ('(' :: item) :: want =>
    let items := item :: want
    match items.getLast? with
    | some last => if last.getLast? = some ')' then some (items.dropLast ++ [last.dropLast]) else none
    | none => none
  | want => some want

structure Compiled where
  ops : List Op
  partials : List Partial

def Compiling.finish (s : Compiling) : Compiled :=
  let crlf : List Op :=
    if s.need.crlfBref then [.crlfBref]
    else match s.need.crlfHdr,s.need.crlfBdy with
      | true,true => [.crlfBref]
      | true,false => [.crlfHdr]
      | false,true => [.crlfBdy]
      | false,false => []
  let ops := s.ops ++ (if s.need.emlHdr || s.need.emlBdy then [.emlNew] else []) ++ crlf
  ⟨ops.insertionSort (fun a b => a.rank ≤ b.rank),s.partials.insertionSort (fun a b => String.ofList a.att ≤ String.ofList b.att)⟩

def fetchCompile (order : List Att → List Att) (want : List (List Char)) : Option Compiled :=
  (stripParens want).bind fun want => (compileItems order want.length ⟨Need.zero,[],[]⟩ want).map Compiling.finish

structure Smsg where
  num : Nat
  bytes : Nat
  internaldate : String

structure Doc (E : Type) where
  bref : Bytes
  eml : Option E

section
variable {E : Type} (r : Reads E) (smsg : Smsg)

def emitItem (d : Doc E) : Att → Option Buf
  | .bodyFull => some (plain " BODY[] " ++ [.sized d.bref])
  | .rfc822 => some (plain " RFC822 " ++ [.sized d.bref])
  | .bodyText => some (plain " BODY[TEXT] " ++ [.sized d.bref])
  | .rfc822Text => some (plain " RFC822.TEXT " ++ [.sized d.bref])
  | .bodyHeader => d.eml.map fun e => plain " BODY[HEADER] " ++ [.sized (r.hdr e)]
  | .rfc822Header => d.eml.map fun e => plain " RFC822.HEADER " ++ [.sized (r.hdr e)]
  | .rfc822Size => some (plain (" RFC822.SIZE " ++ smsg.bytes.repr))
  | .internaldate => some (plain (" INTERNALDATE \"" ++ smsg.internaldate ++ "\""))
  | .flags => some (plain " FLAGS ()")
  | .envelope => d.eml.map fun e => plain " ENVELOPE " ++ emlEnvelope r e
  | .bodystructure => d.eml.map fun e => plain " BODYSTRUCTURE " ++ fetchBody r true (r.mime e)
  | .body => d.eml.map fun e => plain " BODY " ++ fetchBody r false (r.mime e)

def Op.run (d : Doc E) : Op → Option (Doc E × Buf)
  | .emit att => (emitItem r smsg d att).map (fun out => (d,out))
  | .emlNew => some (⟨(r.new d.bref).2,some (r.new d.bref).1⟩,[])
  | .crlfBref => some ({ d with bref := toCrlfFull d.bref },[])
  | .crlfHdr => d.eml.map fun e => ({ d with eml := some (r.setHdr e (toCrlfFull (r.hdr e))) },[])
  | .crlfBdy => d.eml.map fun e =>
    match r.bdy e with
    -- the body of an Eml is what `new` left of `$bref`
    | some b => (⟨toCrlf b,some (r.setBdy e (toCrlf b))⟩,[])
    | none => (d,[])

def runOps (d : Doc E) : List Op → Option (Doc E × Buf)
  | [] => some (d,[])
  | op :: ops => (op.run r smsg d).bind fun x => (runOps x.1 ops).map fun y => (y.1,x.2 ++ y.2)

def emlBodyIdx (e : E) (idx : List Char) : Option E :=
  (((eachPart (r.mime e)).filter (fun v => v.idx ≠ [0])).find? (fun v => (ContentHash.dotted v.idx).toList = idx)).map Visit.eml

def atIdx (e : E) : Option (List Char) → Option E
  | none => some e
  | some idx => emlBodyIdx r e idx

def partialBody (e : E) (idx : Option (List Char)) (name : Option SectionName) : Option Bytes :=
  (atIdx r e idx).bind fun part => match name with
    | some .mime => if idx.isSome then some (r.hdr part ++ encode "\r\n") else none
    | some .text => some (bodyRaw r (r.new ((r.bdy part).getD (r.imapBdy part))).1)
    | some .header => some (r.hdr (r.new ((r.bdy part).getD (r.imapBdy part))).1 ++ encode "\r\n")
    | none => some ((r.bdy part).getD (r.imapBdy part))

def PartialCb.text (e : E) : PartialCb → Bytes
  | body idx name => (partialBody r e idx name).getD []
  | hdrGet idx hdrs => ((atIdx r e idx).map fun part => toCrlf (r.hdrsGet hdrs (r.hdr part)) ++ encode "\r\n").getD []
  | hdrNot idx hdrs => ((atIdx r e idx).map fun part => toCrlf (r.hdrsNot hdrs (r.hdr part)) ++ encode "\r\n").getD []

-- Digits as an offset or a length of substr: no integer holds a number from 2^64 on, and -1 stands for it
def substrNum (ds : List Char) : Int := if Decimal.value ds < 2 ^ 64 then Decimal.value ds else -1

def substr (s : Bytes) (offset : Int) (len : Option Int) : Option Bytes :=
  let beg := if offset < 0 ∧ s ≠ [] then offset + s.length else offset
  let fin : Int := match len with
    | none => s.length
    | some n => if n < 0 then s.length + n else beg + n
  if s.length < beg ∨ beg < 0 ∧ fin < 0 then none
  else some ((s.take fin.toNat).drop beg.toNat)

def partialKey (p : Partial) : List Char :=
  match p.len with
  | none => p.att
  | some n => p.att.take (p.att.length - (n.length + 2)) ++ ['>']

def emitPartial (e : E) (p : Partial) : Buf :=
  let str := p.cb.text r e
  .text (encode (String.ofList (' ' :: partialKey p ++ [' ']))) ::
    match p.offset,p.len with
    | none,_ => [.sized str]
    | some o,some n => [.literal (some n) ((substr str (substrNum o) (some (substrNum n))).getD [])]
    | some o,none =>
      let cut := substr str (substrNum o) none
      [.literal (cut.map fun data => Decimal.render data.length) (cut.getD [])]

def partialEmit (e : E) (ps : List Partial) : Buf := ps.flatMap (emitPartial r e)

def fetchRunOps (msn : Nat) (bref : Bytes) (c : Compiled) : Option (Option E × Buf) :=
  (runOps r smsg ⟨bref,none⟩ c.ops).bind fun x =>
    let out := plain ("* " ++ msn.repr ++ " FETCH (UID " ++ smsg.num.repr) ++ x.2
    match c.partials,x.1.eml with
    | [],eml => some (eml,out ++ plain ")\r\n")
    | ps,some e => some (some e,out ++ partialEmit r e ps ++ plain ")\r\n")
    | _,none => none

end
end PublicInbox.IMAP
