import PublicInbox.Library.Decimal
import Mathlib.Data.List.Infix

/-! WwwStatic.pm: the response for a file. The file system does not change during a response; MIME types and the text of
a date are those of Plack::MIME and HTTP::Date. -/
namespace PublicInbox.WwwStatic

abbrev Text := List Char
abbrev Bytes := List UInt8
abbrev Headers := List (Text × Text)

inductive Errno where
  | enoent
  | enotdir
  | eacces
  | other
  deriving DecidableEq

structure Node where
  regular : Bool
  readable : Bool
  refused : Option Errno
  mtime : Int
  data : Bytes

structure Env where
  isHead : Bool
  acceptEncoding : Text
  ifModifiedSince : Text
  range : Text

inductive Body where
  | none
  | text (msg : Text)
  | file (data : Bytes) (off len : Nat)

structure Res where
  code : Nat
  headers : Headers
  body : Body

def noCache : Headers :=
  [("Expires".toList,"Fri, 01 Jan 1980 00:00:00 GMT".toList),("Pragma".toList,"no-cache".toList),
    ("Cache-Control".toList,"no-cache, max-age=0, must-revalidate".toList)]

def statusMessage : Nat → Text
  | 403 => "Forbidden".toList
  | 404 => "Not Found".toList
  | _ => "Internal Server Error".toList

def r (code : Nat) : Res :=
  let msg := statusMessage code
  ⟨code,[("Content-Type".toList,"text/plain".toList),("Content-Length".toList,Decimal.render msg.length)] ++ noCache,.text msg⟩

def wordChar (c : Char) : Bool := c.isAlphanum || c == '_'

def acceptsGzip (word : Bool) : Text → Bool
  | [] => false
  | c :: s =>
    (!word && (((c :: s).take 4).map Char.toLower == "gzip".toList) && !((s.drop 3).head?.any wordChar)) ||
      acceptsGzip (wordChar c) s

def digitsTail (s : Text) : Option (Text × Text) :=
  match s.dropWhile Char.isDigit with
  | '-' :: last => if last.all Char.isDigit then some (s.takeWhile Char.isDigit,last) else none
  | _ => none

def unit : Text := "bytes=".toList

def matchRange (word : Bool) : Text → Option (Text × Text)
  | [] => none
  | c :: s =>
    match if !word && unit.isPrefixOf (c :: s) then digitsTail (s.drop 5) else none with
    | some m => some m
    | none => matchRange (wordChar c) s

structure Scalar where
  text : Text
  num : Int

def written (digits : Text) : Scalar := ⟨digits,Decimal.value digits⟩

def calculated (n : Int) : Scalar := ⟨if 0 ≤ n then Decimal.render n.toNat else '-' :: Decimal.render n.natAbs,n⟩

def pickRange (beg last : Text) (size : Nat) : Nat × Scalar × Scalar :=
  if beg = [] then
    if last ≠ [] then
      let beg : Int := size - Decimal.value last
      (206,calculated (if beg < 0 then 0 else beg),calculated (size - 1))
    else (416,written beg,written last)
  else
    if Decimal.value beg > size then (416,written beg,written last)
    else if last = [] ∨ Decimal.value last ≥ size then (206,written beg,calculated (size - 1))
    else if Decimal.value last < size then (206,written beg,written last)
    else (416,written beg,written last)

inductive Ranged where
  | refused (res : Res)
  | part (h : Headers) (code : Nat) (off : Scalar) (len : Nat)

def contentRange (x y : Text) (size : Nat) : Text := "bytes ".toList ++ (x ++ '-' :: (y ++ '/' :: Decimal.render size))

def noRange (h : Headers) (size : Nat) : Ranged :=
  .refused ⟨416,h ++ [("Content-Range".toList,"bytes */".toList ++ Decimal.render size)],.none⟩

def setupRange (h : Headers) (beg last : Text) (size : Nat) : Ranged :=
  let (code,beg,last) := pickRange beg last size
  if code = 206 then
    let len := last.num - beg.num + 1
    if len ≤ 0 then noRange h size
    else .part (h ++ [("Accept-Ranges".toList,"bytes".toList),("Content-Range".toList,contentRange beg.text last.text size)])
      code beg len.toNat
  else noRange h size

section
variable (time2str : Int → Text) (mimeType : Text → Option Text) (fs : Text → Option Node) (env : Env)

def opened (path : Text) : Except Nat Node :=
  match fs path with
  | none => .error 404
  | some n =>
    if env.isHead then if n.regular && n.readable then .ok n else .error 404
    else
      match n.refused with
      | some e => .error (if e = .enoent ∨ e = .enotdir then 404 else if e = .eacces then 403 else 500)
      | none => if n.regular then .ok n else .error 404

def notModified (n : Node) : Bool := env.ifModifiedSince ≠ [] && env.ifModifiedSince ≠ ['0'] && time2str n.mtime == env.ifModifiedSince

def fileBody (n : Node) (off len : Nat) : Body := if env.isHead then .none else .file n.data off len

def finish (h : Headers) (code : Nat) (n : Node) (off len : Nat) : Res :=
  ⟨code,h ++ [("Content-Length".toList,Decimal.render len),("Last-Modified".toList,time2str n.mtime)],fileBody env n off len⟩

def serve (h : Headers) (path type : Text) : Res × Headers :=
  match opened fs env path with
  | .error code => (r code,h)
  | .ok n =>
    if notModified time2str env n then (⟨304,[],.none⟩,h)
    else
      let h := h ++ [("Content-Type".toList,type)]
      match matchRange false env.range with
      | none =>
        let res := finish time2str env h 200 n 0 n.data.length
        (res,res.headers)
      | some (beg,last) =>
        match setupRange h beg last n.data.length with
        | .refused res => (res,res.headers)
        | .part h code off len =>
          let res := finish time2str env h code n off.num.toNat len
          (res,res.headers)

def gzPath (path : Text) : Text := path ++ ".gz".toList

def tryGzipStatic (h : Headers) (path type : Text) : Except Headers Res :=
  if acceptsGzip false env.acceptEncoding then
    match fs path,fs (gzPath path) with
    | some n,some gz =>
      if n.regular && gz.regular && gz.mtime == n.mtime then
        let (res,h) := serve time2str fs env h (gzPath path) type
        if res.code > 300 ∨ res.code < 200 then .error h
        else .ok { res with
          headers := res.headers ++ [("Cache-Control".toList,"no-transform".toList),("Content-Encoding".toList,"gzip".toList),
            ("Vary".toList,"Accept-Encoding".toList)] }
      else .error h
    | _,_ => .error h
  else .error h

def isGz (path : Text) : Bool := ((path.reverse.take 3).map Char.toLower).reverse == ".gz".toList

def response (h : Headers) (path : Text) (type : Option Text) : Res :=
  let type := type.getD ((mimeType path).getD "application/octet-stream".toList)
  if isGz path then (serve time2str fs env h path type).1
  else
    match tryGzipStatic time2str fs env h path type with
    | .ok res => res
    | .error h => (serve time2str fs env h path type).1

end

end PublicInbox.WwwStatic
