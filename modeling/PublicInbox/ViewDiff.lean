import PublicInbox.Hval

/-! Anchors of ViewDiff.pm: from the lines of a diffstat to the headers of the diff and back, on one page. -/
namespace PublicInbox.ViewDiff
open Hval (CodePoint toAttr)

abbrev Text := List Char

def points (s : Text) : List CodePoint := s.map fun c => ⟨c.toNat,Nat.lt_trans c.val.toNat_lt (by decide)⟩

/-! What is read of a line of the diffstat -/

def comments : List Text :=
  ["(new)".toList,"(gone)".toList,"(new +l)".toList,"(new +x)".toList,"(new -l)".toList,"(new -x)".toList,
    "(mode +l)".toList,"(mode +x)".toList,"(mode -l)".toList,"(mode -x)".toList]

def isComment (s : Text) : Bool :=
  let t := s.dropWhile (· == ' ')
  t.isEmpty || comments.any fun c => c.isPrefixOf t && (t.drop c.length).all (· == ' ')

def stripComment : Text → Text
  | [] => []
  | c :: s => if isComment (c :: s) then [] else c :: stripComment s

def lastArrow (ok : Text → Option Text) : Text → Option Text
  | [] => none
  | c :: s =>
    match lastArrow ok s with
    | some r => some r
    | none => if [' ','=','>',' '].isPrefixOf (c :: s) then ok (s.drop 3) else none

def untilBrace (s : Text) : Option Text :=
  match s.reverse.dropWhile (· != '\x7d') with
  | [] | [_] => none
  | _ :: b => some (b.reverse ++ (s.reverse.takeWhile (· != '\x7d')).reverse)

def renameInside : Text → Option Text
  | [] => none
  | c :: s =>
    match if c = '\x7b' then lastArrow untilBrace (s.drop 1) else none with
    | some r => some r
    | none => (renameInside s).map (c :: ·)

def renameWhole (s : Text) : Option Text := lastArrow (fun r => if r.isEmpty then none else some r) s

def cutDots : Text → Option Text
  | '.' :: '.' :: '.' :: '/' :: s => some s
  | '.' :: '.' :: '.' :: s => some s
  | _ => none

def statName (unquote : Text → Text) (orig : Text) : Text :=
  let fn := stripComment orig
  unquote (((renameInside fn).orElse fun _ => renameWhole fn).getD fn)

def cutLong (fn : Text) (longPath : List Text) : Text × List Text :=
  match cutDots fn with
  | some fn => (fn,longPath ++ [fn])
  | none => (fn,longPath)

/-! The page -/

structure Ctx where
  apfx : Text
  anchors : List Text
  longPath : List Text

structure Anchor where
  header : Bool
  apfx : Text
  path : Text
  id : Text

structure Page where
  ctx : Ctx
  anchors : List Anchor

inductive Call where
  | part (upfx idx : Text) (git : Bool)
  | stat (orig : Text)
  | head (pb : Text)

def part (upfx idx : Text) (git : Bool) (p : Page) : Page :=
  { p with ctx := ⟨upfx ++ idx.map fun c => if c = '.' then '/' else c,if git then [] else p.ctx.anchors,[]⟩ }

section
variable (unquote : Text → Text)

def anchor0 (orig : Text) (p : Page) : Page :=
  let (fn,longPath) := cutLong (statName unquote orig) p.ctx.longPath
  let ctx := { p.ctx with longPath := longPath }
  match toAttr (points (p.ctx.apfx ++ fn)) with
  | none => { p with ctx := ctx }
  | some attr => ⟨{ ctx with anchors := attr :: ctx.anchors },⟨false,p.ctx.apfx,fn,'i' :: attr⟩ :: p.anchors⟩

def headName (pb : Text) : Text := if pb = "/dev/null".toList then pb else ((unquote pb).dropWhile (· != '/')).drop 1

def Page.found (p : Page) (fn attr : Text) : Page :=
  ⟨{ p.ctx with anchors := p.ctx.anchors.filter (· ≠ attr) },⟨true,p.ctx.apfx,fn,attr⟩ :: p.anchors⟩

def anchor1 (pb : Text) (p : Page) : Page :=
  match toAttr (points (p.ctx.apfx ++ pb)) with
  | none => p
  | some attr =>
    if p.ctx.anchors.contains attr then p.found pb attr
    else
      match p.ctx.longPath with
      | [] => p
      | fn :: longPath =>
        let p := { p with ctx := { p.ctx with longPath := longPath } }
        if fn.isSuffixOf pb then
          match toAttr (points (p.ctx.apfx ++ fn)) with
          | none => p
          | some attr => if p.ctx.anchors.contains attr then p.found fn attr else p
        else p

def call (p : Page) : Call → Page
  | .part upfx idx git => part upfx idx git p
  | .stat orig => anchor0 unquote orig p
  | .head pb => anchor1 (headName unquote pb) p

def page (calls : List Call) : Page := calls.foldl (call unquote) ⟨⟨[],[],[]⟩,[]⟩

end

end PublicInbox.ViewDiff
