import Mathlib.Data.List.DropRight
import Mathlib.Data.List.Infix
import PublicInbox.Git

/-! SolverGit.pm: a blob that no repository has is made from the patches that a search of the inboxes gives. Repositories,
inboxes and commands answer as they like; a call that goes out to one of them is a state of its own here. -/
namespace PublicInbox.SolverGit
open Git (Bytes gitUnquote)

def oidMin : Nat := 7
def maxPatch : Nat := 9999

def isHexDigit (b : UInt8) : Bool :=
  ('0'.toUInt8 ≤ b && b ≤ '9'.toUInt8) || ('a'.toUInt8 ≤ b && b ≤ 'f'.toUInt8)

structure Oid where
  hex : Bytes
  wellFormed : hex ≠ [] ∧ hex.all isHexDigit = true
  deriving DecidableEq

def Oid.zero (o : Oid) : Bool := o.hex.all (· == '0'.toUInt8)

def Oid.chop (o : Oid) (long : oidMin < o.hex.length) : Oid where
  hex := o.hex.dropLast
  wellFormed := by
    refine ⟨List.ne_nil_of_length_pos ?_,?_⟩
    · rw [List.length_dropLast]
      exact Nat.sub_pos_of_lt (Nat.lt_trans (by decide) long)
    · exact List.all_eq_true.mpr fun b mem => List.all_eq_true.mp o.wellFormed.2 b (List.mem_of_mem_dropLast mem)

inductive Kind where
  | blob
  | tree
  | commit
  | tag
  | missing
  | ambiguous
  deriving DecidableEq

structure Di where
  oidA : Oid
  oidB : Oid
  modeA : Option Bytes
  pathA : Option Bytes
  pathB : Bytes
  n : Nat
  deriving DecidableEq

abbrev Blob := Bytes

structure Want (R I : Type) where
  oidB : Oid
  tryIbxs : Option (List I)
  tryGits : Option (List R)
  trySmsgs : Option (List Blob)
  deriving DecidableEq

inductive Repo (R : Type) where
  | code (git : R)
  | tmp
  deriving DecidableEq

structure Found (R : Type) where
  git : Repo R
  oidFull : Option Bytes
  type : Option Kind
  size : Nat
  di : Option Di
  deriving DecidableEq

inductive Died where
  | tooManySteps
  | loopDetected (oid : Oid)
  | noTryGits
  | noPatches
  | oidAUnset
  | notFound (oid : Oid)
  | pathAMissing
  | updateIndex
  | lsFiles
  | extraFiles
  | notInIndex
  | indexMismatch
  | checkFailed
  | wrongBlob
  | twice
  | outside
  deriving DecidableEq

inductive Answer (R : Type) where
  | found (existing : Found R)
  | missing
  | error (err : Died)
  deriving DecidableEq

/- What new and solve have set for good; `cmdLength` is the length of the command before the paths. -/
structure Job (R I : Type) where
  httpd : Bool
  gits : List R
  inboxes : List I
  haveHints : Bool
  oidWant : Oid
  argSizeMax : Nat
  cmdLength : Nat

structure Solver (R I : Type) where
  todo : List (Want R I)
  patches : List Di
  found : List (Bytes × Found R)
  seenOid : List Oid
  tot : Nat
  tmpDiffs : List Di
  tmpGit : Bool
  userCb : Bool
  answers : List (Answer R)
  deriving DecidableEq

inductive Pending (R I : Type) where
  | check (want : Want R I) (git : R) (others : List R)
  | search (want : Want R I) (ibx : I)
  | cat (want : Want R I) (smsg : Option Blob)
  | updateIndex (stdin : Bytes)
  | apply (di : Di)
  | lsFiles (di : Di)
  | size (di : Di)
  | finish
  deriving DecidableEq

inductive Flow (R I : Type) where
  | next
  | rest
  | wait (call : Pending R I)
  deriving DecidableEq

abbrev Ran (R I : Type) := Solver R I × Except Died (Flow R I)

structure Match where
  diffA : Option Bytes
  diffB : Option Bytes
  oldMode : Option Bytes
  newMode : Option Bytes
  oidA : Oid
  oidB : Oid
  mode : Option Bytes
  minus : Option Bytes
  plus : Option Bytes

inductive Searched where
  | nothing
  | disappeared
  | died
  | messages (smsgs : List Blob)

/- What comes of fetching a message; `torn` is one where each_part has died behind these parts. -/
inductive Fetched where
  | undef
  | email (oid : Blob) (parts : List Match)
  | torn (parts : List Match)

section
variable {R I : Type} (job : Job R I) (self : Solver R I)

def done (res : Answer R) : Solver R I :=
  if self.userCb then { self with userCb := false, answers := self.answers ++ [res] } else self

def failed (err : Died) : Ran R I := (done self (.error err),.error err)

def markFound (oid : Bytes) (info : Found R) : Solver R I :=
  let longer := (info.oidFull.getD []).inits.reverse.takeWhile fun cur => cur != oid && oidMin < cur.length
  { self with found := (oid :: longer).map (·,info) ++ self.found }

def retryCurrent (want : Want R I) : Ran R I := ({ self with todo := want :: self.todo },.ok .next)

def tryHarder (want : Want R I) : Ran R I :=
  if (want.tryIbxs.getD []).length ≠ 0 then retryCurrent self want
  else if long : oidMin < want.oidB.hex.length then
    retryCurrent self { want with tryIbxs := none, oidB := want.oidB.chop long }
  else (done self .missing,.ok .rest)

def dangling : Bytes := "dangling".toUTF8.toList

def existing (oidFull : Option Bytes) (type : Option Kind) : Option Bytes × Option Kind :=
  if type == some .missing || type == some .ambiguous || oidFull == some dangling then (none,none) else (oidFull,type)

def notExisting (want : Want R I) (others : List R) (isrch : Bool) : Ran R I :=
  if others.length ≠ 0 then retryCurrent self { want with tryGits := some others }
  else
    match want.tryIbxs.getD [] with
    | [] => (done self .missing,.ok .rest)
    | ibx :: ibxs =>
      let want := { want with tryGits := none, tryIbxs := some ibxs }
      if isrch then (self,.ok (.wait (.search want ibx))) else tryHarder self want

def ckExistingCb (want : Want R I) (git : R) (others : List R) (oidFull : Option Bytes) (type : Option Kind)
    (size : Option Nat) (isrch : Bool) : Ran R I :=
  match existing oidFull type with
  | (oidFull,type) =>
    if oidFull == some want.oidB.hex || (type.isSome && (!job.haveHints || type == some .blob)) then
      let info : Found R := ⟨.code git,oidFull,type,size.getD 0,none⟩
      if want.oidB = job.oidWant ∨ type ≠ some .blob then (done self (.found info),.ok .rest)
      else (markFound self want.oidB.hex info,.ok .next)
    else notExisting self want others isrch

def findResults (want : Want R I) : Searched → Ran R I
  | .messages smsgs => retryCurrent { self with tmpDiffs := [] } { want with trySmsgs := some smsgs }
  | .died => (self,.error .outside)
  | .nothing | .disappeared => tryHarder self want

def solveExisting (want : Want R I) : Ran R I :=
  match want.tryGits.getD job.gits with
  | [] => (self,.error .noTryGits)
  | git :: others => (self,.ok (.wait (.check { want with tryGits := some (git :: others) } git others)))

def components (path : Bytes) : List Bytes := (path.splitOn '/'.toUInt8).rdropWhile (· == [])

def badComponent (name : Bytes) : Bool := [[],['.'.toUInt8],['.'.toUInt8,'.'.toUInt8]].contains name

def join (names : List Bytes) : Bytes := ['/'.toUInt8].intercalate names

def extractDiff (m : Match) (n : Nat) : Option Di :=
  let pathA := m.diffA <|> m.minus
  let pathB := if (m.diffB.map List.length).any fun len => m.plus.any (len < ·.length) then m.plus else m.diffB <|> m.plus
  let a := (pathA.map fun path => (components (gitUnquote path)).drop 1).getD []
  let b := (components (gitUnquote (pathB.getD []))).drop 1
  if (a ++ b).any badComponent then none
  else some ⟨m.oidA,m.oidB,m.newMode <|> (m.mode <|> m.oldMode),if a = [] then none else some (join a),join b,n⟩

def extractDiffs : Solver R I → List Match → Solver R I
  | self,[] => self
  | self,m :: parts =>
    match extractDiff m (self.tot + 1) with
    | none => extractDiffs self parts
    | some di => extractDiffs { self with tot := self.tot + 1, tmpDiffs := self.tmpDiffs ++ [di] } parts

def extractDiffsDone (want : Want R I) : Ran R I :=
  let want := { want with trySmsgs := none }
  match self.tmpDiffs with
  | [] => tryHarder self want
  | di :: diffs =>
    let self := { self with tmpDiffs := [], patches := di :: diffs ++ self.patches }
    if di.oidA.zero then (self,.ok .next)
    else ({ self with todo := ⟨di.oidA,none,none,none⟩ :: self.todo },.ok .next)

def nextSmsg (want : Want R I) : Ran R I :=
  if (want.trySmsgs.getD []).length ≠ 0 then retryCurrent self want else extractDiffsDone self want

def extractDiffAsync (want : Want R I) (smsg : Option Blob) : Fetched → Ran R I
  | .undef => nextSmsg self want
  | .torn parts => (extractDiffs self parts,.error .outside)
  | .email oid parts => if smsg.getD [] = oid then nextSmsg (extractDiffs self parts) want else failed self .wrongBlob

def extractEml (want : Want R I) : Fetched → Ran R I
  | .undef => nextSmsg self want
  | .torn parts => (extractDiffs self parts,.error .outside)
  | .email _ parts => nextSmsg (extractDiffs self parts) want

def resolvePatch (want : Want R I) : Ran R I :=
  if maxPatch < self.patches.length then (self,.error .tooManySteps)
  else
    match want.trySmsgs with
    | some msgs => (self,.ok (.wait (.cat { want with trySmsgs := some msgs.tail } msgs.head?)))
    | none =>
      if want.tryIbxs.isNone && self.seenOid.contains want.oidB then (self,.error (.loopDetected want.oidB))
      else
        let self := if want.tryIbxs.isNone then { self with seenOid := want.oidB :: self.seenOid } else self
        solveExisting job self { want with tryIbxs := some (want.tryIbxs.getD job.inboxes) }

def truthy (s : Bytes) : Bool := s != [] && s != ['0'.toUInt8]

def prepareIndex : Ran R I :=
  match self.patches with
  | [] => (self,.error .noPatches)
  | di :: _ =>
    if !truthy di.oidA.hex then (self,.error .oidAUnset)
    else if di.oidA.zero then (self,.ok .next)
    else
      match self.found.lookup di.oidA.hex with
      | none => (self,.error (.notFound di.oidA))
      | some existing =>
        let pathA := di.pathA.getD []
        if !truthy pathA then (self,.error .pathAMissing)
        else
          let mode := di.modeA.getD "100644".toUTF8.toList
          (self,.ok (.wait (.updateIndex (mode ++ [' '.toUInt8] ++ existing.oidFull.getD [] ++ ['\t'.toUInt8] ++ pathA ++ [0]))))

def doGitInit : Ran R I := prepareIndex { self with tmpGit := true }

def updateIndexResult (qspErr : Bool) : Ran R I :=
  if qspErr then failed self .updateIndex else (self,.ok .next)

def oidsSameIsh (x y : Oid) : Bool := y.hex.isPrefixOf x.hex || x.hex.isPrefixOf y.hex

def argLength (di : Di) : Nat := (Nat.toDigits 10 di.n).length + 1

/- The loop of do_git_apply behind the first patch: the last one it takes, and those that are left -/
def applyBatch : Nat → Di → List Di → Di × List Di
  | _,di,[] => (di,[])
  | len,di,nxt :: patches =>
    if len < job.argSizeMax && !oidsSameIsh nxt.oidB di.oidB then applyBatch (len + argLength nxt) nxt patches
    else (di,nxt :: patches)

def doGitApply : Ran R I :=
  match self.patches with
  | [] => (self,.error .noPatches)
  | di :: patches =>
    let batch := applyBatch job (job.cmdLength + argLength di) di patches
    ({ self with patches := batch.2 },.ok (.wait (.apply batch.1)))

def skipIdentical (patches : List Di) (curOidB : Oid) : List Di := patches.dropWhile fun nxt => oidsSameIsh curOidB nxt.oidB

def applyResult (di : Di) (qspErr : Bool) : Ran R I :=
  if qspErr then
    if self.patches.head?.any fun nxt => oidsSameIsh nxt.oidB di.oidB then doGitApply job self
    else (done self .missing,.ok .rest)
  else ({ self with patches := skipIdentical self.patches di.oidB },.ok (.wait (.lsFiles di)))

def isSpace (b : UInt8) : Bool :=
  [' '.toUInt8,'\t'.toUInt8,'\n'.toUInt8,'\r'.toUInt8,11,12].contains b

def grepPath (ls : List Bytes) (path : Bytes) : List Bytes := ls.filter fun line => ('\t'.toUInt8 :: path).isSuffixOf line

def indexLine (ls : List Bytes) (pathB : Bytes) : Option (Bytes × Bytes) :=
  match grepPath ls pathB with
  | line :: _ => some (line,pathB)
  | [] =>
    let noTws := pathB.rdropWhile isSpace
    if noTws = pathB then none else (grepPath ls noTws).head?.map (·,noTws)

def parseLsFiles (di : Di) (qspErr : Bool) (stdout : Bytes) : Except Died Di :=
  if qspErr then .error .lsFiles
  else
    let ls := (stdout.splitOn 0).rdropWhile (· == [])
    if 1 < (grepPath ls di.pathB).length then .error .extraFiles
    else
      match indexLine ls di.pathB with
      | none => .error .notInIndex
      | some (line,pathB) =>
        let file := (line.dropWhile (· != '\t'.toUInt8)).drop 1
        if file = pathB then .ok { di with pathB := pathB } else .error .indexMismatch

def lsFilesResult (di : Di) (qspErr : Bool) (stdout : Bytes) : Ran R I :=
  match parseLsFiles di qspErr stdout with
  | .error err => failed self err
  | .ok di => (self,.ok (.wait (.size di)))

def ckSizeCb (di : Di) (oidBFull : Option Bytes) : Option Nat → Ran R I
  | none => (self,.error .checkFailed)
  | some size => (markFound self di.oidB.hex ⟨.tmp,oidBFull,some .blob,size,some di⟩,.ok .next)

def foundOr (oid : Bytes) : Answer R := ((self.found.lookup oid).map .found).getD .missing

def finishCb (oidFull : Option Bytes) (type : Option Kind) : Ran R I :=
  if type = some .blob then (done self (foundOr self (oidFull.getD [])),.ok .rest) else (done self .missing,.ok .rest)

def doFinish : Ran R I :=
  match self.found.lookup job.oidWant.hex with
  | some existing => (done self (.found existing),.ok .rest)
  | none => (self,.ok (.wait .finish))

def stepBody : Ran R I :=
  match self.todo with
  | want :: todo => resolvePatch job { self with todo := todo } want
  | [] =>
    if !self.tmpGit then doGitInit self
    else if self.patches.length ≠ 0 then doGitApply job self
    else if self.userCb then doFinish job self
    else (self,.error .twice)

inductive Point (R I : Type) where
  | queued
  | waiting (call : Pending R I)
  | stopped
  deriving DecidableEq

structure World (R I : Type) where
  self : Solver R I
  point : Point R I
  deriving DecidableEq

def settle : Flow R I → World R I
  | .wait call => ⟨self,.waiting call⟩
  | .next => ⟨self,if job.httpd || self.userCb then .queued else .stopped⟩
  | .rest => ⟨self,if !job.httpd && self.userCb then .queued else .stopped⟩

def caught : Ran R I → World R I
  | (self,.ok flow) => settle job self flow
  | (self,.error err) => settle job (done self (.error err)) .rest

def warned : Ran R I → World R I
  | (self,.ok flow) => settle job self flow
  | (self,.error _) => settle job self .rest

def callback (ran : Ran R I) : World R I := if job.httpd then warned job ran else caught job ran

def eventStep : World R I := caught job (stepBody job self)

inductive Event where
  | step
  | checked (oidFull : Option Bytes) (type : Option Kind) (size : Option Nat) (isrch : Bool)
  | searched (res : Searched)
  | fetched (res : Fetched)
  | indexed (qspErr : Bool)
  | applied (qspErr : Bool)
  | listed (qspErr : Bool) (stdout : Bytes)
  | sized (oidFull : Option Bytes) (size : Option Nat)
  | finished (oidFull : Option Bytes) (type : Option Kind)

def orMissing (type : Option Kind) : Option Kind := if job.httpd then type else some (type.getD .missing)

def advance : World R I → Event → Option (World R I)
  | ⟨self,.queued⟩,.step => some (eventStep job self)
  | ⟨self,.waiting (.check want git others)⟩,.checked oidFull type size isrch =>
    some (callback job (ckExistingCb job self want git others oidFull (orMissing job type) size isrch))
  | ⟨self,.waiting (.search want _)⟩,.searched res => some (callback job (findResults self want res))
  | ⟨self,.waiting (.cat want smsg)⟩,.fetched res =>
    some (callback job (if job.httpd then extractDiffAsync self want smsg res else extractEml self want res))
  | ⟨self,.waiting (.updateIndex _)⟩,.indexed qspErr => some (warned job (updateIndexResult self qspErr))
  | ⟨self,.waiting (.apply di)⟩,.applied qspErr => some (warned job (applyResult job self di qspErr))
  | ⟨self,.waiting (.lsFiles di)⟩,.listed qspErr stdout => some (warned job (lsFilesResult self di qspErr stdout))
  | ⟨self,.waiting (.size di)⟩,.sized oidFull size => some (callback job (ckSizeCb self di oidFull size))
  | ⟨self,.waiting .finish⟩,.finished oidFull type => some (callback job (finishCb self oidFull (orMissing job type)))
  | _,_ => none

def idle : Solver R I := ⟨[],[],[],[],0,[],false,true,[]⟩

def solve : World R I :=
  if job.oidWant.zero then ⟨done (@idle R I) .missing,.stopped⟩
  else ⟨{ @idle R I with todo := [⟨job.oidWant,none,none,none⟩] },.queued⟩

end

/- The events that make a callback die of something that none of its own evals is for: the messages of a search could not
be looked up, a diff could not be taken from a message, or the size of a patched object is not known. -/
def Event.dies : Event → Bool
  | .searched .died | .fetched (.torn _) | .sized _ none => true
  | _ => false

end PublicInbox.SolverGit
