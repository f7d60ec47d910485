import Mathlib.Data.List.Sort
import PublicInbox.Library.Decimal

/-! Fetch.pm: which epochs of a v2 inbox are fetched or cloned, and the manifest that is kept. Epoch numbers are text where
the code has them as such. -/
namespace PublicInbox.Fetch
open Decimal

abbrev Text := List Char

def dotGit : Text := ['.','g','i','t']
def slashGit : Text := ['/','g','i','t','/']

structure Entry where
  fingerprint : Option String
  modified : Option Int
  deriving DecidableEq

abbrev Manifest := List (Text × Entry)

def epochName (name : Text) : Option Text :=
  let nr := name.take (name.length - 4)
  if name.drop (name.length - 4) = dotGit ∧ nr ≠ [] ∧ nr.all Char.isDigit = true then some nr else none

def gitEpochs (readdir : List Text) : List Nat := ((readdir.filterMap epochName).map value).insertionSort (· ≥ ·)

/- The inbox directory; `remoteUrl` is remote.*.url of an epoch, without slashes at its end. -/
structure Inbox where
  dir : Text
  readdir : List Text
  writable : Nat → Bool
  remoteUrl : Nat → Option Text
  stored : Option Manifest

inductive Reply where
  | failed
  | missing
  | manifest (m1 : Manifest)

inductive Cmd where
  | fetch (nr : Text)
  | clone (nr : Text)
  deriving DecidableEq

def Cmd.nr : Cmd → Text
  | fetch nr | clone nr => nr

inductive Died where
  | noGitUrl
  | noInboxUrl (gitUrl : Text)
  deriving DecidableEq

structure Done where
  cmds : List Cmd
  kept : Option Manifest
  deriving DecidableEq

def stripEnd (suffix s : Text) : Option Text := if suffix.isSuffixOf s then some (s.take (s.length - suffix.length)) else none

def inferInboxUrl (gitUrl : Text) (epoch : Nat) : Option Text :=
  let nr := '/' :: render epoch
  let ends := [nr ++ dotGit ++ ['/'],nr ++ dotGit,nr ++ ['/'],nr]
  (ends.map (['/','g','i','t'] ++ ·) ++ ends).findSome? fun suffix => stripEnd suffix gitUrl

section
variable (ibx : Inbox)

def Inbox.epochs : List Nat := gitEpochs ibx.readdir

def Inbox.skipped : List Nat := ibx.epochs.filter fun nr => !ibx.writable nr

def Inbox.left : List Nat := ibx.epochs.filter ibx.writable

def inboxUrl : Except Died Text :=
  match ibx.left.findSome? fun nr => (ibx.remoteUrl nr).map (·,nr) with
  | none => .error .noGitUrl
  | some (gitUrl,epoch) =>
    -- neither of the two false texts is a URL
    if gitUrl = [] ∨ gitUrl = ['0'] then .error .noGitUrl
    else
      match inferInboxUrl gitUrl epoch with
      | none => .error (.noInboxUrl gitUrl)
      | some url => .ok url

end

def chopSlashes (path : Text) : Text := (path.reverse.dropWhile (· == '/')).reverse

def isEpochOf (path key : Text) : Bool :=
  (path ++ slashGit).isPrefixOf key && (epochName (key.drop (path ++ slashGit).length)).isSome

def chopFront : Text → Option Text
  | '/' :: path =>
    if path.takeWhile (· != '/') ≠ [] ∧ (path.dropWhile (· != '/')) ≠ [] then some (path.dropWhile (· != '/')) else none
  | _ => none

def deduceLoop (m : Manifest) : Nat → Text → Option Text × List Text
  | rounds,path =>
    let v1 := if (m.lookup path).isSome then some path else none
    let v2Epochs := (m.map Prod.fst).filter (isEpochOf path)
    if v1.isSome || v2Epochs ≠ [] then (v1,v2Epochs)
    else
      match rounds,chopFront path with
      | rounds + 1,some path => deduceLoop m rounds path
      | _,_ => (v1,v2Epochs)

def deduceEpochs (m : Manifest) (path : Text) : Option Text × List Text := deduceLoop m path.length (chopSlashes path)

def unchanged (m0 : Manifest) (k : Text) (cur : Entry) : Bool :=
  match m0.lookup k with
  | none => false
  | some v0 =>
    match v0.fingerprint,cur.fingerprint,v0.modified,cur.modified with
    | some f0,some f1,some t0,some t1 => f0 == f1 && t0 == t1
    | _,_,_,_ => false

def mdiff (m0 : Option Manifest) (m1 : Manifest) : Manifest := m1.filter fun e => !unchanged (m0.getD []) e.1 e.2

def epochOf (path : Text) : Option Text :=
  if path.contains '/' then epochName (path.reverse.takeWhile (· != '/')).reverse else none

def has (part s : Text) : Bool := s.tails.any part.isPrefixOf

/- m!/git/$re\.git\z!, where $re is the numbers joined by |: only the first has the slashes and only the last the end. -/
def laterMatches : List Text → Text → Bool
  | [],_ => false
  | [nr],key => (nr ++ dotGit).isSuffixOf key
  | nr :: nrs,key => has nr key || laterMatches nrs key

def reMatches : List Text → Text → Bool
  | [],key => (slashGit ++ dotGit).isSuffixOf key
  | [nr],key => (slashGit ++ nr ++ dotGit).isSuffixOf key
  | nr :: nrs,key => has (slashGit ++ nr) key || laterMatches nrs key

section
variable (ibx : Inbox)

def Inbox.gitDir (nr : Text) : Text := ibx.dir ++ slashGit ++ nr ++ dotGit

def noManifest : List Text :=
  ibx.left.map (fun nr => ibx.gitDir (render nr)) ++
    match ibx.left.getLast? with
    | none => []
    | some nr => if ibx.skipped.contains (nr + 1) then [] else [ibx.gitDir (render (nr + 1))]

def gitDirs (v2Epochs : List Text) : List Text :=
  ((v2Epochs.filterMap epochOf).filter fun nr => !(ibx.skipped.map render).contains nr).insertionSort (value · ≤ value ·)

def culled (keys : List Text) (m1 : Manifest) : Manifest :=
  if ibx.skipped.length ≠ 0 then m1.filter fun e => !reMatches keys e.1 else m1

/- The loop over @git_dir: what is run, and whether it got to the end. `git` says which commands succeed. -/
def runCmds (git : Cmd → Bool) (code : Nat) : List Text → List Text → List Cmd × Bool
  | _,[] => ([],true)
  | there,nr :: nrs =>
    let cmd := if there.contains nr then Cmd.fetch nr else .clone nr
    if git cmd then
      let rest := runCmds git code (nr :: there) nrs
      (cmd :: rest.1,rest.2)
    else if code == 200 || there.contains nr then ([cmd],false)
    else
      let rest := runCmds git code there nrs
      (cmd :: rest.1,rest.2)

def doFetch (uriPath : Text → Text) (keys : List Text) (git : Cmd → Bool) (reply : Reply) : Except Died Done :=
  match inboxUrl ibx with
  | .error err => .error err
  | .ok url =>
    let there := ibx.readdir.filterMap epochName
    match reply with
    | .failed => .ok ⟨[],none⟩
    | .missing => .ok ⟨(runCmds git 404 there (gitDirs ibx (noManifest ibx))).1,none⟩
    | .manifest m1 =>
      match mdiff ibx.stored m1 with
      | [] => .ok ⟨[],none⟩
      | e :: es =>
        let ran := runCmds git 200 there (gitDirs ibx (deduceEpochs (e :: es) (uriPath url)).2)
        .ok ⟨ran.1,if ran.2 then some (culled ibx keys m1) else none⟩

end

end PublicInbox.Fetch
