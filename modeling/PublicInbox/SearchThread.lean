import Mathlib.Data.String.Basic
import PublicInbox.Library.Table
import PublicInbox.Library.Forest
import PublicInbox.Mid

/-! SearchThread.pm. A container is named by its key in `%id_table`, which is its `mid` for as
long as the key matters; imposters are the messages beside it with the same `mid`. -/
namespace PublicInbox.SearchThread
open Keyed

structure Smsg where
  mid : String
  references : Option String
  ds : Int
  deriving DecidableEq

/- What a container holds: {blob} is there unless it is a ghost that `visible` did not find. -/
inductive Content where
  | message (smsg : Smsg)
  | ghost
  | filled (smsg : Smsg)
  deriving DecidableEq

structure Container where
  content : Content
  parent : Option String
  children : List String

abbrev Containers := Table String Container

structure Env where
  smsgByMid : String → Option Smsg
  values : List String → List String
  valuesPerm : ∀ l, (values l).Perm l
  ordersub : Containers → List String → List String
  ordersubPerm : ∀ t l, (ordersub t l).Perm l

structure Grepped where
  idTable : Containers
  imposters : List Smsg
  kids : List Smsg

def grepMsg (g : Grepped) (smsg : Smsg) : Grepped :=
  if (g.idTable.get? smsg.mid).isSome then { g with imposters := g.imposters ++ [smsg] }
  else
    { g with
      idTable := g.idTable.insert smsg.mid ⟨.message smsg,none,[]⟩
      kids := if smsg.references.isSome then g.kids ++ [smsg] else g.kids }

def grepped (msgs : List Smsg) : Grepped := msgs.foldl grepMsg ⟨.empty,[],[]⟩

def sortedKids (msgs : List Smsg) : List Smsg :=
  (grepped msgs).kids.mergeSort (fun a b => a.ds ≤ b.ds)

def parentOf (t : Containers) (k : String) : Option String := (t.get? k).bind Container.parent

def containerFor (t : Containers) (ref : String) : Containers :=
  if (t.get? ref).isSome then t else t.insert ref ⟨.ghost,none,[]⟩

def climb (t : Containers) (self : String) : Nat → List String → String → Option Bool
  | 0, _, _ => none
  | fuel + 1, seen, child =>
    if self = child ∨ child ∈ seen then some true
    else match parentOf t child with
      | none => some false
      | some up => climb t self fuel (child :: seen) up

def hasDescendent (t : Containers) (self child : String) : Option Bool :=
  climb t self (t.keys.length + 1) [] child

def detach (t : Containers) (child : String) : Containers :=
  match parentOf t child with
  | none => t
  | some up => t.update up (fun c => { c with children := c.children.filter (fun k => k ≠ child) })

def addChild (t : Containers) (self child : String) : Option Containers :=
  if self = child then none
  else
    let t := (detach t child).update self (fun c =>
      { c with children := if child ∈ c.children then c.children else c.children ++ [child] })
    some (t.update child (fun c => { c with parent := some self }))

def linkRef (st : Containers × Option String) (ref : String) : Option (Containers × Option String) :=
  let t := containerFor st.1 ref
  match st.2 with
  | none => some (t,some ref)
  | some prev =>
    if (parentOf t ref).isSome then some (t,some ref)
    else match hasDescendent t ref prev with
      | none => none
      | some true => some (t,some ref)
      | some false => (addChild t prev ref).map (fun t => (t,some ref))

def refsOf (smsg : Smsg) : List String := midExtract (smsg.references.getD "")

def linkLast (mid : String) (st : Containers × Option String) : Option Containers :=
  match st.2 with
  | none => some st.1
  | some prev => match hasDescendent st.1 mid prev with
    | none => none
    | some true => some st.1
    | some false => addChild st.1 prev mid

def linkKid (t : Containers) (smsg : Smsg) : Option Containers :=
  ((refsOf smsg).foldlM linkRef (t,none)).bind (linkLast smsg.mid)

def visible (env : Env) (t : Containers) (k : String) : Containers × Bool :=
  match t.get? k with
  | none => (t,false)
  | some c => match c.content with
    | .ghost => match env.smsgByMid k with
      | some smsg => (t.update k (fun c => { c with content := .filled smsg }),true)
      | none => (t,!c.children.isEmpty)
    | _ => (t,true)

def grepRoot (env : Env) (st : Containers × List String) (k : String) : Containers × List String :=
  let t := st.1.update k (fun c => { c with parent := none })
  if (parentOf st.1 k).isSome then (t,st.2)
  else match visible env t k with
    | (t,true) => (t,st.2 ++ [k])
    | (t,false) => (t,st.2)

inductive Node where
  | container (mid : String)
  | imposter (smsg : Smsg)

structure Ordered where
  idTable : Containers
  arrays : Table String (List Node)

structure Visiting where
  idTable : Containers
  seen : List String
  shown : List String

def grepChild (env : Env) (v : Visiting) (k : String) : Visiting :=
  if k ∈ v.seen then v
  else match visible env v.idTable k with
    | (t,true) => ⟨t,k :: v.seen,v.shown ++ [k]⟩
    | (t,false) => ⟨t,k :: v.seen,v.shown⟩

def orderChildren (env : Env) : Nat → List String → List String → Ordered → Option Ordered
  | _, [], _, o => some o
  | 0, _ :: _, _, _ => none
  | fuel + 1, cur :: q, seen, o =>
    match o.idTable.get? cur, o.arrays.get? cur with
    | some c, none =>
      let v := (env.values c.children).foldl (grepChild env) ⟨o.idTable,seen,[]⟩
      let cs := if 1 < v.shown.length then env.ordersub v.idTable v.shown else v.shown
      orderChildren env fuel (q ++ cs) v.seen ⟨v.idTable,o.arrays.insert cur (cs.map .container)⟩
    | _, _ => none

def unshiftImposter (arrays : Table String (List Node)) (smsg : Smsg) : Option (Table String (List Node)) :=
  (arrays.get? smsg.mid).map (fun cs => arrays.insert smsg.mid (.imposter smsg :: cs))

structure Threaded where
  rootset : List String
  ordered : Ordered

def thread (env : Env) (msgs : List Smsg) : Option Threaded := do
  let t ← (sortedKids msgs).foldlM linkKid (grepped msgs).idTable
  let (t,roots) := (env.values t.keys).foldl (grepRoot env) (t,[])
  let roots := env.ordersub t roots
  let o ← roots.foldlM (fun o root => orderChildren env (o.idTable.keys.length + 1) [root] [root] o)
    ⟨t,.empty⟩
  let arrays ← (grepped msgs).imposters.foldlM unshiftImposter o.arrays
  some ⟨roots,⟨o.idTable,arrays⟩⟩

inductive Yields (o : Ordered) : List Node → List Smsg → Prop where
  | nil : Yields o [] []
  | message {mid : String} {c : Container} {smsg : Smsg} {cs rest : List Node} {inner outer : List Smsg}
      (found : o.idTable.get? mid = some c) (content : c.content = .message smsg)
      (array : o.arrays.get? mid = some cs) (below : Yields o cs inner) (after : Yields o rest outer) :
      Yields o (.container mid :: rest) (smsg :: (inner ++ outer))
  | ghost {mid : String} {c : Container} {cs rest : List Node} {inner outer : List Smsg}
      (found : o.idTable.get? mid = some c) (content : ∀ smsg, c.content ≠ .message smsg)
      (array : o.arrays.get? mid = some cs) (below : Yields o cs inner) (after : Yields o rest outer) :
      Yields o (.container mid :: rest) (inner ++ outer)
  | imposter {smsg : Smsg} {rest : List Node} {outer : List Smsg} (after : Yields o rest outer) :
      Yields o (.imposter smsg :: rest) (smsg :: outer)

end PublicInbox.SearchThread
