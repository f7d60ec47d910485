import PublicInbox.Library.Brackets

/-! View.pm: the nested page of a thread, one message after the other. -/
namespace PublicInbox.View
open Brackets

inductive Node where
  | node (mid subject : String) (blob : Option String) (children : List Node)

def Node.mid : Node → String
  | node mid _ _ _ => mid

def Node.subject : Node → String
  | node _ subject _ _ => subject

def Node.blob : Node → Option String
  | node _ _ blob _ => blob

def Node.children : Node → List Node
  | node _ _ _ children => children

inductive Elem where
  | ul
  | li
  deriving DecidableEq

abbrev Tag := Mark Elem

inductive Piece where
  | tag (tag : Tag)
  | htmlTop (title : String)
  | eml (smsg : Node)
  | ghost (mid : String)
  | skel

structure Ctx where
  queue : List (Nat × Node)
  nr : Nat
  curLevel : Nat
  level : Nat
  skel : Bool
  out : List Piece

def preorder : Nat → List Node → List (Nat × Node)
  | _,[] => []
  | level,.node mid subject blob children :: rest =>
    (level,.node mid subject blob children) :: (preorder (level + 1) children ++ preorder level rest)
termination_by _ forest => forest

def pending (q : List (Nat × Node)) : List (Nat × Node) := q.flatMap fun e => preorder e.1 [e.2]

theorem preorderCons (level : Nat) (n : Node) (rest : List Node) :
    preorder level (n :: rest) = (level,n) :: (preorder (level + 1) n.children ++ preorder level rest) := by
  cases n
  rw [preorder]
  rfl

theorem preorderPending (level : Nat) (forest : List Node) : pending (forest.map (level,·)) = preorder level forest := by
  induction forest with
  | nil => simp [pending,preorder]
  | cons n forest ih =>
    have one : preorder level [n] = (level,n) :: preorder (level + 1) n.children := by
      rw [preorderCons]
      simp [preorder]
    rw [preorderCons,← ih]
    simp [pending,one]

theorem pendingCons (level : Nat) (n : Node) (q : List (Nat × Node)) :
    pending ((level,n) :: q) = (level,n) :: pending (n.children.map (level + 1,·) ++ q) := by
  have split : pending (n.children.map (level + 1,·) ++ q) = preorder (level + 1) n.children ++ pending q := by
    rw [← preorderPending]
    exact List.flatMap_append
  rw [split]
  show preorder level [n] ++ pending q = _
  rw [preorderCons]
  simp [preorder]

def closings (n : Nat) : List Tag := (List.replicate n [.closes .ul,.closes .li]).flatten

def adjLevel (max level : Nat) : List Tag × List Tag × Nat :=
  if level = 0 then
    if max = 0 then ([],[],max) -- flat output
    else ((if 1 < max then closings (max - 1) else []) ++ [.closes .ul],[],0)
  else if level = max then ([.opens .li],[.closes .li],max)
  else if level < max then ((if 1 < max then closings (max - level) else []) ++ [.opens .li],[.closes .li],level)
  else ((if max ≠ 0 then [.opens .li] else []) ++ [.opens .ul,.opens .li],[.closes .li],level)

def threadAdjLevel (ctx : Ctx) (level : Nat) : List Tag × List Tag × Ctx :=
  let adj := adjLevel ctx.curLevel level
  (adj.1,adj.2.1,{ ctx with curLevel := adj.2.2 })

def Ctx.print (ctx : Ctx) (pieces : List Piece) : Ctx := { ctx with out := ctx.out ++ pieces }

def threadEmitEml (ctx : Ctx) (eml : Node) : Ctx :=
  let adj := threadAdjLevel ctx ctx.level
  adj.2.2.print (adj.1.map .tag ++ .eml eml :: adj.2.1.map .tag)

def ghostIndexEntry (ctx : Ctx) (level : Nat) (node : Node) : List Piece × Ctx :=
  let adj := threadAdjLevel ctx level
  (adj.1.map .tag ++ .ghost node.mid :: adj.2.1.map .tag,adj.2.2)

def nextInQueue (ghostOk : Bool) (q : List (Nat × Node)) : Option (Nat × Node) × List (Nat × Node) :=
  match q with
  | [] => (none,[])
  | (level,smsg) :: q =>
    if ghostOk || smsg.blob.isSome then (some (level,smsg),smsg.children.map (level + 1,·) ++ q)
    else nextInQueue ghostOk (smsg.children.map (level + 1,·) ++ q)
termination_by (pending q).length
decreasing_by
  rw [pendingCons]
  exact Nat.lt_succ_self _

theorem nextPending (ghostOk : Bool) (q : List (Nat × Node)) :
    (nextInQueue ghostOk q).1 = ((pending q).dropWhile fun e => !(ghostOk || e.2.blob.isSome)).head? ∧
    pending (nextInQueue ghostOk q).2 = ((pending q).dropWhile fun e => !(ghostOk || e.2.blob.isSome)).tail := by
  fun_induction nextInQueue ghostOk q with
  | case1 => exact ⟨rfl,rfl⟩
  | case2 level smsg q shown =>
    rw [pendingCons,List.dropWhile_cons]
    simp [shown]
  | case3 level smsg q shown ih =>
    rw [pendingCons,List.dropWhile_cons]
    simpa [shown] using ih

theorem nextShorter {ghostOk : Bool} {q q' : List (Nat × Node)} {e : Nat × Node}
    (found : nextInQueue ghostOk q = (some e,q')) : (pending q').length < (pending q).length := by
  obtain ⟨first,rest⟩ := nextPending ghostOk q
  rw [found] at first rest
  have part := (@List.dropWhile_sublist _ (pending q) fun e => !(ghostOk || e.2.blob.isSome)).length_le
  rw [rest,List.length_tail]
  cases shown : (pending q).dropWhile fun e => !(ghostOk || e.2.blob.isSome) with
  | nil =>
    rw [shown] at first
    cases first
  | cons e' es =>
    rw [shown] at part
    exact part

def fill (ghostOk : Bool) (ctx : Ctx) : Option Node × Ctx :=
  match found : nextInQueue ghostOk ctx.queue with
  | (some (lvl,smsg),queue) =>
    if smsg.blob.isSome then
      -- the first one is behind the top of the page
      (some smsg,Ctx.print { ctx with queue, level := lvl } (if ghostOk then [] else [.htmlTop smsg.subject]))
    else
      let entry := ghostIndexEntry { ctx with queue } lvl smsg
      fill ghostOk (entry.2.print entry.1)
  | (none,queue) =>
    let adj := threadAdjLevel { ctx with queue } 0
    (none,Ctx.print { adj.2.2 with skel := false } (adj.1.map .tag ++ adj.2.1.map .tag ++ [.skel]))
termination_by (pending ctx.queue).length
decreasing_by exact nextShorter found

def streamThreadI (ctx : Ctx) : Option Node × Ctx :=
  if ctx.skel then fill (ctx.nr != 0) { ctx with nr := ctx.nr + 1 } else (none,ctx)

theorem fillShorter {ghostOk : Bool} {ctx ctx' : Ctx} {smsg : Node} (found : fill ghostOk ctx = (some smsg,ctx')) :
    (pending ctx'.queue).length < (pending ctx.queue).length := by
  fun_induction fill ghostOk ctx with
  | case1 ctx lvl smsg queue next shown =>
    cases found
    exact nextShorter next
  | case2 ctx lvl smsg queue next shown entry ih => exact (ih found).trans (nextShorter next)
  | case3 => cases found

def getlines (ctx : Ctx) : Ctx :=
  match _found : streamThreadI ctx with
  | (some smsg,ctx') => getlines (threadEmitEml ctx' smsg)
  | (none,ctx') => ctx'
termination_by (pending ctx.queue).length
decreasing_by
  unfold streamThreadI at _found
  split at _found
  · have shorter := fillShorter _found
    exact shorter
  · cases _found

def streamThread (rootset : List Node) : Ctx := getlines ⟨rootset.map (0,·),0,0,0,true,[]⟩

end PublicInbox.View
