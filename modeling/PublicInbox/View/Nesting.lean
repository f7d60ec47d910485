import PublicInbox.SearchThread.Trees
import PublicInbox.View.Stream

/-! The list tags of the nested page of a thread. -/
namespace PublicInbox.View
open Brackets

def linesOf (cur : Nat) : List (Nat × Node) → List Piece
  | [] => (adjLevel cur 0).1.map .tag ++ (adjLevel cur 0).2.1.map .tag ++ [.skel]
  | (level,n) :: rest =>
    let adj := adjLevel cur level
    (adj.1.map .tag ++ (if n.blob.isSome then .eml n else .ghost n.mid) :: adj.2.1.map .tag) ++ linesOf adj.2.2 rest

def ghostly (e : Nat × Node) : Bool := e.2.blob.isNone

def total (ctx : Ctx) : List Piece := ctx.out ++ linesOf ctx.curLevel (pending ctx.queue)

theorem nextSome {ghostOk : Bool} {q q' : List (Nat × Node)} {e : Nat × Node} (found : nextInQueue ghostOk q = (some e,q')) :
    (pending q).dropWhile (fun e => !(ghostOk || e.2.blob.isSome)) = e :: pending q' := by
  obtain ⟨first,rest⟩ := nextPending ghostOk q
  rw [found] at first rest
  rw [show pending q' = _ from rest]
  exact (List.cons_head?_tail first.symm).symm

theorem nextNone {ghostOk : Bool} {q q' : List (Nat × Node)} (found : nextInQueue ghostOk q = (none,q')) :
    (pending q).dropWhile (fun e => !(ghostOk || e.2.blob.isSome)) = [] := by
  obtain ⟨first,_⟩ := nextPending ghostOk q
  rw [found] at first
  exact List.head?_eq_none_iff.mp first.symm

theorem keepAll (l : List (Nat × Node)) : l.dropWhile (fun e => !(true || e.2.blob.isSome)) = l := by
  cases l <;> simp

theorem fillGhosts (ctx : Ctx) :
    match fill true ctx with
    | (some smsg,ctx') => smsg.blob.isSome = true ∧ ctx'.nr = ctx.nr ∧ ctx'.skel = ctx.skel ∧
      total ctx = ctx'.out ++ linesOf ctx'.curLevel ((ctx'.level,smsg) :: pending ctx'.queue)
    | (none,ctx') => ctx'.out = total ctx := by
  fun_induction fill true ctx with
  | case1 ctx lvl smsg queue next shown =>
    have first := nextSome next
    rw [keepAll] at first
    refine ⟨shown,rfl,rfl,?_⟩
    rw [total,first]
    simp [Ctx.print]
  | case2 ctx lvl smsg queue next shown entry ih =>
    have first := nextSome next
    rw [keepAll] at first
    have printed : total (entry.2.print entry.1) = total ctx := by
      rw [total,total,first,linesOf]
      simp only [entry,ghostIndexEntry,threadAdjLevel,Ctx.print,shown,Bool.false_eq_true,if_false,List.append_assoc]
    rw [← printed]
    exact ih
  | case3 ctx queue next adj =>
    have first := nextNone next
    rw [keepAll] at first
    rw [total,first,linesOf]
    simp [adj,threadAdjLevel,Ctx.print]

theorem emitTotal (ctx : Ctx) (smsg : Node) (message : smsg.blob.isSome = true) :
    total (threadEmitEml ctx smsg) = ctx.out ++ linesOf ctx.curLevel ((ctx.level,smsg) :: pending ctx.queue) := by
  rw [linesOf]
  simp only [total,threadEmitEml,threadAdjLevel,Ctx.print,message,if_true,List.append_assoc]

theorem getlinesTotal (ctx : Ctx) (skel : ctx.skel = true) (called : ctx.nr ≠ 0) : (getlines ctx).out = total ctx := by
  have looks (ctx : Ctx) (skel : ctx.skel = true) (called : ctx.nr ≠ 0) :
      streamThreadI ctx = fill true { ctx with nr := ctx.nr + 1 } := by
    rw [streamThreadI,if_pos skel,bne_iff_ne.mpr called]
  fun_induction getlines ctx with
  | case1 ctx smsg ctx' found ih =>
    have filled := fillGhosts { ctx with nr := ctx.nr + 1 }
    rw [← looks ctx skel called,found] at filled
    obtain ⟨message,nr,kept,same⟩ := filled
    have more : ctx'.nr ≠ 0 := by
      rw [nr]
      exact Nat.succ_ne_zero _
    rw [ih (kept.trans skel) more,emitTotal ctx' smsg message,← same]
    rfl
  | case2 ctx ctx' found =>
    have filled := fillGhosts { ctx with nr := ctx.nr + 1 }
    rw [← looks ctx skel called,found] at filled
    exact filled

theorem dropGhosts : (fun e : Nat × Node => !(false || e.2.blob.isSome)) = ghostly := by
  funext e
  simp [ghostly]

theorem fillFirst (ctx : Ctx) :
    match fill false ctx with
    | (some smsg,ctx') => smsg.blob.isSome = true ∧ ctx'.nr = ctx.nr ∧ ctx'.skel = ctx.skel ∧
      ctx'.out = ctx.out ++ [.htmlTop smsg.subject] ∧ ctx'.curLevel = ctx.curLevel ∧
      (pending ctx.queue).dropWhile ghostly = (ctx'.level,smsg) :: pending ctx'.queue
    | (none,ctx') => ctx'.out = ctx.out ++ linesOf ctx.curLevel [] ∧ (pending ctx.queue).dropWhile ghostly = [] := by
  fun_cases fill false ctx with
  | case1 lvl smsg queue next message =>
    have first := nextSome next
    rw [dropGhosts] at first
    exact ⟨message,rfl,rfl,rfl,rfl,first⟩
  | case2 lvl smsg queue next ghost entry =>
    have first := nextSome next
    have kept := List.head?_dropWhile_not ghostly (pending ctx.queue)
    rw [← dropGhosts,first] at kept
    exact absurd (by simpa using kept) ghost
  | case3 queue next adj =>
    have first := nextNone next
    rw [dropGhosts] at first
    refine ⟨?_,first⟩
    rw [linesOf]
    rfl

def shown (rootset : List Node) : List (Nat × Node) := (preorder 0 rootset).dropWhile ghostly

def pageTop : List (Nat × Node) → List Piece
  | [] => []
  | e :: _ => [.htmlTop e.2.subject]

theorem streamLines (rootset : List Node) :
    (streamThread rootset).out = pageTop (shown rootset) ++ linesOf 0 (shown rootset) := by
  have filled := fillFirst ⟨rootset.map (0,·),1,0,0,true,[]⟩
  have begins : pending (rootset.map (0,·)) = preorder 0 rootset := preorderPending 0 rootset
  have called : streamThreadI ⟨rootset.map (0,·),0,0,0,true,[]⟩ = fill false ⟨rootset.map (0,·),1,0,0,true,[]⟩ := rfl
  rw [begins,← called] at filled
  unfold streamThread
  rw [getlines]
  split
  · rename_i smsg ctx' found
    rw [found] at filled
    obtain ⟨message,nr,skel,out,level,first⟩ := filled
    rw [getlinesTotal (threadEmitEml ctx' smsg) skel (nr ▸ Nat.one_ne_zero),emitTotal _ _ message,out,level,shown,first]
    rfl
  · rename_i ctx' found
    rw [found] at filled
    rw [filled.1,shown,filled.2]
    rfl

/-! What the page is to be -/

def tagOf : Piece → Option Tag
  | .tag tag => some tag
  | _ => none

def tagsOf (pieces : List Piece) : List Tag := pieces.filterMap tagOf

def streamed : Int → List Piece → List (Int × Node)
  | _,[] => []
  | inside,.tag tag :: pieces => streamed (inside + worth .ul tag) pieces
  | inside,.eml smsg :: pieces => (inside,smsg) :: streamed inside pieces
  | inside,_ :: pieces => streamed inside pieces

def messages (rootset : List Node) : List (Nat × Node) := (preorder 0 rootset).filter fun e => e.2.blob.isSome

structure Nested (rootset : List Node) (out : List Piece) : Prop where
  balanced : Matched (tagsOf out)
  all : (streamed 0 out).map Prod.snd = (messages rootset).map Prod.snd
  apart : ∀ (i j : Nat) x y a b,(messages rootset)[i]? = some x → (messages rootset)[j]? = some y → y.1 = x.1 + 1 →
    (streamed 0 out)[i]? = some a → (streamed 0 out)[j]? = some b → b.1 = a.1 + 1

@[simp] theorem tagsOfTags (tags : List Tag) : tagsOf (tags.map .tag) = tags := by
  induction tags with
  | nil => rfl
  | cons tag tags ih => exact congrArg (tag :: ·) ih

@[simp] theorem tagsOfAppend (ps qs : List Piece) : tagsOf (ps ++ qs) = tagsOf ps ++ tagsOf qs := List.filterMap_append

theorem streamedTags (inside : Int) (tags : List Tag) (pieces : List Piece) :
    streamed inside (tags.map .tag ++ pieces) = streamed (inside + depth .ul tags) pieces := by
  induction tags generalizing inside with
  | nil => simp [depth]
  | cons tag tags ih =>
    rw [List.map_cons,List.cons_append,streamed,ih,depthCons,add_assoc]

/-! One entry -/

def opened : Nat → List Elem
  | 0 => []
  | 1 => [.ul]
  | n + 2 => .ul :: .li :: opened (n + 1)

theorem closingsAfter (n m : Nat) : after (opened (n + m + 1)) (closings n) = some (opened (m + 1)) := by
  induction n with
  | zero => simp [closings,after]
  | succ n ih =>
    have first : closings (n + 1) = .closes .ul :: .closes .li :: closings n := rfl
    have top : opened (n + 1 + m + 1) = .ul :: .li :: opened (n + m + 1) := by
      rw [show n + 1 + m + 1 = (n + m) + 2 by omega]
      rfl
    rw [first,top]
    exact ih

theorem adjAfter {cur level : Nat} (climbs : level ≤ cur + 1) :
    after (opened cur) (adjLevel cur level).1 = some (if level = 0 then [] else .li :: opened level) ∧
    after (if level = 0 then [] else .li :: opened level) (adjLevel cur level).2.1 = some (opened level) ∧
    (adjLevel cur level).2.2 = level := by
  unfold adjLevel
  rcases Nat.eq_zero_or_pos level with rfl | pos
  · rw [if_pos rfl,if_pos rfl]
    rcases cur with _ | cur
    · exact ⟨rfl,rfl,rfl⟩
    · rw [if_neg (Nat.succ_ne_zero cur)]
      refine ⟨?_,rfl,rfl⟩
      have closed := closingsAfter cur 0
      rw [Nat.add_zero] at closed
      rw [afterAppend]
      split
      · rw [Nat.add_sub_cancel,closed]
        rfl
      · rename_i flat
        obtain rfl : cur = 0 := by omega
        rfl
  · have some : level ≠ 0 := Nat.ne_of_gt pos
    simp only [if_neg some]
    rcases Nat.lt_trichotomy level cur with less | rfl | more
    · obtain ⟨m,rfl⟩ : ∃ m,level = m + 1 := ⟨level - 1,by omega⟩
      obtain ⟨n,rfl⟩ : ∃ n,cur = n + m + 1 := ⟨cur - (m + 1),by omega⟩
      rw [if_neg (Nat.ne_of_lt less),if_pos less,if_pos (by omega),show n + m + 1 - (m + 1) = n by omega]
      refine ⟨?_,rfl,rfl⟩
      rw [afterAppend,closingsAfter]
      rfl
    · rw [if_pos rfl]
      exact ⟨rfl,rfl,rfl⟩
    · obtain rfl : level = cur + 1 := by omega
      rw [if_neg (by omega),if_neg (by omega)]
      rcases cur with _ | cur
      · exact ⟨rfl,rfl,rfl⟩
      · exact ⟨rfl,rfl,rfl⟩

theorem openedDepth (level : Nat) : (opened level).count .ul = level := by
  fun_induction opened level with
  | case1 => rfl
  | case2 => rfl
  | case3 n ih => simp [ih]

theorem adjDepth {cur level : Nat} (climbs : level ≤ cur + 1) :
    depth .ul (adjLevel cur level).1 = (level : Int) - cur ∧ depth .ul (adjLevel cur level).2.1 = 0 := by
  obtain ⟨before,behind,_⟩ := adjAfter climbs
  have first := afterDepth before .ul
  have second := afterDepth behind .ul
  have item : (if level = 0 then [] else Elem.li :: opened level).count .ul = level := by
    split
    · rename_i zero
      rw [zero]
      rfl
    · simp [openedDepth]
  rw [item,openedDepth] at first second
  omega

theorem adjFirst {level : Nat} (pos : 0 < level) : adjLevel 0 level = ([.opens .ul,.opens .li],[.closes .li],level) := by
  have some : level ≠ 0 := Nat.ne_of_gt pos
  simp [adjLevel,some]

/-! All entries -/

def Climbs : Nat → List (Nat × Node) → Prop
  | _,[] => True
  | cur,e :: rest => e.1 ≤ cur + 1 ∧ Climbs e.1 rest

theorem climbsForest (level : Nat) (forest : List Node) {cur : Nat} {q : List (Nat × Node)} (near : level ≤ cur + 1)
    (behind : ∀ cur,level ≤ cur + 1 → Climbs cur q) : Climbs cur (preorder level forest ++ q) := by
  fun_induction preorder level forest generalizing cur q with
  | case1 level => exact behind cur near
  | case2 level mid subject blob children rest ihKids ihRest =>
    rw [List.cons_append,List.append_assoc]
    refine ⟨near,ihKids (Nat.le_refl _) fun cur' deeper => ?_⟩
    exact ihRest (by omega) behind

theorem climbsShown (rootset : List Node) {e : Nat × Node} {rest : List (Nat × Node)} (is : shown rootset = e :: rest) :
    Climbs e.1 rest := by
  have suffix {cur : Nat} (a : List (Nat × Node)) (climbs : Climbs cur (a ++ e :: rest)) : Climbs e.1 rest := by
    induction a generalizing cur with
    | nil => exact climbs.2
    | cons x a ih => exact ih climbs.2
  have whole : Climbs 0 (preorder 0 rootset ++ []) := climbsForest 0 rootset (Nat.zero_le 1) fun _ _ => trivial
  have parts := @List.takeWhile_append_dropWhile _ ghostly (preorder 0 rootset)
  rw [show List.dropWhile ghostly _ = _ from is] at parts
  rw [List.append_nil,← parts] at whole
  exact suffix _ whole

theorem linesAfter {cur : Nat} {es : List (Nat × Node)} (climbs : Climbs cur es) :
    after (opened cur) (tagsOf (linesOf cur es)) = some [] := by
  induction es generalizing cur with
  | nil =>
    obtain ⟨before,behind,_⟩ := adjAfter (Nat.zero_le (cur + 1))
    have tags : tagsOf (linesOf cur []) = (adjLevel cur 0).1 ++ (adjLevel cur 0).2.1 := by
      rw [linesOf,tagsOfAppend,tagsOfAppend,tagsOfTags,tagsOfTags]
      exact List.append_nil _
    rw [tags,afterAppend,before]
    exact behind
  | cons e es ih =>
    obtain ⟨level,n⟩ := e
    obtain ⟨before,behind,same⟩ := adjAfter climbs.1
    have tags : tagsOf (linesOf cur ((level,n) :: es)) =
        (adjLevel cur level).1 ++ ((adjLevel cur level).2.1 ++ tagsOf (linesOf level es)) := by
      rw [linesOf,tagsOfAppend,tagsOfAppend,tagsOfTags,same]
      have own : tagOf (if n.blob.isSome then Piece.eml n else .ghost n.mid) = none := by split <;> rfl
      have skips (ps : List Piece) : tagsOf ((if n.blob.isSome then Piece.eml n else .ghost n.mid) :: ps) = tagsOf ps :=
        List.filterMap_cons_none own
      rw [skips,tagsOfTags,List.append_assoc]
    rw [tags,afterAppend,before,Option.bind_some,afterAppend,behind]
    exact ih climbs.2

theorem linesStreamed {cur : Nat} {es : List (Nat × Node)} (climbs : Climbs cur es) (inside : Int) :
    streamed inside (linesOf cur es) =
      (es.filter fun e => e.2.blob.isSome).map fun e => (inside + (e.1 - cur),e.2) := by
  induction es generalizing cur inside with
  | nil =>
    rw [linesOf,List.append_assoc,streamedTags,streamedTags]
    rfl
  | cons e es ih =>
    obtain ⟨level,n⟩ := e
    obtain ⟨before,behind⟩ := adjDepth climbs.1
    have same := (adjAfter climbs.1).2.2
    have rest : streamed (inside + (level - cur)) ((adjLevel cur level).2.1.map .tag ++ linesOf level es) =
        (es.filter fun e => e.2.blob.isSome).map fun e => (inside + (e.1 - cur),e.2) := by
      rw [streamedTags,behind,ih climbs.2]
      apply List.map_congr_left
      intro e _
      rw [Prod.mk.injEq]
      exact ⟨by omega,rfl⟩
    rw [linesOf,List.append_assoc,List.cons_append,streamedTags,before,same,List.filter_cons]
    cases message : n.blob.isSome with
    | true =>
      rw [if_pos rfl,if_pos rfl,streamed,rest]
      rfl
    | false =>
      have skips (inside : Int) (ps : List Piece) : streamed inside (.ghost n.mid :: ps) = streamed inside ps := rfl
      rw [if_neg nofun,if_neg nofun,skips,rest]

theorem shownMessages (rootset : List Node) : (shown rootset).filter (fun e => e.2.blob.isSome) = messages rootset := by
  unfold shown messages
  induction preorder 0 rootset with
  | nil => rfl
  | cons e es ih =>
    rw [List.dropWhile_cons]
    split
    · rename_i ghost
      rw [ih,List.filter_cons_of_neg (by simpa [ghostly] using ghost)]
    · rfl

theorem shownMessage {rootset : List Node} {e : Nat × Node} {es : List (Nat × Node)} (is : shown rootset = e :: es) :
    e.2.blob.isSome = true := by
  have kept := List.head?_dropWhile_not ghostly (preorder 0 rootset)
  rw [show List.dropWhile ghostly _ = _ from is] at kept
  simpa [ghostly] using kept

theorem shownFirst (rootset : List Node) : (shown rootset).head? = (messages rootset).head? := by
  rw [← shownMessages]
  cases is : shown rootset with
  | nil => rfl
  | cons e es =>
    have kept : (e :: es).filter (fun e => e.2.blob.isSome) = e :: es.filter fun e => e.2.blob.isSome :=
      List.filter_cons_of_pos (shownMessage is)
    rw [kept]
    rfl

theorem pageTags (es : List (Nat × Node)) (ps : List Piece) :
    tagsOf (pageTop es ++ ps) = tagsOf ps ∧ ∀ inside,streamed inside (pageTop es ++ ps) = streamed inside ps := by
  cases es with
  | nil => exact ⟨rfl,fun _ => rfl⟩
  | cons e es => exact ⟨rfl,fun _ => rfl⟩

theorem firstLines {level : Nat} {n : Node} {es : List (Nat × Node)} (pos : 0 < level) (message : n.blob.isSome = true)
    (climbs : Climbs level es) :
    depth .ul (tagsOf (linesOf 0 ((level,n) :: es))) = 1 - level ∧
    streamed 0 (linesOf 0 ((level,n) :: es)) =
      (((level,n) :: es).filter fun e => e.2.blob.isSome).map fun e => ((e.1 : Int) - (level - 1),e.2) := by
  have tags : linesOf 0 ((level,n) :: es) =
      .tag (.opens .ul) :: .tag (.opens .li) :: .eml n :: .tag (.closes .li) :: linesOf level es := by
    rw [linesOf,adjFirst pos,if_pos message]
    rfl
  have rest := afterDepth (linesAfter climbs) .ul
  rw [openedDepth] at rest
  constructor
  · rw [tags]
    show depth .ul (.opens .ul :: .opens .li :: .closes .li :: tagsOf (linesOf level es)) = _
    simp only [depthCons,worth]
    simp at rest ⊢
    omega
  · have kept : ((level,n) :: es).filter (fun e => e.2.blob.isSome) = (level,n) :: es.filter fun e => e.2.blob.isSome :=
      List.filter_cons_of_pos message
    rw [tags,kept]
    show (1,n) :: streamed 1 (linesOf level es) = _
    rw [linesStreamed climbs,List.map_cons]
    congr 1
    · rw [Prod.mk.injEq]
      exact ⟨by omega,rfl⟩
    · apply List.map_congr_left
      intro e _
      rw [Prod.mk.injEq]
      exact ⟨by omega,rfl⟩

theorem streamedShifted (rootset : List Node) : ∃ shift : Int,
    streamed 0 (streamThread rootset).out = (messages rootset).map fun e => ((e.1 : Int) - shift,e.2) := by
  rw [streamLines,(pageTags _ _).2,← shownMessages]
  have firstIs := shownFirst rootset
  cases is : shown rootset with
  | nil =>
    refine ⟨0,?_⟩
    rw [linesStreamed (show Climbs 0 [] from trivial)]
    simp
  | cons e es =>
    obtain ⟨level,n⟩ := e
    have climbs := climbsShown rootset is
    rcases Nat.eq_zero_or_pos level with rfl | pos
    · refine ⟨0,?_⟩
      rw [linesStreamed (show Climbs 0 ((0,n) :: es) from ⟨Nat.zero_le _,climbs⟩)]
      simp
    · exact ⟨level - 1,(firstLines pos (shownMessage is) climbs).2⟩

theorem streamNested (rootset : List Node) :
    Nested rootset (streamThread rootset).out ↔ ∀ first ∈ (messages rootset).head?,first.1 ≤ 1 := by
  obtain ⟨shift,shifted⟩ := streamedShifted rootset
  rw [← shownFirst]
  constructor
  · intro nested e first
    apply Decidable.byContradiction
    intro deep
    obtain ⟨level,n⟩ := e
    have flat := matchedDepth nested.balanced .ul
    rw [streamLines,(pageTags _ _).1] at flat
    obtain ⟨es,is⟩ := List.head?_eq_some_iff.mp first
    have total := (firstLines (by omega : 0 < level) (shownMessage is) (climbsShown rootset is)).1
    rw [is,total] at flat
    simp only at deep
    omega
  · intro near
    refine ⟨?_,?_,?_⟩
    · have climbs : Climbs 0 (shown rootset) := by
        cases is : shown rootset with
        | nil => trivial
        | cons e es =>
          rw [is] at near
          exact ⟨near e rfl,climbsShown rootset is⟩
      rw [Matched,streamLines,(pageTags _ _).1]
      exact linesAfter climbs
    · rw [shifted,List.map_map]
      rfl
    · intro i j x y a b first second above atI atJ
      rw [shifted,List.getElem?_map,first] at atI
      rw [shifted,List.getElem?_map,second] at atJ
      cases atI
      cases atJ
      simp only [above]
      omega

def orphan : List SearchThread.Smsg := [⟨"c",some "<a> <b>",1⟩]

def orphanTree : Node := .node "a" "" none [.node "b" "" none [.node "c" "lost" (some "oid") []]]

theorem orphanUnbalanced :
    (SearchThread.thread SearchThread.plain orphan).map (fun out => (out.rootset,
      ["a","b","c"].map (SearchThread.kidsOf out.ordered),
      ["a","b"].map fun mid => (out.ordered.idTable.get? mid).map SearchThread.Container.content)) =
        some (["a"],[["b"],["c"],[]],[some .ghost,some .ghost]) ∧
    tagsOf (streamThread [orphanTree]).out =
      [.opens .ul,.opens .li,.closes .li,.closes .ul,.closes .li,.closes .ul] ∧
    ¬Nested [orphanTree] (streamThread [orphanTree]).out := by
  have tags : tagsOf (streamThread [orphanTree]).out =
      [.opens .ul,.opens .li,.closes .li,.closes .ul,.closes .li,.closes .ul] := by
    have is : shown [orphanTree] = [(2,.node "c" "lost" (some "oid") [])] := by
      simp only [shown,orphanTree,preorder,List.append_nil]
      rfl
    rw [streamLines,is]
    rfl
  refine ⟨by decide +kernel,tags,fun nested => ?_⟩
  have whole := nested.balanced
  rw [tags] at whole
  exact absurd whole (by decide)

end PublicInbox.View
