import PublicInbox.IMAP.Fetch

/-! BODY and BODYSTRUCTURE against the tree of parts. fetch_body folds the visits of each_part
from the last to the first with one `@hold`: what follows a nested parent is still held when the
parent is written, and goes inside it. -/
namespace PublicInbox.IMAP
open ContentHash (Bytes encode mimePartsLimit mimeNestingLimit)
variable {E : Type} {r : Reads E} {st : Bool}

namespace Mime

mutual
def size : Mime E → Nat
  | leaf _ => 0
  | node _ subs => sizes subs

def sizes : List (Mime E) → Nat
  | [] => 0
  | m :: ms => 1 + m.size + sizes ms
end

mutual
def Shallow : Nat → Mime E → Prop
  | _, leaf _ => True
  | depth, node _ subs => (subs ≠ [] → depth < mimeNestingLimit) ∧ Shallows (depth + 1) subs

def Shallows : Nat → List (Mime E) → Prop
  | _, [] => True
  | depth, m :: ms => m.Shallow depth ∧ Shallows depth ms
end

structure Within (m : Mime E) : Prop where
  few : m.size ≤ mimePartsLimit
  shallow : m.Shallow 0

mutual
def LastNests : Mime E → Prop
  | leaf _ => True
  | node _ subs => ListNests subs

def ListNests : List (Mime E) → Prop
  | [] => True
  | m :: ms => (m.subs ≠ [] → ms = []) ∧ m.LastNests ∧ ListNests ms
end

mutual
def Multiparts (r : Reads E) : Mime E → Prop
  | leaf _ => True
  | node e subs => (subs ≠ [] → isType r e "multipart") ∧ ListMultiparts r subs

def ListMultiparts (r : Reads E) : List (Mime E) → Prop
  | [] => True
  | m :: ms => m.Multiparts r ∧ ListMultiparts r ms
end

mutual
def Descended (r : Reads E) : Bool → Mime E → Prop
  | submsg, leaf e => r.isSubmsg e = submsg
  | submsg, node e subs => r.isSubmsg e = submsg ∧
    if isType r e "multipart" then ListDescended r false subs
    else (∃ sub, subs = [sub]) ∧ ListDescended r true subs

def ListDescended (r : Reads E) : Bool → List (Mime E) → Prop
  | _, [] => True
  | submsg, m :: ms => m.Descended r submsg ∧ ListDescended r submsg ms
end

end Mime

mutual
def nested (r : Reads E) (st : Bool) : Mime E → Buf
  | .leaf e => bodyLeaf r st e none
  | .node e [] => bodyLeaf r st e none
  | .node e (sub :: subs) => bodyParent r st e (nestedEach r st (sub :: subs))

def nestedEach (r : Reads E) (st : Bool) : List (Mime E) → List Buf
  | [] => []
  | m :: ms => nested r st m :: nestedEach r st ms
end

def bodyFields (r : Reads E) (e : E) : Buf :=
  plain "(" ++ esc (some (r.ct e).type) ++ plain " " ++ esc (r.ct e).subtype ++
  plain " " ++ escHash (r.ct e).attributes ++
  plain " " ++ esc (r.headerRaw e "Content-ID") ++
  plain " " ++ esc (r.headerRaw e "Content-Description") ++
  plain " " ++ esc (some ((r.headerRaw e "Content-Transfer-Encoding").getD "7bit")) ++
  plain (" " ++ (bodyRaw r e).length.repr) ++
  (if isType r e "text" then plain (" " ++ ((bodyRaw r e).count 10).repr) else [])

mutual
def body (r : Reads E) (st : Bool) : Mime E → Buf
  | .leaf e => bodyFields r e ++ bodyClose r st e
  | .node e [] => bodyFields r e ++ bodyClose r st e
  | .node e (sub :: subs) =>
    if isType r e "multipart" then plain "(" ++ bodies r st (sub :: subs) ++ multipartClose r st e
    else bodyFields r e ++ plain " " ++ emlEnvelope r sub.eml ++ plain " " ++ bodies r st (sub :: subs) ++
      plain (" " ++ ((bodyRaw r e).count 10).repr) ++ bodyClose r st e

def bodies (r : Reads E) (st : Bool) : List (Mime E) → Buf
  | [] => []
  | m :: ms => body r st m ++ bodies r st ms
end

namespace Mime

mutual
def visits : List Nat → Mime E → List (Visit E)
  | idx, leaf e => [⟨e,idx.length,idx⟩]
  | idx, node e subs => ⟨e,idx.length,idx⟩ :: visitsEach idx 0 subs

def visitsEach : List Nat → Nat → List (Mime E) → List (Visit E)
  | _, _, [] => []
  | outer, last, m :: ms => m.visits (outer ++ [last + 1]) ++ visitsEach outer (last + 1) ms
end

end Mime

def Level.visits (p : Level E) : List (Visit E) := Mime.visitsEach p.outer p.last p.queue

theorem walkPop (nr : Nat) (outer : List Nat) (last : Nat) {l : Level E} (s : List (Level E)) (waiting : l.queue ≠ []) :
    walk nr ⟨[],outer,last⟩ (l :: s) = walk nr l s := by
  obtain ⟨queue,outer',last'⟩ := l
  cases queue with
  | nil => contradiction
  | cons sub queue => cases nr <;> simp [walk,Level.next]

theorem walkVisits (nr : Nat) (p : Level E) (s : List (Level E)) (waiting : ∀ l ∈ s,l.queue ≠ [])
    (few : Mime.sizes p.queue + (s.map (fun l => Mime.sizes l.queue)).sum ≤ nr)
    (shallow : ∀ l ∈ p :: s,Mime.Shallows (l.outer.length + 1) l.queue) :
    walk nr p s = p.visits ++ s.flatMap Level.visits := by
  induction nr generalizing p s with
  | zero =>
    obtain ⟨queue,outer,last⟩ := p
    cases s with
    | nil => cases queue with
      | nil => simp [walk,Level.visits,Mime.visitsEach]
      | cons sub queue => simp [Mime.sizes] at few
    | cons l s =>
      have here := waiting l (List.mem_cons_self ..)
      cases rest : l.queue with
      | nil => exact absurd rest here
      | cons sub queue => simp [Mime.sizes,rest] at few
  | succ nr ih =>
    have front : ∀ sub queue outer last (s : List (Level E)),(∀ l ∈ s,l.queue ≠ []) →
        Mime.sizes (sub :: queue) + (s.map (fun l => Mime.sizes l.queue)).sum ≤ nr + 1 →
        (∀ l ∈ ⟨sub :: queue,outer,last⟩ :: s,Mime.Shallows (l.outer.length + 1) l.queue) →
        walk (nr + 1) ⟨sub :: queue,outer,last⟩ s = Level.visits ⟨sub :: queue,outer,last⟩ ++ s.flatMap Level.visits := by
      intro sub queue outer last s waiting few shallow
      obtain ⟨first,others⟩ := List.forall_mem_cons.mp shallow
      simp only [Mime.Shallows] at first
      obtain ⟨own,rest⟩ := first
      cases sub with
      | leaf e =>
        have later := ih ⟨queue,outer,last + 1⟩ s waiting (by simp [Mime.sizes,Mime.size] at few ⊢; omega)
          (List.forall_mem_cons.mpr ⟨rest,others⟩)
        simp only [walk,Level.next,later,Level.visits,Mime.visitsEach,Mime.visits,List.cons_append,List.nil_append]
      | node e subs =>
        simp only [Mime.Shallow] at own
        simp only [Mime.sizes,Mime.size] at few
        simp only [walk,Level.next,List.length_append,List.length_singleton]
        split
        · rename_i deep
          by_cases done : queue = []
          · subst done
            have later := ih ⟨subs,outer ++ [last + 1],0⟩ s waiting (by simp [Mime.sizes] at few ⊢; omega)
              (List.forall_mem_cons.mpr ⟨by simpa using own.2,others⟩)
            simp [later,Level.visits,Mime.visitsEach,Mime.visits]
          · have later := ih ⟨subs,outer ++ [last + 1],0⟩ (⟨queue,outer,last + 1⟩ :: s)
              (List.forall_mem_cons.mpr ⟨done,waiting⟩) (by simp at few ⊢; omega)
              (List.forall_mem_cons.mpr ⟨by simpa using own.2,List.forall_mem_cons.mpr ⟨rest,others⟩⟩)
            simp [done,later,Level.visits,Mime.visitsEach,Mime.visits]
        · rename_i deep
          have none : subs = [] := by
            by_contra some
            exact deep (own.1 some)
          subst none
          have later := ih ⟨queue,outer,last + 1⟩ s waiting (by simp [Mime.sizes] at few ⊢; omega)
            (List.forall_mem_cons.mpr ⟨rest,others⟩)
          simp [later,Level.visits,Mime.visitsEach,Mime.visits]
    obtain ⟨queue,outer,last⟩ := p
    cases queue with
    | cons sub queue => exact front sub queue outer last s waiting few shallow
    | nil => cases s with
      | nil => simp [walk,Level.next,Level.visits,Mime.visitsEach]
      | cons l s =>
        obtain ⟨here,others⟩ := List.forall_mem_cons.mp waiting
        have below := (List.forall_mem_cons.mp shallow).2
        rw [walkPop _ _ _ _ here]
        obtain ⟨queue,outer',last'⟩ := l
        cases queue with
        | nil => contradiction
        | cons sub queue =>
          rw [front sub queue outer' last' s others (by simpa [Mime.sizes] using few) below]
          simp [Level.visits,Mime.visitsEach]

theorem eachPartNode {e : E} {subs : List (Mime E)} (within : (Mime.node e subs).Within) :
    eachPart (.node e subs) = ⟨e,0,[0]⟩ :: Mime.visitsEach [] 0 subs := by
  have few := within.few
  have shallow := within.shallow
  simp only [Mime.size] at few
  simp only [Mime.Shallow] at shallow
  have walked := walkVisits mimePartsLimit ⟨subs,[],0⟩ [] (by simp) (by simpa using few) (by simpa using shallow.2)
  simp only [eachPart,walked,Level.visits,List.flatMap_nil,List.append_nil]

mutual
def hold (r : Reads E) (st : Bool) : Mime E → List Buf → List Buf
  | .leaf e, h => bodyLeaf r st e none :: h
  | .node e [], h => bodyLeaf r st e none :: h
  | .node e (sub :: subs), h => [bodyParent r st e (holdEach r st (sub :: subs) h)]

def holdEach (r : Reads E) (st : Bool) : List (Mime E) → List Buf → List Buf
  | [], h => h
  | m :: ms, h => hold r st m (holdEach r st ms h)
end

mutual
theorem foldVisits (m : Mime E) (idx : List Nat) (c : Nat) (h : List Buf) (before : c ≤ idx.length) :
    (m.visits idx).foldr (fun v s => fold r st s v) (c,h) = (idx.length,hold r st m h) := by
  match m with
  | .leaf e =>
    have sibling : ¬ idx.length + 1 = c := by omega
    simp [Mime.visits,fold,hold,sibling]
  | .node e [] =>
    have sibling : ¬ idx.length + 1 = c := by omega
    simp [Mime.visits,Mime.visitsEach,fold,hold,sibling]
  | .node e (sub :: subs) =>
    have below := foldVisitsEach (sub :: subs) idx 0 c h (by omega)
    simp only [Mime.visits,List.foldr_cons]
    rw [below]
    simp [fold,hold]

theorem foldVisitsEach (ms : List (Mime E)) (outer : List Nat) (last c : Nat) (h : List Buf) (before : c ≤ outer.length + 1) :
    (Mime.visitsEach outer last ms).foldr (fun v s => fold r st s v) (c,h) =
      (if ms = [] then c else outer.length + 1,holdEach r st ms h) := by
  match ms with
  | [] => simp [Mime.visitsEach,holdEach]
  | m :: ms =>
    have later := foldVisitsEach ms outer (last + 1) c h before
    simp only [Mime.visitsEach,List.foldr_append,later]
    rw [foldVisits m]
    · simp [holdEach]
    · simp only [List.length_append,List.length_singleton]
      split <;> omega
end

theorem fetchBodyHold {m : Mime E} (within : m.Within) : fetchBody r st m = (hold r st m []).flatten := by
  unfold fetchBody
  rw [List.foldl_reverse]
  cases m with
  | leaf e => simp [eachPart,fold,hold]
  | node e subs =>
    rw [eachPartNode within]
    have below := @foldVisitsEach E r st subs [] 0 0 [] (by omega)
    rw [List.foldr_cons,below]
    cases subs with
    | nil => simp [fold,hold,holdEach]
    | cons sub subs => simp [fold,hold]

@[simp] theorem renderNil : render [] = [] := rfl

@[simp] theorem renderJoin (a b : Buf) : render (a ++ b) = render a ++ render b := List.flatMap_append

@[simp] theorem renderPlain (s : String) : render (plain s) = encode s := by simp [render,plain,Tok.bytes]

theorem encodeJoin (a b : String) : encode (a ++ b) = encode a ++ encode b := by simp [encode]

def Opens (b : Bytes) : Prop := ∃ x,b = 40 :: x

def Closes (b : Bytes) : Prop := ∃ c x,b = c :: x ∧ c ≠ 40

theorem Opens.join {a : Bytes} (opens : Opens a) (b : Bytes) : Opens (a ++ b) := by
  obtain ⟨x,rfl⟩ := opens
  exact ⟨x ++ b,rfl⟩

theorem Closes.join {a : Bytes} (closes : Closes a) (b : Bytes) : Closes (a ++ b) := by
  obtain ⟨c,x,rfl,other⟩ := closes
  exact ⟨c,x ++ b,rfl,other⟩

theorem opensParen : Opens (encode "(") := ⟨[],rfl⟩

theorem closesSpace : Closes (encode " ") := ⟨32,[],rfl,by decide⟩

theorem closesParen : Closes (encode ")") := ⟨41,[],rfl,by decide⟩

theorem bodyOpenOpens (e : E) : Opens (render (bodyOpen r e)) := by
  unfold bodyOpen
  simp only [renderJoin,List.append_assoc]
  split
  · simp only [emlEnvelope,renderJoin,renderPlain,List.append_assoc]
    exact opensParen.join _
  · simp only [renderNil,List.nil_append,renderPlain]
    exact opensParen.join _

theorem bodyCloseCloses (e : E) : Closes (render (bodyClose r st e)) := by
  unfold bodyClose
  split
  · simp only [renderJoin,renderPlain,List.append_assoc]
    exact closesSpace.join _
  · simp only [List.nil_append,renderPlain]
    exact closesParen

theorem multipartCloseCloses (e : E) : Closes (render (multipartClose r st e)) := by
  unfold multipartClose
  simp only [renderJoin,renderPlain,List.append_assoc]
  exact closesSpace.join _

theorem leafOpens (e : E) : Opens (render (bodyLeaf r st e none)) := by
  simp only [bodyLeaf,renderJoin,List.append_assoc]
  exact (bodyOpenOpens e).join _

theorem parentPieces (r : Reads E) (st : Bool) (e : E) : ∃ front back : Bytes,Opens front ∧ Closes back ∧
    ∀ h,h ≠ [] → render (bodyParent r st e h) = front ++ render h.flatten ++ back := by
  cases multi : isType r e "multipart" with
  | true =>
    refine ⟨encode "(",render (multipartClose r st e),opensParen,multipartCloseCloses e,?_⟩
    intro h some
    simp [bodyParent,multi,held,some]
  | false =>
    refine ⟨render (bodyOpen r e) ++ encode " ",render (bodyClose r st e),(bodyOpenOpens e).join _,bodyCloseCloses e,?_⟩
    intro h some
    simp [bodyParent,bodyLeaf,multi,held,some]

def Apart (a b : Bytes) : Prop := ∃ c x d y,a = c ++ 40 :: x ∧ b = c ++ d :: y ∧ d ≠ 40

theorem Apart.ne {a b : Bytes} (apart : Apart a b) : a ≠ b := by
  obtain ⟨c,x,d,y,rfl,rfl,other⟩ := apart
  intro same
  have heads := (List.cons.inj (List.append_cancel_left same)).1
  exact other heads.symm

theorem Apart.within {a b : Bytes} (apart : Apart a b) (front g h : Bytes) : Apart (front ++ a ++ g) (front ++ b ++ h) := by
  obtain ⟨c,x,d,y,rfl,rfl,other⟩ := apart
  exact ⟨front ++ c,x ++ g,d,y ++ h,by simp,by simp,other⟩

theorem apartHere {a b : Bytes} (opens : Opens a) (closes : Closes b) (front : Bytes) : Apart (front ++ a) (front ++ b) := by
  obtain ⟨x,rfl⟩ := opens
  obtain ⟨d,y,rfl,other⟩ := closes
  exact ⟨front,x,d,y,rfl,rfl,other⟩

def text (h : List Buf) : Bytes := render h.flatten

@[simp] theorem textCons (b : Buf) (h : List Buf) : text (b :: h) = render b ++ text h := by simp [text]

@[simp] theorem textNil : text [] = [] := rfl

theorem holdSome (m : Mime E) (h : List Buf) : hold r st m h ≠ [] := by
  match m with
  | .leaf e | .node e [] | .node e (sub :: subs) => simp [hold]

theorem holdEachSome (sub : Mime E) (subs : List (Mime E)) (h : List Buf) : holdEach r st (sub :: subs) h ≠ [] :=
  holdSome sub _

theorem nestedEachSome (sub : Mime E) (subs : List (Mime E)) : nestedEach r st (sub :: subs) ≠ [] := by simp [nestedEach]

theorem holdOpens (m : Mime E) (h : List Buf) : Opens (text (hold r st m h)) := by
  match m with
  | .leaf e | .node e [] =>
    simp only [hold,textCons]
    exact (leafOpens e).join _
  | .node e (sub :: subs) =>
    obtain ⟨front,back,opens,-,pieces⟩ := parentPieces r st e
    simp only [hold,textCons,pieces _ (holdEachSome sub subs h),List.append_assoc]
    exact opens.join _

theorem holdEachOpens (ms : List (Mime E)) {h : List Buf} (opens : Opens (text h)) : Opens (text (holdEach r st ms h)) := by
  cases ms with
  | nil => exact opens
  | cons m ms => exact holdOpens m _

theorem holdChildless {m : Mime E} (childless : m.subs = []) (h : List Buf) : hold r st m h = nested r st m :: h := by
  match m with
  | .leaf e | .node e [] => simp [hold,nested]
  | .node e (sub :: subs) => simp [Mime.subs] at childless

mutual
theorem swallowed (m : Mime E) (parent : m.subs ≠ []) {h : List Buf} (opens : Opens (text h)) :
    Apart (text (hold r st m h)) (render (nested r st m)) := by
  match m with
  | .leaf e | .node e [] => simp [Mime.subs] at parent
  | .node e (sub :: subs) =>
    obtain ⟨front,back,-,closes,pieces⟩ := parentPieces r st e
    have inside := swallowedEach (sub :: subs) opens
    simp only [hold,nested,textCons,textNil,List.append_nil,pieces _ (holdEachSome sub subs h),
      pieces _ (nestedEachSome sub subs)]
    rcases inside with same | apart
    · have same : render (holdEach r st (sub :: subs) h).flatten = text (nestedEach r st (sub :: subs)) ++ text h := same
      rw [same,List.append_assoc,List.append_assoc,List.append_assoc,← List.append_assoc front,← List.append_assoc front]
      exact apartHere (opens.join _) closes _
    · exact apart.within front back back

theorem swallowedEach (ms : List (Mime E)) {h : List Buf} (opens : Opens (text h)) :
    text (holdEach r st ms h) = text (nestedEach r st ms) ++ text h ∨
      Apart (text (holdEach r st ms h)) (text (nestedEach r st ms)) := by
  match ms with
  | [] => exact Or.inl rfl
  | m :: ms =>
    have later := swallowedEach ms opens
    have held := @holdEachOpens E r st ms h opens
    simp only [holdEach,nestedEach,textCons]
    by_cases childless : m.subs = []
    · rw [holdChildless childless,textCons]
      rcases later with same | apart
      · exact Or.inl (by rw [same,List.append_assoc])
      · exact Or.inr (by simpa using apart.within (render (nested r st m)) [] [])
    · exact Or.inr (by simpa using (swallowed m childless held).within [] [] (text (nestedEach r st ms)))
end

mutual
theorem notNested (m : Mime E) (bad : ¬ m.LastNests) : Apart (text (hold r st m [])) (render (nested r st m)) := by
  match m with
  | .leaf e => simp [Mime.LastNests] at bad
  | .node e [] => simp [Mime.LastNests,Mime.ListNests] at bad
  | .node e (sub :: subs) =>
    obtain ⟨front,back,-,-,pieces⟩ := parentPieces r st e
    have inside := notNestedEach (sub :: subs) (by simpa [Mime.LastNests] using bad)
    simp only [hold,nested,textCons,textNil,List.append_nil,pieces _ (holdEachSome sub subs []),
      pieces _ (nestedEachSome sub subs)]
    exact inside.within front back back

theorem notNestedEach (ms : List (Mime E)) (bad : ¬ Mime.ListNests ms) :
    Apart (text (holdEach r st ms [])) (text (nestedEach r st ms)) := by
  match ms with
  | [] => simp [Mime.ListNests] at bad
  | m :: ms =>
    simp only [holdEach,nestedEach,textCons]
    by_cases childless : m.subs = []
    · have own : m.LastNests := by
        match m with
        | .leaf e => simp [Mime.LastNests]
        | .node e subs =>
          obtain rfl : subs = [] := childless
          simp [Mime.LastNests,Mime.ListNests]
      have later := notNestedEach ms (fun good => bad (by simp only [Mime.ListNests]; exact ⟨fun some => absurd childless some,own,good⟩))
      rw [holdChildless childless,textCons]
      simpa using later.within (render (nested r st m)) [] []
    · have apart : Apart (text (hold r st m (holdEach r st ms []))) (render (nested r st m)) := by
        match ms with
        | [] =>
          exact notNested m (fun good => bad (by simp [Mime.ListNests,good]))
        | next :: ms => exact swallowed m childless (holdOpens next _)
      simpa using apart.within [] [] (text (nestedEach r st ms))
end

mutual
theorem nests (m : Mime E) (good : m.LastNests) : hold r st m [] = [nested r st m] := by
  match m with
  | .leaf e | .node e [] => simp [hold,nested]
  | .node e (sub :: subs) =>
    have inside := nestsEach (sub :: subs) (by simpa [Mime.LastNests] using good)
    rw [hold,nested,inside]

theorem nestsEach (ms : List (Mime E)) (good : Mime.ListNests ms) : holdEach r st ms [] = nestedEach r st ms := by
  match ms with
  | [] => rfl
  | m :: ms =>
    obtain ⟨last,own,rest⟩ : (m.subs ≠ [] → ms = []) ∧ m.LastNests ∧ Mime.ListNests ms := by
      simpa only [Mime.ListNests] using good
    rw [holdEach,nestedEach,nestsEach ms rest]
    by_cases childless : m.subs = []
    · exact holdChildless childless _
    · obtain rfl := last childless
      exact nests m own
end

mutual
theorem holdLength (m : Mime E) (h : List Buf) :
    (text (hold r st m h)).length = (render (nested r st m)).length + (text h).length := by
  match m with
  | .leaf e | .node e [] => simp [hold,nested]
  | .node e (sub :: subs) =>
    obtain ⟨front,back,-,-,pieces⟩ := parentPieces r st e
    have inside : (render (holdEach r st (sub :: subs) h).flatten).length =
        (render (nestedEach r st (sub :: subs)).flatten).length + (text h).length := holdEachLength (sub :: subs) h
    simp only [hold,nested,textCons,textNil,List.append_nil,pieces _ (holdEachSome sub subs h),
      pieces _ (nestedEachSome sub subs),List.length_append,inside]
    omega

theorem holdEachLength (ms : List (Mime E)) (h : List Buf) :
    (text (holdEach r st ms h)).length = (text (nestedEach r st ms)).length + (text h).length := by
  match ms with
  | [] => simp [holdEach,nestedEach]
  | m :: ms =>
    simp only [holdEach,nestedEach,textCons,List.length_append]
    rw [holdLength m,holdEachLength ms]
    omega
end

theorem openFields (e : E) : bodyOpen r e =
    (if r.isSubmsg e then emlEnvelope r e ++ plain " " else []) ++ bodyFields r e := by
  simp only [bodyOpen,bodyFields,List.append_assoc]

theorem leafFields {e : E} (plainPart : r.isSubmsg e = false) : bodyLeaf r st e none = bodyFields r e ++ bodyClose r st e := by
  simp [bodyLeaf,openFields,plainPart]

mutual
theorem multipartBody (m : Mime E) (multi : m.Multiparts r) (made : m.Descended r false) : nested r st m = body r st m := by
  match m with
  | .leaf e =>
    simp only [Mime.Descended] at made
    rw [nested,body,leafFields made]
  | .node e [] =>
    simp only [Mime.Descended] at made
    rw [nested,body,leafFields made.1]
  | .node e (sub :: subs) =>
    simp only [Mime.Multiparts] at multi
    have type := multi.1 (List.cons_ne_nil _ _)
    simp only [Mime.Descended,type,if_true] at made
    rw [nested,body,← multipartBodies (sub :: subs) multi.2 made.2]
    simp [bodyParent,type,held,nestedEachSome]

theorem multipartBodies (ms : List (Mime E)) (multi : Mime.ListMultiparts r ms) (made : Mime.ListDescended r false ms) :
    (nestedEach r st ms).flatten = bodies r st ms := by
  match ms with
  | [] => rfl
  | m :: ms =>
    simp only [Mime.ListMultiparts] at multi
    simp only [Mime.ListDescended] at made
    rw [nestedEach,bodies,List.flatten_cons,multipartBody m multi.1 made.1,multipartBodies ms multi.2 made.2]
end

theorem linesLength (n : Nat) : 0 < (render (plain (" " ++ n.repr))).length := by
  rw [renderPlain,encodeJoin,List.length_append]
  exact Nat.lt_of_lt_of_le (by decide) (Nat.le_add_right (encode " ").length _)

def envelopeOf (r : Reads E) (submsg : Bool) (m : Mime E) : Buf := if submsg then emlEnvelope r m.eml ++ plain " " else []

mutual
theorem nestedShorter (m : Mime E) (submsg : Bool) (made : m.Descended r submsg) :
    (render (nested r st m)).length ≤ (render (envelopeOf r submsg m ++ body r st m)).length ∧
    (¬ m.Multiparts r → (render (nested r st m)).length < (render (envelopeOf r submsg m ++ body r st m)).length) := by
  match m with
  | .leaf e =>
    simp only [Mime.Descended] at made
    simp [nested,body,bodyLeaf,openFields,made,envelopeOf,Mime.eml,Mime.Multiparts]
  | .node e [] =>
    simp only [Mime.Descended] at made
    simp [nested,body,bodyLeaf,openFields,made.1,envelopeOf,Mime.eml,Mime.Multiparts,Mime.ListMultiparts]
  | .node e (sub :: subs) =>
    simp only [Mime.Descended] at made
    obtain ⟨mark,made⟩ := made
    cases type : isType r e "multipart" with
    | true =>
      rw [type,if_pos rfl] at made
      obtain ⟨shorter,strict⟩ := nestedEachShorter (sub :: subs) made
      have outer : (render (nested r st (.node e (sub :: subs)))).length + (render (bodies r st (sub :: subs))).length =
          (text (nestedEach r st (sub :: subs))).length + (render (body r st (.node e (sub :: subs)))).length := by
        simp only [nested,body,bodyParent,type,if_true,held,nestedEachSome,if_false,renderJoin,List.length_append,text]
        omega
      rw [renderJoin,List.length_append]
      refine ⟨by omega,?_⟩
      intro other
      have below : ¬ Mime.ListMultiparts r (sub :: subs) := fun all => other (by simp only [Mime.Multiparts]; exact ⟨fun _ => type,all⟩)
      have := strict below
      omega
    | false =>
      rw [type,if_neg (by decide)] at made
      obtain ⟨⟨only,single⟩,made⟩ := made
      obtain ⟨rfl,rfl⟩ := List.cons.inj single
      simp only [Mime.ListDescended] at made
      have inner := (nestedShorter sub true made.1).1
      have lines := linesLength ((bodyRaw r e).count 10)
      have outer : (Mime.node e [sub]).eml = e := rfl
      have whole : (render (nested r st (.node e [sub]))).length < (render (envelopeOf r submsg (.node e [sub]) ++ body r st (.node e [sub]))).length := by
        simp only [envelopeOf,renderJoin,if_true,List.length_append] at inner
        simp only [nested,nestedEach,body,bodies,bodyParent,bodyLeaf,type,openFields,mark,Bool.false_eq_true,if_false,Option.map_some,Option.getD_some,
          held,List.cons_ne_nil,List.flatten_cons,List.flatten_nil,List.append_nil,renderJoin,List.length_append,envelopeOf,outer]
        omega
      exact ⟨Nat.le_of_lt whole,fun _ => whole⟩

theorem nestedEachShorter (ms : List (Mime E)) (made : Mime.ListDescended r false ms) :
    (text (nestedEach r st ms)).length ≤ (render (bodies r st ms)).length ∧
    (¬ Mime.ListMultiparts r ms → (text (nestedEach r st ms)).length < (render (bodies r st ms)).length) := by
  match ms with
  | [] => simp [nestedEach,bodies,Mime.ListMultiparts]
  | m :: ms =>
    simp only [Mime.ListDescended] at made
    obtain ⟨first,firstStrict⟩ := nestedShorter m false made.1
    obtain ⟨rest,restStrict⟩ := nestedEachShorter ms made.2
    simp only [envelopeOf,Bool.false_eq_true,if_false,List.nil_append] at first firstStrict
    simp only [nestedEach,bodies,textCons,renderJoin,List.length_append]
    refine ⟨by omega,?_⟩
    intro other
    by_cases multi : m.Multiparts r
    · have := restStrict (fun all => other (by simp only [Mime.ListMultiparts]; exact ⟨multi,all⟩))
      omega
    · have := firstStrict multi
      omega
end

/- The parts nest as in the message if and only if no part with subparts has a later sibling. The
whole is a body of RFC 3501 if moreover no message has been descended into. -/
theorem bodyReflectsTree {m : Mime E} (within : m.Within) (made : m.Descended r false) :
    (render (fetchBody r st m) = render (nested r st m) ↔ m.LastNests) ∧
    (render (fetchBody r st m) = render (body r st m) ↔ m.LastNests ∧ m.Multiparts r) := by
  have held : render (fetchBody r st m) = text (hold r st m []) := by rw [fetchBodyHold within,text]
  have nesting : render (fetchBody r st m) = render (nested r st m) ↔ m.LastNests := by
    rw [held]
    constructor
    · intro same
      by_contra bad
      exact (notNested m bad).ne same
    · intro good
      rw [nests m good]
      simp
  refine ⟨nesting,?_⟩
  by_cases multi : m.Multiparts r
  · rw [← multipartBody m multi made,nesting]
    exact ⟨fun good => ⟨good,multi⟩,And.left⟩
  · have long := (@nestedShorter E r st m false made).2 multi
    simp only [envelopeOf,Bool.false_eq_true,if_false,List.nil_append] at long
    have length := @holdLength E r st m []
    refine ⟨fun same => ?_,fun both => absurd both.2 multi⟩
    rw [← same,held,length,textNil,List.length_nil] at long
    omega

def typeReads : Reads (String × String) where
  headerRaw := fun _ _ => none
  objects := fun _ => []
  ct := fun e => ⟨e.1,some e.2,[]⟩
  contentDisposition := fun _ => ("attachment",[])
  isSubmsg := fun _ => false
  hdr := fun _ => []
  bdy := fun _ => none
  imapBdy := fun _ => []
  mime := .leaf
  new := fun b => (("text","plain"),b)
  setHdr := fun e _ => e
  setBdy := fun e _ => e
  hdrsGet := fun _ b => b
  hdrsNot := fun _ b => b

def note : Mime (String × String) := .leaf ("text","plain")

def page : Mime (String × String) := .leaf ("text","html")

def alternativeFirst : Mime (String × String) := .node ("multipart","mixed") [.node ("multipart","alternative") [note,page],note]

def alternativeLast : Mime (String × String) := .node ("multipart","mixed") [note,.node ("multipart","alternative") [note,page]]

theorem typesWithin : alternativeFirst.Within ∧ alternativeLast.Within := by
  refine ⟨⟨?_,?_⟩,⟨?_,?_⟩⟩ <;>
    simp [alternativeFirst,alternativeLast,note,page,Mime.size,Mime.sizes,Mime.Shallow,Mime.Shallows,mimePartsLimit,mimeNestingLimit]

theorem typesMultipart (s : String) : isType typeReads ("multipart",s) "multipart" = true := by
  have lower : "multipart".toLower = "multipart" := by decide +kernel
  simp [isType,typeReads,lower]

theorem typesUnmarked (e : String × String) : typeReads.isSubmsg e = false := rfl

theorem typesDescended : alternativeFirst.Descended typeReads false ∧ alternativeLast.Descended typeReads false := by
  constructor <;>
    simp [alternativeFirst,alternativeLast,note,page,Mime.Descended,Mime.ListDescended,typesMultipart,typesUnmarked]

theorem lastReflectsTree : render (fetchBody typeReads true alternativeLast) = render (body typeReads true alternativeLast) := by
  refine (bodyReflectsTree typesWithin.2 typesDescended.2).2.mpr ⟨?_,?_⟩
  · simp [alternativeLast,note,page,Mime.LastNests,Mime.ListNests,Mime.subs]
  · simp [alternativeLast,note,page,Mime.Multiparts,Mime.ListMultiparts,typesMultipart]

/- The last part of the mixed message is written inside the alternative. -/
theorem siblingSwallowed : ¬ ∀ m : Mime (String × String),m.Within → m.Descended typeReads false →
    render (fetchBody typeReads false m) = render (body typeReads false m) := by
  intro reflects
  exact absurd (reflects alternativeFirst typesWithin.1 typesDescended.1) (by decide +kernel)

end PublicInbox.IMAP
