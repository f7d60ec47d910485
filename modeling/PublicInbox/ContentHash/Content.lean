import PublicInbox.ContentHash
import PublicInbox.Library.Tagged

/-! What a content hash stands for: the normalised content of a message. The digest input is
its rendering, so equal contents give equal digests; the other direction is in Reading. -/
namespace PublicInbox.ContentHash

structure PartContent where
  place : Place
  filename : Option String
  descriptions : List String
  content : Bytes
  deriving DecidableEq, Repr

structure Content where
  references : List Mid
  author : List String
  sender : List String
  subject : List String
  date : List String
  toAddrs : List String
  ccAddrs : List String
  parts : List PartContent
  deriving DecidableEq, Repr

section
variable (u : Unicode)

def normalisedPart (visit : Part × Place) : PartContent where
  place := visit.2
  filename := visit.1.filename
  descriptions := visit.1.contentDescription
  content := partContent u visit.1

def normalised (eml : Eml) : Content where
  references := uniq (mids eml.hdr) (references eml.hdr)
  author := (eml.header "From").map (addrText u)
  sender := if eml.header "From" = [] then (eml.header "Sender").map (addrText u) else []
  subject := eml.header "Subject"
  date := eml.header "Date"
  toAddrs := (eml.header "To").map (addrText u)
  ccAddrs := (eml.header "Cc").map (addrText u)
  parts := (eachPart eml.mime).map (normalisedPart u)

end

def Content.headers (c : Content) : List (String × String) :=
  c.references.map (fun r => ("ref",r.val)) ++ c.author.map (fun v => ("From",v)) ++
  c.sender.map (fun v => ("Sender",v)) ++ c.subject.map (fun v => ("Subject",v)) ++
  c.date.map (fun v => ("Date",v)) ++ c.toAddrs.map (fun v => ("To",v)) ++
  c.ccAddrs.map (fun v => ("Cc",v))

def PartContent.fields (p : PartContent) : List (String × Bytes) :=
  p.filename.toList.map (fun fn => ("fn",encode fn)) ++
    p.descriptions.map (fun d => ("d",encode d))

def PartContent.bytes (p : PartContent) : Bytes :=
  0 :: label p.place ++ [0] ++ p.fields.flatMap (fun f => field f.1 f.2) ++
    (encode "b" ++ 0 :: p.content)

def Content.bytes (c : Content) : Bytes :=
  c.headers.flatMap (fun h => field h.1 (encode h.2)) ++ c.parts.flatMap PartContent.bytes

theorem partBytes (u : Unicode) (visit : Part × Place) :
    contentDigI u visit = (normalisedPart u visit).bytes := by
  simp [contentDigI,PartContent.bytes,PartContent.fields,normalisedPart,List.flatMap_map]

theorem digestOfContent (u : Unicode) (eml : Eml) :
    contentDigest u eml = (normalised u eml).bytes := by
  have parts : (eachPart eml.mime).flatMap (contentDigI u) =
      ((eachPart eml.mime).map (normalisedPart u)).flatMap PartContent.bytes := by
    rw [List.flatMap_map]
    exact List.flatMap_congr fun visit _ => partBytes u visit
  have addr : ∀ h,digestAddr u h = fun v => field h (encode (addrText u v)) := fun _ => rfl
  unfold contentDigest Content.bytes
  rw [parts]
  by_cases none : eml.header "From" = []
  · simp [normalised,Content.headers,none,List.flatMap_map,addr]
  · simp [normalised,Content.headers,none,List.flatMap_map,addr]

def Place.Below (p : Place) : Prop :=
  p.depth = p.idx.length ∧ p.idx ≠ [] ∧ p.idx.length ≤ mimeNestingLimit ∧
    ∀ i ∈ p.idx, 1 ≤ i ∧ i ≤ mimePartsLimit

def Place.Legal (p : Place) : Prop := p.depth = 0 ∧ (p.idx = [0] ∨ p.idx = [1]) ∨ p.Below

theorem legalSome {p : Place} (legal : p.Legal) : p.idx ≠ [] := by
  rcases legal with ⟨_,zero | one⟩ | below
  · simp [zero]
  · simp [one]
  · exact below.2.1

def Level.Within (nr : Nat) (p : Level) : Prop :=
  p.outer.length < mimeNestingLimit ∧ (∀ i ∈ p.outer, 1 ≤ i ∧ i ≤ mimePartsLimit) ∧
    p.last + nr ≤ mimePartsLimit

theorem withinLess {nr : Nat} {p : Level} (h : p.Within (nr + 1)) : p.Within nr :=
  ⟨h.1,h.2.1,by have := h.2.2; omega⟩

theorem withinBump {nr : Nat} {queue : List Mime} {outer : List Nat} {last : Nat}
    (h : Level.Within (nr + 1) ⟨queue,outer,last⟩) (rest : List Mime) :
    (Place.mk (outer ++ [last + 1]).length (outer ++ [last + 1])).Below ∧
      Level.Within nr ⟨rest,outer,last + 1⟩ := by
  obtain ⟨deep,inside,count⟩ := h
  simp only at deep inside count
  refine ⟨⟨rfl,by simp,?_,?_⟩,deep,inside,by simp only; omega⟩
  · simp only [List.length_append,List.length_singleton]
    omega
  · intro i mem
    rcases List.mem_append.mp mem with old | new
    · exact inside i old
    · rw [List.mem_singleton.mp new]
      omega

theorem nextWithin {nr : Nat} {p q : Level} {s t : List Level} {sub : Mime} {idx : List Nat}
    (next : p.next s = some (sub,idx,q,t)) (top : p.Within (nr + 1))
    (stack : ∀ l ∈ s, l.Within (nr + 1)) :
    (Place.mk idx.length idx).Below ∧ q.Within nr ∧ ∀ l ∈ t, l.Within nr := by
  unfold Level.next at next
  split at next
  · cases next
    obtain ⟨below,within⟩ := withinBump top _
    exact ⟨below,within,fun l mem => withinLess (stack l mem)⟩
  · cases next
    obtain ⟨below,within⟩ := withinBump (stack _ List.mem_cons_self) _
    exact ⟨below,within,fun l mem => withinLess (stack l (List.mem_cons_of_mem _ mem))⟩
  · cases next

theorem walkBelow {nr : Nat} {p : Level} {s : List Level} (top : p.Within nr)
    (stack : ∀ l ∈ s, l.Within nr) : ∀ v ∈ walk nr p s, v.2.Below := by
  induction nr generalizing p s with
  | zero => intro v mem; cases mem
  | succ nr ih =>
    intro v mem
    cases next : p.next s with
    | none => simp [walk,next] at mem
    | some found =>
      obtain ⟨sub,idx,q,t⟩ := found
      obtain ⟨below,topQ,stackT⟩ := nextWithin next top stack
      have onward : ∀ part p s, p.Within nr → (∀ l ∈ s, l.Within nr) →
          v ∈ (part,Place.mk idx.length idx) :: walk nr p s → v.2.Below := by
        intro part p s top stack mem
        rcases List.mem_cons.mp mem with same | later
        · rw [same]; exact below
        · exact ih top stack v later
      cases sub with
      | leaf part =>
        simp only [walk,next] at mem
        exact onward part q t topQ stackT mem
      | node part callCb subs =>
        simp only [walk,next] at mem
        split at mem
        · rename_i deep
          have inner : Level.Within nr ⟨subs,idx,0⟩ :=
            ⟨deep,below.2.2.2,by have := topQ.2.2; simp only; omega⟩
          have saved : ∀ l ∈ (if q.queue = [] then t else q :: t), l.Within nr := by
            split
            · exact stackT
            · exact List.forall_mem_cons.mpr ⟨topQ,stackT⟩
          split at mem
          · exact onward part _ _ inner saved mem
          · exact ih inner saved v mem
        · exact onward part q t topQ stackT mem

theorem eachPartLegal (mime : Mime) : ∀ v ∈ eachPart mime, v.2.Legal := by
  intro v mem
  cases mime with
  | leaf part =>
    rw [List.mem_singleton.mp mem]
    exact Or.inl ⟨rfl,Or.inr rfl⟩
  | node part callCb subs =>
    rcases List.mem_append.mp mem with self | inside
    · cases callCb with
      | false => cases self
      | true =>
        rw [List.mem_singleton.mp self]
        exact Or.inl ⟨rfl,Or.inl rfl⟩
    · exact Or.inr (walkBelow ⟨by simp [mimeNestingLimit],by simp,by simp⟩ (by simp) v inside)

structure Content.Legal (c : Content) : Prop where
  references : ∀ r ∈ c.references, '\x00' ∉ r.val.toList
  author : c.author = [] ∨ c.sender = []
  places : ∀ p ∈ c.parts, p.place.Legal

theorem normalisedLegal (u : Unicode) (eml : Eml) : (normalised u eml).Legal := by
  refine ⟨fun r mem => ?_,?_,?_⟩
  · have found := (memUniq.mp mem).1
    simp only [PublicInbox.references,List.mem_reverse,uniqMids,memUniq,List.mem_map] at found
    obtain ⟨⟨s,_,rfl⟩,_⟩ := found
    exact cleanNoNul s
  · by_cases none : eml.header "From" = []
    · exact Or.inl (by simp [normalised,none])
    · exact Or.inr (by simp [normalised,none])
  · intro p mem
    obtain ⟨v,inside,rfl⟩ := List.mem_map.mp mem
    exact eachPartLegal _ v inside

end PublicInbox.ContentHash
