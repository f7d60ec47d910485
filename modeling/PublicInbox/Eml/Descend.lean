import PublicInbox.Eml.Header

/-! Eml.pm: mp_descend, the parts of a message. What ct gets from a header is given. -/
namespace PublicInbox.Mime
open Eml (Text eol blank lower)

structure ContentType where
  type : Text
  subtype : Text
  boundary : Option Text

structure Part where
  eml : Eml
  isSubmsg : Bool
  callCb : Bool

namespace Part

def mimeBoundaryLengthLimit : Nat := 2048

def messageDescend : List Text := ["news".toList,"rfc822".toList,"rfc2822".toList,"global".toList]

def bodyRaw (eml : Eml) : Text := eml.bdy.getD []

def boundaryLine (bnd u : Text) : Option Text :=
  (Leftmost.strip ('-' :: '-' :: bnd) u).bind fun t => (eol (t.dropWhile blank)).map Prod.snd

theorem eolShorter {u e t : Text} (is : eol u = some (e,t)) : t.length < u.length := by
  obtain ⟨end',rfl⟩ := Eml.eolSome is
  rw [List.length_append]
  rcases end' with rfl | rfl <;> simp

theorem boundaryLineShorter {bnd u t : Text} (is : boundaryLine bnd u = some t) : t.length < u.length := by
  obtain ⟨v,front,rest⟩ := Option.bind_eq_some_iff.mp is
  obtain ⟨⟨e,t'⟩,line,rfl⟩ := Option.map_eq_some_iff.mp rest
  have shorter := eolShorter line
  have dropped := (List.dropWhile_sublist (l := v) blank).length_le
  rw [Leftmost.stripSome.mp front,List.length_append]
  exact Nat.lt_of_lt_of_le shorter (Nat.le_trans dropped (Nat.le_add_left _ _))

def boundaries (bnd u : Text) : Text :=
  match _is : boundaryLine bnd u with
  | some t => boundaries bnd t
  | none => u
termination_by u.length
decreasing_by exact boundaryLineShorter _is

def separator (bnd : Text) (start : Bool) (u : Text) : Option Text :=
  match (eol u).bind fun line => boundaryLine bnd line.2 with
  | some t => some (boundaries bnd t)
  | none => if start then (boundaryLine bnd u).map (boundaries bnd) else none

def cut (bnd : Text) : Bool → Text → Option (Text × Text)
  | _,[] => none
  | start,c :: t =>
    match separator bnd start (c :: t) with
    | some rest => some ([],rest)
    | none => (cut bnd (c == '\n') t).map fun found => (c :: found.1,found.2)

def fields (bnd : Text) : Nat → Text → List Text
  | 0,u => [u]
  | n + 1,u =>
    match cut bnd true u with
    | some (a,rest) => a :: fields bnd n rest
    | none => [u]

def split (bnd : Text) (limit : Nat) (bdy : Text) : List Text := if bdy = [] then [] else fields bnd (limit - 1) bdy

def closes (bnd u : Text) : Bool :=
  match Leftmost.strip ('-' :: '-' :: bnd ++ ['-','-']) u with
  | some t =>
    match t.dropWhile blank with
    | [] => true
    | '\n' :: _ => true
    | ['\r'] => true
    | '\r' :: '\n' :: _ => true
    | _ => false
  | none => false

def beforeEpilogue (bnd : Text) : Bool → Text → Option Text
  | _,[] => none
  | start,c :: t =>
    if (eol (c :: t)).any (fun line => closes bnd line.2) || start && closes bnd (c :: t) then some []
    else (beforeEpilogue bnd (c == '\n') t).map (c :: ·)

def chopLast (t : Text) : Text :=
  if ['\n','\n'].isSuffixOf t then t.dropLast else if ['\n','\r','\n'].isSuffixOf t then t.dropLast.dropLast else t

def visible (t : Text) : Bool := t.any fun c => !(c == ' ' || c == '\t' || c == '\r' || c == '\n')

def newSub (t : Text) : Part :=
  match eol t with
  | some (e,rest) => ⟨⟨e,e,some rest⟩,false,false⟩
  | none => ⟨Eml.new t,false,false⟩

def chopped (missing : Bool) (parts : List Text) : List Text :=
  if missing then parts.dropLast ++ (parts.getLast?.map chopLast).toList else parts

def subParts (missing : Bool) (pre : Text) (parts : List Text) : List Part :=
  let parts := ((chopped missing parts).filter visible).map newSub
  if pre.contains ':' then newSub pre :: parts else parts

def boundary (c : ContentType) : Option Text :=
  if lower c.type ≠ "multipart".toList then none else c.boundary.filter fun bnd => bnd ≠ [] ∧ bnd.length < mimeBoundaryLengthLimit

def cutEpilogue (bnd bdy : Text) : Text × Bool :=
  match beforeEpilogue bnd true bdy with
  | some before => (before,false)
  | none => (bdy,true)

section
variable (ct : Text → ContentType)

local instance : LawfulBEq Text := inferInstance

def descend (limit : Nat) (once : Bool) (self : Part) : Part × Option (List Part) :=
  let c := ct self.eml.hdr
  if lower c.type = "message".toList ∧ lower c.subtype ∈ messageDescend then
    ({ self with callCb := true },some [⟨Eml.new (bodyRaw self.eml),true,false⟩])
  else match boundary c with
    | none => (self,none)
    | some bnd =>
      let self := { self with callCb := self.isSubmsg }
      match if once then self.eml.bdy else some (bodyRaw self.eml) with
      | none => (self,none)
      | some bdy =>
        let (bdy,missing) := cutEpilogue bnd bdy
        let self := if once then { self with eml := { self.eml with bdy := none } } else self
        match split bnd limit bdy with
        | pre :: part :: parts => (self,some (subParts missing pre (part :: parts)))
        -- no boundary found, treat as single part
        | _ => ({ self with eml := { self.eml with bdy := self.eml.bdy.or (some bdy) } },none)

def mpDescend (partsLimit nr : Nat) (self : Part) : Part × Option (List Part) := descend ct (partsLimit + 3 - nr) (nr != 0) self

def whole (self : Part) : Part × Option (List Part) := descend ct ((bodyRaw self.eml).length + 2) true self

def Roomy (limit left : Nat) (self : Part) : Prop :=
  ∀ bnd,boundary (ct self.eml.hdr) = some bnd →
    let all := split bnd ((bodyRaw self.eml).length + 2) (cutEpilogue bnd (bodyRaw self.eml)).1
    all.length ≤ limit ∨ left ≤ (all.tail.take (limit - 2)).countP visible

end

theorem boundariesLength (bnd u : Text) : (boundaries bnd u).length ≤ u.length := by
  induction u using boundaries.induct bnd with
  | case1 u t is ih =>
    rw [boundaries]
    split
    · rename_i t' is'
      rw [is] at is'
      cases is'
      exact Nat.le_trans ih (Nat.le_of_lt (boundaryLineShorter is))
    · exact Nat.le_refl _
  | case2 u none =>
    rw [boundaries]
    split
    · rename_i t' is'
      rw [none] at is'
      cases is'
    · exact Nat.le_refl _

theorem separatorShorter {bnd u t : Text} {start : Bool} (is : separator bnd start u = some t) : t.length < u.length := by
  unfold separator at is
  split at is
  · rename_i t' front
    cases is
    obtain ⟨⟨e,v⟩,newline,line⟩ := Option.bind_eq_some_iff.mp front
    have shorter := boundaryLineShorter line
    exact Nat.lt_of_le_of_lt (boundariesLength _ _) (Nat.lt_trans shorter (eolShorter newline))
  · split at is
    · obtain ⟨t',line,rfl⟩ := Option.map_eq_some_iff.mp is
      exact Nat.lt_of_le_of_lt (boundariesLength _ _) (boundaryLineShorter line)
    · cases is

theorem cutShorter {bnd u a rest : Text} {start : Bool} (is : cut bnd start u = some (a,rest)) : rest.length < u.length := by
  induction u generalizing start a with
  | nil => cases is
  | cons c t ih =>
    rw [cut] at is
    split at is
    · rename_i rest' here
      cases is
      exact separatorShorter here
    · obtain ⟨⟨a',rest'⟩,found,same⟩ := Option.map_eq_some_iff.mp is
      cases same
      exact Nat.lt_succ_of_lt (ih found)

theorem fieldsEnough {bnd u : Text} {n m : Nat} (le : u.length ≤ n) (le' : u.length ≤ m) : fields bnd n u = fields bnd m u := by
  induction n generalizing u m with
  | zero =>
    have empty : u = [] := List.length_eq_zero_iff.mp (Nat.le_zero.mp le)
    cases m with
    | zero => rfl
    | succ m =>
      rw [empty]
      rfl
  | succ n ih =>
    cases m with
    | zero =>
      have empty : u = [] := List.length_eq_zero_iff.mp (Nat.le_zero.mp le')
      rw [empty]
      rfl
    | succ m =>
      rw [fields,fields]
      split
      · rename_i a rest is
        have shorter := cutShorter is
        rw [@ih rest m (by omega) (by omega)]
      · rfl

theorem fieldsSome (bnd : Text) (n : Nat) (u : Text) : fields bnd n u ≠ [] := by
  cases n with
  | zero => exact List.cons_ne_nil _ _
  | succ n =>
    rw [fields]
    split <;> exact List.cons_ne_nil _ _

theorem fieldsTake {bnd : Text} {n m : Nat} (le : n ≤ m) (u : Text) :
    (fields bnd n u).take n = (fields bnd m u).take n ∧
      (fields bnd m u = fields bnd n u ∨ (fields bnd n u).length = n + 1 ∧ n + 1 < (fields bnd m u).length) := by
  induction n generalizing m u with
  | zero =>
    refine ⟨rfl,?_⟩
    cases m with
    | zero => exact .inl rfl
    | succ m =>
      rw [fields,fields]
      split
      · refine .inr ⟨rfl,?_⟩
        rw [List.length_cons]
        exact Nat.succ_lt_succ (List.length_pos_iff.mpr (fieldsSome _ _ _))
      · exact .inl rfl
  | succ n ih =>
    cases m with
    | zero => cases le
    | succ m =>
      rw [fields,fields]
      split
      · rename_i a rest is
        obtain ⟨same,lengths⟩ := ih (Nat.le_of_succ_le_succ le) rest
        refine ⟨by rw [List.take_succ_cons,List.take_succ_cons,same],?_⟩
        rcases lengths with eq | ⟨few,more⟩
        · exact .inl (by rw [eq])
        · exact .inr ⟨by rw [List.length_cons,few],by rw [List.length_cons]; omega⟩
      · exact ⟨rfl,.inl rfl⟩

theorem chopTake {missing : Bool} {parts : List Text} {k : Nat} (inside : k < parts.length) :
    (chopped missing parts).take k = parts.take k := by
  unfold chopped
  split
  · have front : k ≤ parts.dropLast.length := by
      rw [List.length_dropLast]
      omega
    rw [List.take_append_of_le_length front,List.dropLast_eq_take,List.take_take,Nat.min_eq_left (by omega)]
  · rfl

theorem filterTake {parts : List Text} {k left : Nat} (enough : left ≤ (parts.take k).countP visible) :
    (parts.filter visible).take left = ((parts.take k).filter visible).take left := by
  have size : left ≤ ((parts.take k).filter visible).length := by rwa [← List.countP_eq_length_filter]
  conv_lhs => rw [← List.take_append_drop k parts,List.filter_append,List.take_append_of_le_length size]

theorem subPartsTake {missing : Bool} {pre : Text} {parts parts' : List Text} {k left : Nat} (same : parts.take k = parts'.take k)
    (inside : k < parts.length) (inside' : k < parts'.length) (enough : left ≤ (parts'.take k).countP visible) :
    (subParts missing pre parts).take left = (subParts missing pre parts').take left := by
  have front := @filterTake (chopped missing parts) k left (by rw [chopTake inside,same]; exact enough)
  have front' := @filterTake (chopped missing parts') k left (by rw [chopTake inside']; exact enough)
  have texts : ((chopped missing parts).filter visible).take left = ((chopped missing parts').filter visible).take left := by
    rw [front,front',chopTake inside,chopTake inside',same]
  have subs := congrArg (List.map newSub) texts
  rw [List.map_take,List.map_take] at subs
  unfold subParts
  dsimp only
  split
  · cases left with
    | zero => rfl
    | succ left =>
      have shorter := congrArg (List.take left) subs
      rw [List.take_take,List.take_take,Nat.min_eq_left (Nat.le_succ left)] at shorter
      rw [List.take_succ_cons,List.take_succ_cons,shorter]
  · exact subs

theorem cutEpilogueShorter (bnd bdy : Text) : (cutEpilogue bnd bdy).1.length ≤ bdy.length := by
  have shorter {start : Bool} {t before : Text} (is : beforeEpilogue bnd start t = some before) : before.length ≤ t.length := by
    induction t generalizing start before with
    | nil => cases is
    | cons c t ih =>
      rw [beforeEpilogue] at is
      split at is
      · cases is
        exact Nat.zero_le _
      · obtain ⟨front,found,rfl⟩ := Option.map_eq_some_iff.mp is
        exact Nat.succ_le_succ (ih found)
  unfold cutEpilogue
  split
  · rename_i before is
    exact shorter is
  · exact Nat.le_refl _

section
variable {ct : Text → ContentType}

theorem splitRoomy {bnd b : Text} {limit left size : Nat} (two : 2 ≤ limit) (fits : b.length ≤ size)
    (roomy : (split bnd (size + 2) b).length ≤ limit ∨ left ≤ ((split bnd (size + 2) b).tail.take (limit - 2)).countP visible) :
    split bnd limit b = split bnd (size + 2) b ∨ ∃ pre part parts part' parts',split bnd limit b = pre :: part :: parts ∧
      split bnd (size + 2) b = pre :: part' :: parts' ∧
      ∀ missing,(subParts missing pre (part :: parts)).take left = (subParts missing pre (part' :: parts')).take left := by
  unfold split at roomy ⊢
  split
  · exact .inl rfl
  · rename_i some
    rw [if_neg some] at roomy
    have steps : size + 2 - 1 = size + 1 := rfl
    rw [steps] at roomy ⊢
    obtain ⟨n,rfl⟩ : ∃ n,limit = n + 2 := ⟨limit - 2,by omega⟩
    have less : n + 2 - 1 = n + 1 := rfl
    rw [less]
    rcases Nat.lt_or_ge n size with small | large
    · obtain ⟨take,eq | ⟨few,more⟩⟩ := @fieldsTake bnd (n + 1) (size + 1) (by omega) b
      · exact .inl eq.symm
      · right
        have enough := roomy.resolve_left (by omega)
        cases is : fields bnd (n + 1) b with
        | nil => exact absurd is (fieldsSome _ _ _)
        | cons pre rest =>
          cases is' : fields bnd (size + 1) b with
          | nil => exact absurd is' (fieldsSome _ _ _)
          | cons pre' rest' =>
            rw [is,is'] at take
            rw [is,List.length_cons] at few
            rw [is',List.length_cons] at more
            rw [is'] at enough
            obtain ⟨rfl,same⟩ := List.cons.inj take
            cases rest with
            | nil => cases few
            | cons part parts =>
              cases rest' with
              | nil => exact absurd more (by rw [List.length_nil]; omega)
              | cons part' parts' =>
                exact ⟨pre,part,parts,part',parts',rfl,rfl,fun missing => subPartsTake same (by omega) (by omega) enough⟩
    · exact .inl (fieldsEnough (by omega) (by omega))

theorem descendRoomy {limit left : Nat} {self : Part} (two : 2 ≤ limit) (roomy : Roomy ct limit left self) :
    (descend ct limit true self).1 = (whole ct self).1 ∧
      (descend ct limit true self).2.map (·.take left) = (whole ct self).2.map (·.take left) := by
  unfold whole descend
  dsimp only
  split
  · exact ⟨rfl,rfl⟩
  · split
    · exact ⟨rfl,rfl⟩
    · rename_i bnd is
      rw [if_pos rfl]
      cases body : self.eml.bdy with
      | none => exact ⟨rfl,rfl⟩
      | some bdy =>
        have raw : bodyRaw self.eml = bdy := by rw [bodyRaw,body]; rfl
        have room := roomy bnd is
        dsimp only at room
        rw [raw] at room
        dsimp only
        rw [raw]
        rcases splitRoomy two (cutEpilogueShorter bnd bdy) room with eq | ⟨pre,part,parts,part',parts',some,some',same⟩
        · rw [eq]
          exact ⟨rfl,rfl⟩
        · rw [some,some']
          exact ⟨rfl,congrArg Option.some (same _)⟩

theorem descendOnce (limit : Nat) (self : Part) : (descend ct limit false self).2 = (descend ct limit true self).2 := by
  unfold descend
  dsimp only
  split
  · rfl
  · split
    · rfl
    · rename_i bnd is
      rw [if_neg Bool.false_ne_true,if_pos rfl]
      cases body : self.eml.bdy with
      | none =>
        have raw : bodyRaw self.eml = [] := by rw [bodyRaw,body]; rfl
        rw [raw]
        rfl
      | some bdy =>
        have raw : bodyRaw self.eml = bdy := by rw [bodyRaw,body]; rfl
        rw [raw]
        dsimp only
        split <;> rfl

end

end Part
end PublicInbox.Mime
