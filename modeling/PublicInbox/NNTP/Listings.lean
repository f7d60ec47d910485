import PublicInbox.Library.Cursor
import PublicInbox.Library.Decimal
import PublicInbox.NNTP

/-! NNTP.pm: the replies that list a range of articles: LISTGROUP, HDR and XHDR, OVER and XOVER, XROVER. They are
written step by step, and other processes add and remove articles between two steps. -/
namespace PublicInbox.NNTP.Listings
open Keyed

abbrev Text := List Char

/- The fields of a row of `over` that are listed; `date` is what PublicInbox::Smsg::date makes of its ds. -/
structure Smsg where
  subject : Text
  «from» : Text
  date : Text
  mid : Text
  references : Option Text
  bytes : Text
  lines : Text
  «to» : Text
  cc : Text

structure Server where
  mm : Msgmap Text
  «over» : Table Int Smsg
  xref : Int → Smsg → Text

/-! The range -/

structure Bound where
  num : Int
  text : Text

def Bound.ofInt (n : Int) : Bound := ⟨n,(toString n).toList⟩

def Bound.given (digits : Text) : Bound := ⟨Decimal.value digits,digits⟩

def rangeArg (range : Text) : Option (Text × Option (Option Text)) :=
  let beg := range.takeWhile Char.isDigit
  if beg = [] then none
  else match range.dropWhile Char.isDigit with
    | [] => some (beg,none)
    | ['-'] => some (beg,some none)
    | '-' :: more => if more.all Char.isDigit then some (beg,some (some more)) else none
    | _ => none

def min (mm : Msgmap Text) : Int := mm.msgmap.rows.keys.head?.getD 0

def rangeEnd (mm : Msgmap Text) (beg : Text) : Option (Option Text) → Bound
  | none => .given beg
  | some none => .ofInt mm.max
  | some (some «end») => .given «end»

def atLeast (least : Int) (b : Bound) : Bound := if b.num < least then .ofInt least else b

def atMost (most : Int) (b : Bound) : Bound := if b.num > most then .ofInt most else b

def noneSelected : Text := "412 no newsgroup selected\r\n".toList

def noArticles : Text := "420 No article(s) selected\r\n".toList

def r501 : Text := "501 command syntax error\r\n".toList

def getRange (ibx : Option (Msgmap Text)) (range : Option Text) : Except Text (Bound × Bound) :=
  match ibx,range with
  | none,_ => .error "412 no news group has been selected\r\n".toList
  | some _,none => .error noArticles
  | some mm,some range =>
    match rangeArg range with
    | none => .error r501
    | some (beg,rest) =>
      if (atLeast (min mm) (.given beg)).num > (atMost mm.max (rangeEnd mm beg rest)).num then .error noArticles
      else .ok (atLeast (min mm) (.given beg),atMost mm.max (rangeEnd mm beg rest))

/-! The callbacks: whether there may be more, the next beg and the lines, each with its number -/

def msgRange (server : Server) (beg «end» : Int) : List (Int × Text) :=
  (server.mm.msgmap.rows.rows.filter fun r => beg ≤ r.1 && r.1 ≤ «end»).take 1000

def queryXover (server : Server) (beg «end» : Int) : List (Int × Smsg) :=
  (server.over.rows.filter fun r => beg ≤ r.1 && r.1 ≤ «end»).take 1000

abbrev Step := Bool × Int × List (Int × Text)

def listgroupRangeI (server : Server) (beg «end» : Int) : Step :=
  let r := msgRange server beg «end»
  match r.getLast? with
  | none => (false,beg,[])
  | some last => (true,last.1 + 1,r.map fun (num,_) => (num,[]))

def listgroupAllI (server : Server) (num _end : Int) : Step :=
  let ary := (server.over.rows.filter fun r => num < r.1).take 1000
  match ary.getLast? with
  | none => (false,num,[])
  | some last => (true,last.1,ary.map fun (num,_) => (num,[]))

def hdrMsgidRangeI (server : Server) (beg «end» : Int) : Step :=
  let r := msgRange server beg «end»
  match r.getLast? with
  | none => (false,beg,[])
  | some last => (true,last.1 + 1,r.map fun (num,mid) => (num," <".toList ++ mid ++ ['>']))

def xrefRangeI (server : Server) (beg «end» : Int) : Step :=
  let msgs := queryXover server beg «end»
  match msgs.getLast? with
  | none => (false,beg,[])
  | some last => (true,last.1 + 1,msgs.map fun (num,smsg) => (num,' ' :: server.xref num smsg))

inductive Field where
  | subject
  | references
  | date
  | «from»
  | «to»
  | cc
  | bytes
  | lines

def Field.of (smsg : Smsg) : Field → Text
  | subject => smsg.subject
  | references => smsg.references.getD []
  | date => smsg.date
  | «from» => smsg.from
  | «to» => smsg.to
  | cc => smsg.cc
  | bytes => smsg.bytes
  | lines => smsg.lines

def smsgRangeI (field : Field) (server : Server) (beg «end» : Int) : Step :=
  let msgs := queryXover server beg «end»
  match msgs.getLast? with
  | none => (false,beg,[])
  | some last => (last.1 + 1 ≠ 0,last.1 + 1,msgs.map fun (num,smsg) => (num,' ' :: field.of smsg))

def overLine (server : Server) (num : Int) (smsg : Smsg) : Text :=
  [smsg.subject,smsg.from,smsg.date,['<'] ++ smsg.mid ++ ['>'],smsg.references.getD [],smsg.bytes,smsg.lines,
    "Xref: ".toList ++ server.xref num smsg].flatMap ('\t' :: ·)

def xoverI (server : Server) (beg «end» : Int) : Step :=
  let msgs := queryXover server beg «end»
  match msgs.getLast? with
  | none => (false,beg,[])
  | some last => (last.1 + 1 ≠ 0,last.1 + 1,msgs.map fun (num,smsg) => (num,overLine server num smsg))

def xroverI (server : Server) (beg «end» : Int) : Step :=
  (beg < «end»,beg + 1,((server.over.get? beg).bind Smsg.references).toList.map fun h => (beg,' ' :: h))

inductive Listing where
  | listgroup
  | listgroupAll
  | messageId (xhdr : Bool)
  | xref (xhdr : Bool)
  | smsg (xhdr : Bool) (field : Field)
  | xover
  | xrover

def Listing.step : Listing → Server → Int → Int → Step
  | listgroup => listgroupRangeI
  | listgroupAll => listgroupAllI
  | messageId _ => hdrMsgidRangeI
  | xref _ => xrefRangeI
  | smsg _ field => smsgRangeI field
  | xover => xoverI
  | xrover => xroverI

def hdrStatus (xhdr : Bool) : Text := (if xhdr then "221 Header follows\r\n" else "225 Headers follow (multi-line)\r\n").toList

def Listing.status (beg «end» : Bound) : Listing → Text
  | listgroup | listgroupAll => []
  | messageId xhdr | xref xhdr | smsg xhdr _ => hdrStatus xhdr
  | xover => "224 Overview information follows for ".toList ++ beg.text ++ " to ".toList ++ «end».text ++ ['\r','\n']
  | xrover => "224 Overview information follows\r\n".toList

def line (r : Int × Text) : Text := (toString r.1).toList ++ r.2 ++ ['\r','\n']

def Listing.line (beg : Bound) : Listing → Int × Text → Text
  | xrover,r => if r.1 = beg.num then beg.text ++ r.2 ++ ['\r','\n'] else Listings.line r
  | _,r => Listings.line r

def longResponse (cb : Server → Int → Int → Step) (servers : Nat → Server) («end» : Int) : Nat → Nat → Int → Option (List (Int × Text))
  | 0,_,_ => none
  | steps + 1,moment,beg =>
    match cb (servers moment) beg «end» with
    | (false,_,lines) => some lines
    | (true,beg,lines) => (longResponse cb servers «end» steps (moment + 1) beg).map (lines ++ ·)

/-! The commands. A reply is there if it is done after some number of steps; the range is read at moment 0. -/

/- What a connection has selected. The tables of Server are those of this group, or of the one LISTGROUP names. -/
structure Client where
  selected : Bool
  article : Option Nat

section
variable (servers : Nat → Server) (steps : Nat)

def rangeReply (listing : Listing) (selected : Bool) (range : Option Text) : Option Text :=
  match getRange (if selected then some (servers 0).mm else none) range with
  | .error res => some res
  | .ok (beg,«end») => (longResponse listing.step servers «end».num steps 1 beg.num).map fun lines =>
      listing.status beg «end» ++ lines.flatMap (listing.line beg) ++ ".\r\n".toList

def orArticle (client : Client) (range : Option Text) : Option Text :=
  range <|> client.article.map fun n => (toString n).toList

def cmdGroup (mm : Msgmap Text) (group : Text) : Text :=
  "211 ".toList ++ (toString (mm.max - min mm)).toList ++ [' '] ++ (toString (min mm)).toList ++ [' '] ++ (toString mm.max).toList ++
    [' '] ++ group ++ ['\r','\n']

def listgroupIn : Option Text → Option Text
  | some range => rangeReply servers steps .listgroup true (some range)
  | none => (longResponse listgroupAllI servers 0 steps 1 0).map fun lines => lines.flatMap line ++ ".\r\n".toList

def cmdListgroup (client : Client) (group : Option (Text × Bool)) (range : Option Text) : Option Text :=
  match group with
  | some (_,false) => some "411 no such news group\r\n".toList
  | some (name,true) => (listgroupIn servers steps range).map (cmdGroup (servers 0).mm name ++ ·)
  | none => if client.selected then listgroupIn servers steps range else some noneSelected

def numeric (range : Text) : Bool := !(range.head? == some '<' && range.getLast? == some '>' && 2 < range.length &&
  (range.tail.dropLast.all (· ≠ '>')))

inductive Header where
  | messageId
  | xref
  | smsg (field : Field)

def Header.listing (xhdr : Bool) : Header → Listing
  | messageId => .messageId xhdr
  | xref => .xref xhdr
  | smsg field => .smsg xhdr field

def doHdr (client : Client) (xhdr : Bool) (header : Header) (range : Option { range : Text // numeric range = true }) : Option Text :=
  rangeReply servers steps (header.listing xhdr) client.selected (orArticle client (range.map Subtype.val))

def cmdXover (client : Client) (range : Option Text) : Option Text :=
  rangeReply servers steps .xover client.selected (orArticle client range)

def cmdXrover (client : Client) (range : Option Text) : Option Text :=
  if client.selected = false then some noneSelected
  else if range.any fun range => range.any fun c => c == '<' || c == '>' then some noArticles
  else rangeReply servers steps .xrover client.selected (orArticle client range)

inductive Command where
  | listgroup (group : Option (Text × Bool)) (range : Option Text)
  | hdr (xhdr : Bool) (header : Header) (range : Option { range : Text // numeric range = true })
  | xover (range : Option Text)
  | xrover (range : Option Text)

def reply (client : Client) : Command → Option Text
  | .listgroup group range => cmdListgroup servers steps client group range
  | .hdr xhdr header range => doHdr servers steps client xhdr header range
  | .xover range => cmdXover servers steps client range
  | .xrover range => cmdXrover servers steps client range

end

/-! What is listed -/

def Listing.rows (server : Server) : Listing → Table Int Text
  | listgroup => server.mm.msgmap.rows.map fun _ _ => []
  | listgroupAll => server.over.map fun _ _ => []
  | messageId _ => server.mm.msgmap.rows.map fun _ mid => " <".toList ++ mid ++ ['>']
  | xref _ => server.over.map fun num smsg => ' ' :: server.xref num smsg
  | smsg _ field => server.over.map fun _ smsg => ' ' :: field.of smsg
  | xover => server.over.map fun num smsg => overLine server num smsg
  | xrover => (server.over.filter fun _ smsg => smsg.references.isSome).map fun _ smsg => ' ' :: smsg.references.getD []

def begPlace : Cursor.Place Int Int where
  past beg n := beg ≤ n
  after l := l + 1
  behind l n := by rw [decide_eq_true_iff]; exact Int.add_one_le_iff
  up first next := by
    rw [decide_eq_true_iff] at first ⊢
    exact first.trans next.le

abbrev page (t : Table Int Text) (beg «end» : Int) : List (Int × Text) := Cursor.page begPlace 1000 (fun n _ => n ≤ «end») t beg

theorem pageMap {α : Type} (t : Table Int α) (f : Int → α → Text) (beg «end» : Int) :
    page (t.map f) beg «end» = ((t.rows.filter fun r => beg ≤ r.1 && r.1 ≤ «end»).take 1000).map fun r => (r.1,f r.1 r.2) := by
  rw [page,Cursor.page,Table.map,List.filter_map,List.map_take]
  refine congrArg (fun rows => (List.map _ rows).take 1000) (List.filter_congr fun r _ => ?_)
  exact Bool.and_comm _ _

theorem nextTrue {α : Type} {rows : List (Int × α)} {beg «end» : Int} {last : Int × α} (positive : 0 ≤ beg)
    (ends : ((rows.filter fun r => beg ≤ r.1 && r.1 ≤ «end»).take 1000).getLast? = some last) : decide (last.1 + 1 ≠ 0) = true := by
  have mem := List.mem_of_mem_take (List.mem_of_getLast? ends)
  have inside := (List.mem_filter.mp mem).2
  rw [Bool.and_eq_true,decide_eq_true_iff] at inside
  have low := inside.1
  exact decide_eq_true (by omega)

def Listing.asks : Listing → Bool
  | xrover | listgroupAll => false
  | _ => true

theorem stepPage {listing : Listing} (asks : listing.asks = true) (server : Server) {beg : Int} (positive : 0 ≤ beg) («end» : Int) :
    listing.step server beg «end» = match (page (listing.rows server) beg «end»).getLast? with
      | none => (false,beg,[])
      | some last => (true,last.1 + 1,page (listing.rows server) beg «end») := by
  cases listing with
  | xrover | listgroupAll => cases asks
  | listgroup =>
    simp only [Listing.step,Listing.rows,listgroupRangeI,msgRange,pageMap,List.getLast?_map]
    cases (List.take 1000 _).getLast? <;> rfl
  | messageId xhdr =>
    simp only [Listing.step,Listing.rows,hdrMsgidRangeI,msgRange,pageMap,List.getLast?_map]
    cases (List.take 1000 _).getLast? <;> rfl
  | xref xhdr =>
    simp only [Listing.step,Listing.rows,xrefRangeI,queryXover,pageMap,List.getLast?_map]
    cases (List.take 1000 _).getLast? <;> rfl
  | smsg xhdr field =>
    simp only [Listing.step,Listing.rows,smsgRangeI,queryXover,pageMap,List.getLast?_map]
    cases ends : (List.take 1000 _).getLast? with
    | none => rfl
    | some last =>
      simp only [nextTrue positive ends]
      rfl
  | xover =>
    simp only [Listing.step,Listing.rows,xoverI,queryXover,pageMap,List.getLast?_map]
    cases ends : (List.take 1000 _).getLast? with
    | none => rfl
    | some last =>
      simp only [nextTrue positive ends]
      rfl

theorem responseRead {listing : Listing} (asks : listing.asks = true) (servers : Nat → Server) («end» : Int) {steps moment : Nat} {beg : Int}
    (positive : 0 ≤ beg) : longResponse listing.step servers «end» steps moment beg =
      (Cursor.read begPlace 1000 (fun n _ => n ≤ «end») (fun moment => listing.rows (servers moment)) steps moment beg).map List.flatten := by
  induction steps generalizing moment beg with
  | zero => rfl
  | succ steps ih =>
    rw [longResponse,Cursor.read,stepPage asks _ positive]
    cases ends : (page (listing.rows (servers moment)) beg «end»).getLast? with
    | none => rfl
    | some last =>
      have low : beg ≤ last.1 := of_decide_eq_true (Cursor.memPage (List.mem_of_getLast? ends)).2.2
      dsimp only
      rw [ih (by omega),Option.map_map,Option.map_map]
      rfl

/-! The range is what was asked for -/

def Asked (range : Text) (n : Int) : Prop :=
  ∃ beg rest,rangeArg range = some (beg,rest) ∧ Decimal.value beg ≤ n ∧ (rest = none → n ≤ Decimal.value beg) ∧
    ∀ last,rest = some (some last) → n ≤ Decimal.value last

theorem minLeast {mm : Msgmap Text} {n : Int} {mid : Text} (there : mm.midFor n = some mid) : min mm ≤ n := by
  have mem : n ∈ mm.msgmap.rows.keys := Table.memKeys.mpr ⟨mid,there⟩
  have sorted := Table.keysSorted mm.msgmap.rows
  rw [min]
  cases keys : mm.msgmap.rows.keys with
  | nil =>
    rw [keys] at mem
    cases mem
  | cons first rest =>
    rw [keys] at mem sorted
    rcases List.mem_cons.mp mem with rfl | mem
    · exact le_refl _
    · exact ((List.pairwise_cons.mp sorted).1 n mem).le

theorem maxMost {mm : Msgmap Text} {n : Int} {mid : Text} (there : mm.midFor n = some mid) : n ≤ mm.max := by
  have mem : n ∈ mm.msgmap.rows.keys := Table.memKeys.mpr ⟨mid,there⟩
  rw [Msgmap.max,Auto.max?]
  cases last : mm.msgmap.rows.keys.getLast? with
  | none =>
    rw [List.getLast?_eq_none_iff.mp last] at mem
    cases mem
  | some most =>
    obtain ⟨front,keys⟩ := List.getLast?_eq_some_iff.mp last
    have sorted := Table.keysSorted mm.msgmap.rows
    rw [keys] at mem sorted
    rcases List.mem_append.mp mem with before | same
    · exact ((List.pairwise_append.mp sorted).2.2 n before most List.mem_cons_self).le
    · exact (List.mem_singleton.mp same).le

theorem askedInside {mm : Msgmap Text} {range mid : Text} {n : Int} {low : Text} {rest : Option (Option Text)}
    (arg : rangeArg range = some (low,rest)) (asked : Asked range n) (there : mm.midFor n = some mid) :
    (atLeast (min mm) (.given low)).num ≤ n ∧ n ≤ (atMost mm.max (rangeEnd mm low rest)).num := by
  obtain ⟨beg,rest',arg',first,single,last⟩ := asked
  rw [arg] at arg'
  cases arg'
  have least := minLeast there
  have most := maxMost there
  have reaches : n ≤ (rangeEnd mm low rest).num := by
    match rest with
    | none => exact single rfl
    | some none => exact most
    | some (some last') => exact last last' rfl
  unfold atLeast atMost
  constructor
  · split
    · exact least
    · exact first
  · split
    · exact most
    · exact reaches

theorem rangeGot {mm : Msgmap Text} {range : Text} {beg «end» : Bound} (got : getRange (some mm) (some range) = .ok (beg,«end»)) :
    0 ≤ beg.num ∧ beg.num ≤ «end».num ∧ (∀ n,beg.num ≤ n → n ≤ «end».num → Asked range n) ∧
      ∀ n mid,Asked range n → mm.midFor n = some mid → beg.num ≤ n ∧ n ≤ «end».num := by
  rw [getRange] at got
  split at got
  · cases got
  · rename_i low rest arg
    split at got
    · cases got
    · rename_i order
      cases got
      have above : (Decimal.value low : Int) ≤ (atLeast (min mm) (.given low)).num := by
        unfold atLeast
        split
        · rename_i less
          exact le_of_lt less
        · exact le_refl _
      have below : (atMost mm.max (rangeEnd mm low rest)).num ≤ (rangeEnd mm low rest).num := by
        unfold atMost
        split
        · rename_i more
          exact le_of_lt more
        · exact le_refl _
      refine ⟨(Int.natCast_nonneg _).trans above,not_lt.mp order,
        fun n first last => ⟨low,rest,arg,above.trans first,?_,?_⟩,fun n mid => askedInside arg⟩
      · rintro rfl
        exact last.trans below
      · rintro n' rfl
        exact last.trans below

theorem rangeRefused {mm : Msgmap Text} {range res : Text} (refused : getRange (some mm) (some range) = .error res) :
    rangeArg range = none ∧ res = r501 ∨ (∀ n,Asked range n → mm.midFor n = none) ∧ res = noArticles := by
  rw [getRange] at refused
  split at refused
  · rename_i malformed
    cases refused
    exact .inl ⟨malformed,rfl⟩
  · rename_i low rest arg
    split at refused
    · rename_i order
      cases refused
      refine .inr ⟨fun n asked => ?_,rfl⟩
      cases there : mm.midFor n with
      | none => rfl
      | some mid =>
        obtain ⟨first,last⟩ := askedInside arg asked there
        exact absurd (first.trans last) (not_le.mpr order)
    · cases refused

/-! The lines of a reply -/

structure Listed (listing : Listing) (wanted : Int → Prop) (servers : Nat → Server) (steps : Nat) (lines : List (Int × Text)) : Prop where
  ascending : lines.Pairwise fun a b => a.1 < b.1
  asked : ∀ l ∈ lines,wanted l.1
  real : ∀ l ∈ lines,∃ moment,1 ≤ moment ∧ moment ≤ steps ∧ (listing.rows (servers moment)).get? l.1 = some l.2
  all : ∀ n mid,wanted n → (servers 0).mm.midFor n = some mid →
    (∀ moment,1 ≤ moment → moment ≤ steps → ∃ text,(listing.rows (servers moment)).get? n = some text) → ∃ text,(n,text) ∈ lines

theorem between {low high n : Int} (above : low ≤ n) (below : n ≤ high) :
    n ∈ (List.range (high - low + 1).toNat).map fun i : Nat => low + i :=
  List.mem_map.mpr ⟨(n - low).toNat,List.mem_range.mpr (by omega),by omega⟩

theorem pagesListed {listing : Listing} (asks : listing.asks = true) {range : Text} {servers : Nat → Server} {beg «end» : Bound}
    (got : getRange (some (servers 0).mm) (some range) = .ok (beg,«end»)) :
    ∃ steps lines,longResponse listing.step servers «end».num steps 1 beg.num = some lines ∧
      Listed listing (Asked range) servers steps lines := by
  obtain ⟨positive,order,exact,all⟩ := rangeGot got
  have bounded : ∀ moment k a,(listing.rows (servers moment)).get? k = some a → decide (k ≤ «end».num) = true →
      begPlace.past beg.num k = true → k ∈ (List.range («end».num - beg.num + 1).toNat).map fun i : Nat => beg.num + i :=
    fun _ k _ _ low high => between (of_decide_eq_true high) (of_decide_eq_true low)
  obtain ⟨pages,done⟩ := @Cursor.readEnds _ _ _ _ _ 1000 _ _ _ _ bounded _ 1 (Nat.lt_succ_self _)
  have reads := Cursor.readReads (by omega) done
  refine ⟨pages.length + 1,pages.flatten,?_,reads.ascending,?_,?_,?_⟩
  · rw [responseRead asks servers «end».num positive,Cursor.readExact done]
    rfl
  · intro l mem
    obtain ⟨_,_,_,_,low⟩ := reads.real l mem
    exact exact l.1 (of_decide_eq_true (reads.past l mem)) (of_decide_eq_true low)
  · intro l mem
    obtain ⟨moment,later,most,found,_⟩ := reads.real l mem
    exact ⟨moment,later,by omega,found⟩
  · intro n mid asked there always
    obtain ⟨first,last⟩ := all n mid asked there
    refine reads.all n (decide_eq_true first) fun moment later most => ?_
    obtain ⟨text,found⟩ := always moment later (by omega)
    exact ⟨text,found,decide_eq_true last⟩

/-! LISTGROUP without a range goes on as long as it finds larger numbers. -/

def numPlace : Cursor.Place Int Int where
  past num n := num < n
  after l := l
  behind l n := decide_eq_true_iff
  up first next := by
    rw [decide_eq_true_iff] at first ⊢
    exact first.trans next

theorem allRead (servers : Nat → Server) («end» : Int) {steps moment : Nat} {num : Int} :
    longResponse listgroupAllI servers «end» steps moment num =
      (Cursor.read numPlace 1000 (fun _ _ => true) (fun moment => Listing.listgroupAll.rows (servers moment)) steps moment num).map
        List.flatten := by
  induction steps generalizing moment num with
  | zero => rfl
  | succ steps ih =>
    have page : Cursor.page numPlace 1000 (fun _ _ => true) (Listing.listgroupAll.rows (servers moment)) num =
        (((servers moment).over.rows.filter fun r => num < r.1).take 1000).map fun r => (r.1,[]) := by
      rw [Cursor.page,Listing.rows,Table.map,List.filter_map,List.map_take]
      rfl
    rw [longResponse,Cursor.read,listgroupAllI,page,List.getLast?_map]
    cases (List.take 1000 ((servers moment).over.rows.filter fun r => num < r.1)).getLast? with
    | none => rfl
    | some last =>
      dsimp only [Option.map_some]
      rw [ih,Option.map_map,Option.map_map]
      rfl

theorem allListed {servers : Nat → Server} {most : Int} (bounded : ∀ moment n smsg,(servers moment).over.get? n = some smsg → n ≤ most) :
    ∃ steps lines,longResponse listgroupAllI servers 0 steps 1 0 = some lines ∧ Listed .listgroupAll (0 < ·) servers steps lines := by
  have few : ∀ moment k a,(Listing.listgroupAll.rows (servers moment)).get? k = some a → true = true →
      numPlace.past 0 k = true → k ∈ (List.range (most - 1 + 1).toNat).map fun i : Nat => 1 + (i : Int) := by
    intro moment k a found _ past
    rw [Listing.rows,Table.getMap] at found
    obtain ⟨smsg,there,-⟩ := Option.map_eq_some_iff.mp found
    have positive : 0 < k := of_decide_eq_true past
    exact between (by omega) (bounded moment k smsg there)
  obtain ⟨pages,done⟩ := @Cursor.readEnds _ _ _ _ _ 1000 _ _ _ _ few _ 1 (Nat.lt_succ_self _)
  have reads := Cursor.readReads (by omega) done
  refine ⟨pages.length + 1,pages.flatten,?_,reads.ascending,?_,?_,?_⟩
  · rw [allRead,Cursor.readExact done]
    rfl
  · exact fun l mem => of_decide_eq_true (reads.past l mem)
  · intro l mem
    obtain ⟨moment,later,most,found,_⟩ := reads.real l mem
    exact ⟨moment,later,by omega,found⟩
  · intro n mid asked there always
    refine reads.all n (decide_eq_true asked) fun moment later most => ?_
    obtain ⟨text,found⟩ := always moment later (by omega)
    exact ⟨text,found,rfl⟩

/-! XROVER takes one number after the other. -/

theorem xroverRow (server : Server) (n : Int) (text : Text) :
    (n,text) ∈ (((server.over.get? n).bind Smsg.references).toList.map fun h => (n,' ' :: h)) ↔
      (Listing.xrover.rows server).get? n = some text := by
  simp only [Listing.rows,Table.getMap,Table.getFilter]
  cases server.over.get? n with
  | none => simp
  | some smsg => cases refs : smsg.references <;> simp [refs,Option.filter,eq_comm]

theorem xroverLines {servers : Nat → Server} {«end» : Int} {steps moment : Nat} {beg : Int} (order : beg ≤ «end») (enough : («end» - beg).toNat < steps) :
    ∃ lines,longResponse xroverI servers «end» steps moment beg = some lines ∧ lines.Pairwise (fun a b => a.1 < b.1) ∧
      (∀ l ∈ lines,beg ≤ l.1 ∧ l.1 ≤ «end» ∧ (Listing.xrover.rows (servers (moment + (l.1 - beg).toNat))).get? l.1 = some l.2) ∧
      ∀ n,beg ≤ n → n ≤ «end» → ∀ text,(Listing.xrover.rows (servers (moment + (n - beg).toNat))).get? n = some text → (n,text) ∈ lines := by
  induction steps generalizing moment beg with
  | zero => cases enough
  | succ steps ih =>
    have here : ∀ l,l ∈ (((servers moment).over.get? beg).bind Smsg.references).toList.map (fun h => (beg,' ' :: h)) → l.1 = beg := by
      intro l mem
      obtain ⟨_,_,rfl⟩ := List.mem_map.mp mem
      rfl
    have sorted : ((((servers moment).over.get? beg).bind Smsg.references).toList.map fun h => (beg,' ' :: h)).Pairwise fun a b => a.1 < b.1 := by
      cases ((servers moment).over.get? beg).bind Smsg.references <;> simp
    have rows := xroverRow (servers moment) beg
    rw [longResponse,xroverI]
    generalize (((servers moment).over.get? beg).bind Smsg.references).toList.map (fun h => (beg,' ' :: h)) = first at here sorted rows
    have now : moment + (beg - beg).toNat = moment := by omega
    cases more : decide (beg < «end») with
    | false =>
      have last : beg = «end» := le_antisymm order (not_lt.mp (of_decide_eq_false more))
      refine ⟨first,rfl,sorted,?_,?_⟩
      · rintro ⟨n,text⟩ mem
        obtain rfl : n = beg := here _ mem
        exact ⟨le_refl _,order,now.symm ▸ (rows text).mp mem⟩
      · intro n low high text found
        obtain rfl : n = beg := le_antisymm (high.trans_eq last.symm) low
        exact (rows text).mpr (now ▸ found)
    | true =>
      have next := of_decide_eq_true more
      obtain ⟨rest,done,ascending,real,all⟩ := @ih (moment + 1) (beg + 1) next (by omega)
      have same : ∀ n,beg + 1 ≤ n → moment + 1 + (n - (beg + 1)).toNat = moment + (n - beg).toNat := by
        intro n _
        omega
      refine ⟨first ++ rest,congrArg (Option.map _) done,?_,?_,?_⟩
      · refine List.pairwise_append.mpr ⟨sorted,ascending,fun a memA b memB => ?_⟩
        have := (real b memB).1
        have := here a memA
        omega
      · rintro ⟨n,text⟩ mem
        rcases List.mem_append.mp mem with mem | mem
        · obtain rfl : n = beg := here _ mem
          exact ⟨le_refl _,order,now.symm ▸ (rows text).mp mem⟩
        · obtain ⟨low,high,found⟩ := real _ mem
          rw [same n low] at found
          exact ⟨by omega,high,found⟩
      · intro n low high text found
        rcases low.eq_or_lt with rfl | above
        · exact List.mem_append_left _ ((rows text).mpr (now ▸ found))
        · exact List.mem_append_right _ (all n above high text ((same n above).symm ▸ found))

theorem xroverListed {range : Text} {servers : Nat → Server} {beg «end» : Bound}
    (got : getRange (some (servers 0).mm) (some range) = .ok (beg,«end»)) :
    ∃ steps lines,longResponse Listing.xrover.step servers «end».num steps 1 beg.num = some lines ∧
      Listed .xrover (Asked range) servers steps lines := by
  obtain ⟨_,order,exact,inside⟩ := rangeGot got
  obtain ⟨lines,done,ascending,real,all⟩ := @xroverLines servers _ _ 1 _ order (Nat.lt_succ_self _)
  refine ⟨_,lines,done,ascending,?_,?_,?_⟩
  · intro l mem
    obtain ⟨low,high,_⟩ := real l mem
    exact exact l.1 low high
  · intro l mem
    obtain ⟨low,high,found⟩ := real l mem
    exact ⟨_,by omega,by omega,found⟩
  · intro n mid asked there always
    obtain ⟨low,high⟩ := inside n mid asked there
    obtain ⟨text,found⟩ := always (1 + (n - beg.num).toNat) (by omega) (by omega)
    exact ⟨text,all n low high text found⟩

/-! The replies that there are -/

section
variable (servers : Nat → Server) (steps : Nat)

inductive Ranged (listing : Listing) (range : Text) : Text → Prop where
  | malformed (arg : rangeArg range = none) : Ranged listing range r501
  | nothing (none : ∀ n,Asked range n → (servers 0).mm.midFor n = none) : Ranged listing range noArticles
  | lines {beg «end» : Bound} {lines : List (Int × Text)} (got : getRange (some (servers 0).mm) (some range) = .ok (beg,«end»))
      (listed : Listed listing (Asked range) servers steps lines) :
      Ranged listing range (listing.status beg «end» ++ lines.flatMap (listing.line beg) ++ ".\r\n".toList)

def InGroup : Option Text → Text → Prop
  | some range,text => Ranged servers steps .listgroup range text
  | none,text => ∃ lines,Listed .listgroupAll (0 < ·) servers steps lines ∧ text = lines.flatMap line ++ ".\r\n".toList

def FromRange (listing : Listing) (client : Client) (range : Option Text) (text : Text) : Prop :=
  match client.selected,orArticle client range with
  | false,_ => text = "412 no news group has been selected\r\n".toList
  | true,none => text = noArticles
  | true,some range => Ranged servers steps listing range text

def Answers (client : Client) (text : Text) : Command → Prop
  | .listgroup (some (_,false)) _ => text = "411 no such news group\r\n".toList
  | .listgroup (some (name,true)) range => ∃ rest,InGroup servers steps range rest ∧ text = cmdGroup (servers 0).mm name ++ rest
  | .listgroup none range => if client.selected = true then InGroup servers steps range text else text = noneSelected
  | .hdr xhdr header range => FromRange servers steps (header.listing xhdr) client (range.map Subtype.val) text
  | .xover range => FromRange servers steps .xover client range text
  | .xrover range =>
    if client.selected = false then text = noneSelected
    else if (range.any fun range => range.any fun c => c == '<' || c == '>') = true then text = noArticles
    else FromRange servers steps .xrover client range text

end

section
variable {servers : Nat → Server}

theorem rangedReply {listing : Listing} (other : listing ≠ .listgroupAll) (range : Text) :
    ∃ steps text,rangeReply servers steps listing true (some range) = some text ∧ Ranged servers steps listing range text := by
  cases got : getRange (some (servers 0).mm) (some range) with
  | error res =>
    refine ⟨0,res,by simp only [rangeReply,if_true,got],?_⟩
    rcases rangeRefused got with ⟨malformed,rfl⟩ | ⟨none,rfl⟩
    · exact .malformed malformed
    · exact .nothing none
  | ok r =>
    obtain ⟨beg,«end»⟩ := r
    have listed : ∃ steps lines,longResponse listing.step servers «end».num steps 1 beg.num = some lines ∧
        Listed listing (Asked range) servers steps lines := by
      cases asks : listing.asks with
      | true => exact pagesListed asks got
      | false =>
        cases listing with
        | xrover => exact xroverListed got
        | listgroupAll => exact absurd rfl other
        | _ => cases asks
    obtain ⟨steps,lines,done,listed⟩ := listed
    exact ⟨steps,_,by simp only [rangeReply,if_true,got,done,Option.map_some],.lines got listed⟩

theorem fromRangeReply {listing : Listing} (other : listing ≠ .listgroupAll) (client : Client) (range : Option Text) :
    ∃ steps text,rangeReply servers steps listing client.selected (orArticle client range) = some text ∧
      FromRange servers steps listing client range text := by
  unfold FromRange
  cases client.selected with
  | false => exact ⟨0,_,rfl,rfl⟩
  | true =>
    cases orArticle client range with
    | none => exact ⟨0,_,rfl,rfl⟩
    | some range => exact rangedReply other range

def Done (servers : Nat → Server) : Command → Prop
  | .listgroup _ none => ∃ most : Int,∀ moment n smsg,(servers moment).over.get? n = some smsg → n ≤ most
  | _ => True

theorem inGroupReply {range : Option Text}
    (done : range = none → ∃ most : Int,∀ moment n smsg,(servers moment).over.get? n = some smsg → n ≤ most) :
    ∃ steps text,listgroupIn servers steps range = some text ∧ InGroup servers steps range text := by
  cases range with
  | some range => exact rangedReply Listing.noConfusion range
  | none =>
    obtain ⟨most,bounded⟩ := done rfl
    obtain ⟨steps,lines,read,listed⟩ := allListed bounded
    exact ⟨steps,_,by rw [listgroupIn,read]; rfl,lines,listed,rfl⟩

theorem rangeListed (client : Client) (command : Command) (done : Done servers command) :
    ∃ steps text,reply servers steps client command = some text ∧ Answers servers steps client text command := by
  cases command with
  | listgroup group range =>
    have inside := @inGroupReply servers range (by rintro rfl; exact done)
    match group with
    | some (_,false) => exact ⟨0,_,rfl,rfl⟩
    | some (name,true) =>
      obtain ⟨steps,text,read,listed⟩ := inside
      exact ⟨steps,_,by rw [reply,cmdListgroup,read]; rfl,text,listed,rfl⟩
    | none =>
      cases selected : client.selected with
      | false => exact ⟨0,noneSelected,by simp [reply,cmdListgroup,selected],by simp [Answers,selected]⟩
      | true =>
        obtain ⟨steps,text,read,listed⟩ := inside
        exact ⟨steps,text,by simpa [reply,cmdListgroup,selected] using read,by simpa [Answers,selected] using listed⟩
  | hdr xhdr header range =>
    have other : header.listing xhdr ≠ .listgroupAll := by cases header <;> exact Listing.noConfusion
    exact fromRangeReply other client _
  | xover range => exact fromRangeReply Listing.noConfusion client range
  | xrover range =>
    simp only [reply,cmdXrover,Answers]
    split
    · exact ⟨0,_,rfl,rfl⟩
    · split
      · exact ⟨0,_,rfl,rfl⟩
      · exact fromRangeReply Listing.noConfusion client range

end

def sample : Smsg := ⟨[],[],[],['m'],none,['1'],['1'],[],[]⟩

def growing (moment : Nat) : Server where
  mm := ((Msgmap.empty.midInsert ['m']).toOption.map Prod.fst).getD .empty
  «over» := if 1 < moment then (Table.empty.insert 1 sample).insert 5 sample else Table.empty.insert 1 sample
  xref := fun _ _ => []

theorem growingListed : reply growing 3 ⟨false,none⟩ (.listgroup (some (['g'],true)) none) =
      some "211 0 1 1 g\r\n1\r\n5\r\n.\r\n".toList ∧
    ∃ steps text,reply growing steps ⟨false,none⟩ (.listgroup (some (['g'],true)) none) = some text ∧
      Answers growing steps ⟨false,none⟩ text (.listgroup (some (['g'],true)) none) := by
  have below : ∀ moment n smsg,(growing moment).over.get? n = some smsg → n ≤ 5 := by
    intro moment n smsg found
    have mem := Table.memRows.mpr found
    unfold growing at mem
    dsimp only at mem
    split at mem
    · rcases List.mem_cons.mp mem with same | mem
      · cases same
        decide
      · cases List.mem_singleton.mp mem
        decide
    · cases List.mem_singleton.mp mem
      decide
  exact ⟨by decide,rangeListed _ _ ⟨5,below⟩⟩

end PublicInbox.NNTP.Listings
