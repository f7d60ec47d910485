import PublicInbox.Config.Undef

/-! What glob2re returns, as it is read. -/
namespace PublicInbox.Config
open Regex (Means Re ordinary)
open Computability

section
variable {wide : Char → Bool}

theorem signNotWord {c : Char} (sign : quoted wide c = true) : c.isAlphanum = false := by
  by_contra word
  rw [Bool.not_eq_false] at word
  have ascii : c.toNat < 128 := by
    have word : (decide (c.val ≥ 'A'.val ∧ c.val ≤ 'Z'.val) || (decide (c.val ≥ 'a'.val) && decide (c.val ≤ 'z'.val)) ||
        (decide (c.val ≥ '0'.val) && decide (c.val ≤ '9'.val))) = true := word
    simp only [Bool.or_eq_true,Bool.and_eq_true,decide_eq_true_eq,UInt32.le_iff_toNat_le,ge_iff_le] at word
    have val : c.toNat = c.val.toNat := rfl
    have upper : 'Z'.val.toNat = 90 := rfl
    have lower : 'z'.val.toNat = 122 := rfl
    have digit : '9'.val.toNat = 57 := rfl
    omega
  unfold quoted wordChar at sign
  rw [if_pos ascii,word] at sign
  cases sign

theorem plainNot {c e : Char} (plain : quoted wide c = false) (sign : e.toNat < 128 ∧ wordChar e = false) : c ≠ e := by
  rintro rfl
  unfold quoted at plain
  rw [if_pos sign.1,sign.2] at plain
  cases plain

theorem plainOrdinary {c : Char} (plain : quoted wide c = false) : ordinary c = true := by
  have other {e : Char} (mem : e ∈ ['\\','[','(',')','|','.','*','?','+','^','$','\x7b']) : c ≠ e := by
    apply plainNot plain
    simp only [List.mem_cons,List.not_mem_nil,or_false] at mem
    rcases mem with rfl | rfl | rfl | rfl | rfl | rfl | rfl | rfl | rfl | rfl | rfl | rfl <;> decide
  have none (signs : List Char) (all : ∀ e ∈ signs,e ∈ ['\\','[','(',')','|','.','*','?','+','^','$','\x7b']) :
      signs.contains c = false := by
    rw [List.contains_eq_mem,decide_eq_false_iff_not]
    exact fun mem => other (all c mem) rfl
  unfold ordinary Regex.special
  rw [none _ (by simp),none _ (by simp)]
  rfl

theorem outHead {d : Int} {c : Char} (closes : c ≠ ']') :
    ∃ e r,charOut wide d c = e :: r ∧ e ∉ ['^',']',':','.','=','?'] := by
  unfold charOut
  cases found : reMap [c] with
  | some re =>
    rcases mapOne found with ⟨_,rfl⟩ | ⟨_,rfl⟩ | ⟨mem,rfl⟩
    · exact ⟨_,_,rfl,by decide⟩
    · exact ⟨_,_,rfl,by decide⟩
    · refine ⟨c,[],rfl,?_⟩
      simp only [List.mem_cons,List.not_mem_nil,or_false] at mem
      rcases mem with rfl | bad | rfl
      · decide
      · exact absurd bad closes
      · decide
  | none =>
    rw [Option.getD_none]
    split
    · rename_i dash
      exact ⟨c,[],rfl,by rw [dash.1]; decide⟩
    · rw [quoteOne]
      cases plain : quoted wide c with
      | true => exact ⟨'\\',[c],rfl,by decide⟩
      | false =>
        refine ⟨c,[],rfl,?_⟩
        intro mem
        simp only [List.mem_cons,List.not_mem_nil,or_false] at mem
        rcases mem with same | same | same | same | same | same <;>
          exact plainNot plain (by decide) same

theorem charMeans {d : Int} {c : Char} (ok : c ∉ syntaxChars) : Means (charOut wide d c) {[c]} := by
  have one {x : Text} (lexed : ∀ s,Regex.lex .outside (x ++ s) = (Regex.lex .outside s).map (.atom (.char c) :: ·)) :
      Means x {[c]} := Means.one lexed rfl
  unfold charOut
  cases found : reMap [c] with
  | some re =>
    rcases mapOne found with ⟨rfl,_⟩ | ⟨rfl,_⟩ | ⟨mem,rfl⟩
    · exact absurd ok (by decide)
    · exact absurd ok (by decide)
    · simp only [List.mem_cons,List.not_mem_nil,or_false] at mem
      rcases mem with rfl | rfl | rfl
      · exact absurd ok (by decide)
      · exact absurd ok (by decide)
      · exact one (Regex.lexChar (by decide))
  | none =>
    rw [Option.getD_none]
    split
    · rename_i dash
      rw [dash.1] at one ⊢
      exact one (Regex.lexChar (by decide))
    · rw [quoteOne]
      cases plain : quoted wide c with
      | true => exact one (Regex.lexEscaped (signNotWord plain))
      | false => exact one (Regex.lexChar (plainOrdinary plain))

/-! Classes -/

def ClassChar (c : Char) : Prop := c ∉ ['\\',']','\x7b','\x7d','*','?']

theorem outNamed {d : Int} {rest s : Text} (chars : ∀ c ∈ rest,ClassChar c) :
    (textOut wide d rest ++ ']' :: s).head?.any [':','.','='].contains = false := by
  cases rest with
  | nil => rfl
  | cons c rest =>
    have closes : c ≠ ']' := fun same => chars c List.mem_cons_self (by rw [same]; decide)
    obtain ⟨e,r,out,other⟩ := @outHead wide d _ closes
    rw [textOut,out]
    simp only [List.mem_cons,List.not_mem_nil,or_false,not_or] at other
    simp [other]

theorem insideText {d : Int} {rest : Text} (chars : ∀ c ∈ rest,ClassChar c) (neg : Bool) (ms : List Regex.Member) (s : Text) :
    Regex.lex (.inside neg ms) (textOut wide d rest ++ ']' :: s) =
      Regex.lex (.inside neg (ms ++ bracketed d rest)) (']' :: s) := by
  induction rest generalizing d ms with
  | nil => rw [bracketed,List.append_nil,textOut,List.nil_append]
  | cons c rest ih =>
    have own := chars c List.mem_cons_self
    have more : ∀ c ∈ rest,ClassChar c := fun x mem => chars x (List.mem_cons_of_mem _ mem)
    have other {e : Char} (mem : e ∈ ['\\',']','\x7b','\x7d','*','?']) : c ≠ e := fun same => own (same ▸ mem)
    have closes : c ≠ ']' := other (by decide)
    have escape : c ≠ '\\' := other (by decide)
    suffices step : Regex.lex (.inside neg ms) (charOut wide d c ++ (textOut wide (d + delta [c]) rest ++ ']' :: s)) =
        Regex.lex (.inside neg (ms ++ [if c = '-' ∧ d ≠ 0 then .dash else .lit c]))
          (textOut wide (d + delta [c]) rest ++ ']' :: s) by
      rw [textOut,List.append_assoc,step,ih more,bracketed,List.append_assoc]
      rfl
    by_cases dash : c = '-'
    · subst dash
      by_cases counted : d = 0
      · have out : charOut wide d '-' = ['\\','-'] := by
          rw [charOut,if_neg fun both => both.2 counted]
          rfl
        rw [out,if_neg fun both => both.2 counted]
        exact Regex.insideEscaped rfl neg ms _
      · have out : charOut wide d '-' = ['-'] := by
          rw [charOut,if_pos ⟨rfl,counted⟩]
          rfl
        rw [out,if_pos ⟨rfl,counted⟩]
        exact Regex.insideDash neg ms _
    · rw [if_neg fun both => dash both.1]
      have plain : charOut wide d c = [c] →
          Regex.lex (.inside neg ms) (charOut wide d c ++ (textOut wide (d + delta [c]) rest ++ ']' :: s)) =
            Regex.lex (.inside neg (ms ++ [.lit c])) (textOut wide (d + delta [c]) rest ++ ']' :: s) := by
        intro out
        rw [out]
        exact Regex.insideChar closes escape dash (fun _ => outNamed more) neg ms
      cases found : reMap [c] with
      | some re =>
        apply plain
        rcases mapOne found with ⟨star,_⟩ | ⟨any,_⟩ | ⟨_,rfl⟩
        · exact absurd star (other (by decide))
        · exact absurd any (other (by decide))
        · rw [charOut,found,Option.getD_some]
      | none =>
        have out : charOut wide d c = quotemeta wide [c] := by
          rw [charOut,found,Option.getD_none,if_neg fun both => dash both.1]
        cases sign : quoted wide c with
        | true =>
          rw [out,quoteOne,sign]
          exact Regex.insideEscaped (signNotWord sign) neg ms _
        | false =>
          apply plain
          rw [out,quoteOne,sign]
          rfl

theorem classMeans {d : Int} {neg : Option Char} {lead : Bool} {rest : Text}
    (ok : (Item.cls neg lead rest).Ok) (read : (Item.cls neg lead rest).Read d) :
    Means (textOut wide d (Item.cls neg lead rest).text) (Item.cls neg lead rest).lang := by
  obtain ⟨rfl,wild,rs,members,same⟩ := read
  have chars : ∀ c ∈ rest,ClassChar c := by
    intro c mem bad
    have fine := ok.2.1 c mem
    have tame := wild c mem
    simp only [List.mem_cons,List.not_mem_nil,or_false,not_or] at fine bad
    rcases bad with bad | bad | bad | bad | bad | bad
    · exact fine.1 bad
    · exact fine.2.1 bad
    · exact fine.2.2.1 bad
    · exact fine.2.2.2 bad
    · exact tame.1 bad
    · exact tame.2 bad
  have langs : (Re.set false rs).lang = (Item.cls none lead rest).lang := by
    show Regex.one _ = Regex.one _
    exact congrArg Regex.one (funext fun c => by rw [same]; rfl)
  refine Means.one (r := .set false rs) (fun s => ?_) langs
  have body : Regex.lex (.inside false (leadMember lead)) (textOut wide (d + delta ('[' :: leading lead)) rest ++ ']' :: s) =
      (Regex.lex .outside s).map (.atom (.set false rs) :: ·) := by
    rw [insideText chars,Regex.insideEnd members]
  rw [← body]
  have shape : textOut wide d (Item.cls none lead rest).text ++ s =
      '[' :: (leading lead ++ (textOut wide (d + delta ('[' :: leading lead)) rest ++ ']' :: s)) := by
    have text : (Item.cls none lead rest).text = ('[' :: leading lead) ++ (rest ++ [']']) := by
      simp [Item.text]
    have opens : textOut wide d ('[' :: leading lead) = '[' :: leading lead := by cases lead <;> rfl
    rw [text,textOutAppend,textOutAppend,opens]
    simp [textOut,charOut,reMap]
  rw [shape]
  cases lead with
  | true => exact Regex.lexLead _
  | false =>
    obtain ⟨c,rest,rfl⟩ := List.exists_cons_of_ne_nil (ok.2.2.1 rfl)
    have closes : c ≠ ']' := fun bad => chars c List.mem_cons_self (by rw [bad]; decide)
    obtain ⟨e,r,out,other⟩ := @outHead wide (d + delta ('[' :: leading false)) _ closes
    rw [textOut,out]
    exact Regex.lexSet (fun bad => other (by rw [bad]; decide)) (fun bad => other (by rw [bad]; decide)) _

/-! Items -/

theorem notSlash (c : Char) : (Regex.inRanges [('/','/')] c != true) = (c != '/') := by
  have range : Regex.inRanges [('/','/')] c = decide (c = '/') := by
    simp only [Regex.inRanges,List.any_cons,List.any_nil,Bool.or_false,decide_eq_decide]
    exact ⟨fun both => Char.le_antisymm both.2 both.1,fun same => same ▸ ⟨Char.le_refl _,Char.le_refl _⟩⟩
  rw [range]
  by_cases slash : c = '/' <;> simp [slash]

def noSlash : Re := .set true [('/','/')]

theorem lexNoSlash (s : Text) :
    Regex.lex .outside ('[' :: '^' :: '/' :: ']' :: s) = (Regex.lex .outside s).map (.atom noSlash :: ·) := by
  have negated : Regex.lex .outside ('[' :: '^' :: '/' :: ']' :: s) = Regex.lex (.inside true []) ('/' :: ']' :: s) := by
    conv_lhs => unfold Regex.lex
    rfl
  rw [negated,Regex.insideChar (by decide) (by decide) (by decide) (fun bad => absurd bad (by decide))]
  exact Regex.insideEnd rfl s

theorem noSlashLang : noSlash.lang = Regex.one (· != '/') := congrArg Regex.one (funext notSlash)

theorem itemMeans {d : Int} {i : Item} (ok : i.Ok) (read : i.Read d) :
    Means (textOut wide d i.text) i.lang := by
  cases i with
  | lit c =>
    have out : textOut wide d (Item.lit c).text = charOut wide d c := List.append_nil _
    rw [out]
    exact charMeans ok
  | any => exact Means.one lexNoSlash noSlashLang
  | star =>
    refine ⟨[.atom noSlash,.star],[.star noSlash],fun s => ?_,fun _ _ _ => rfl,?_⟩
    · show Regex.lex .outside ('[' :: '^' :: '/' :: ']' :: '*' :: '?' :: s) = _
      rw [lexNoSlash,Regex.lexLazy,Option.map_map]
      rfl
    · rw [List.map_singleton,List.prod_singleton]
      ext s
      show s ∈ noSlash.lang∗ ↔ '/' ∉ s
      rw [noSlashLang,Regex.oneStar]
      constructor
      · exact fun all slash => absurd (all _ slash) (by decide)
      · exact fun none c mem => by
          have other : c ≠ '/' := fun same => none (same ▸ mem)
          simpa using other
  | cls neg lead rest => exact classMeans ok read

theorem itemsMean {d : Int} {is : List Item} (ok : ∀ i ∈ is,i.Ok) (read : ItemsRead d is) :
    Means (textOut wide d (itemsText is)) (itemsLang is) := by
  induction is generalizing d with
  | nil => exact Means.nil
  | cons i is ih =>
    have shape : itemsText (i :: is) = i.text ++ itemsText is := rfl
    have langs : itemsLang (i :: is) = i.lang * itemsLang is := by
      unfold itemsLang
      rw [List.map_cons,List.prod_cons]
    rw [shape,textOutAppend,langs]
    exact (itemMeans (ok i List.mem_cons_self) read.1).append (ih (fun x mem => ok x (List.mem_cons_of_mem _ mem)) read.2)

end

end PublicInbox.Config
