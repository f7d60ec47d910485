import PublicInbox.Eml.Fields

/-! Eml.pm: what header_raw returns of the values that header_set has put in a header. -/
namespace PublicInbox.Mime.Eml
open Lines
open SearchDates (isSpace)

def tidy : Text → Bool
  | [] => true
  | c :: t => (!isSpace c || c == ' ' && t.head?.any (!isSpace ·)) && tidy t

inductive Refolds : Text → Text → Prop where
  | nil : Refolds [] []
  | keep {c : Char} {t u : Text} (plain : c ≠ '\n' ∧ c ≠ '\r') (rest : Refolds t u) : Refolds (c :: t) (c :: u)
  | fold {t u : Text} (word : t.head?.any blank = false) (rest : Refolds t u) : Refolds ('\n' :: '\t' :: t) (' ' :: u)

structure Wraps (wrap : Nat → Text → Text) : Prop where
  tabs : Tabs wrap
  tidied : ∀ n v,tidy v = true → Refolds (wrap n v) v

def readBack (v : Text) : Text := unfold false ((v.rdropWhile isSpace).dropWhile isSpace)

def wrapped (k v : Text) : Bool := 78 - (k ++ [':',' ']).length ≤ v.length && wraps v

def octets (c : Char) : Text := (String.utf8EncodeChar c).map fun b => Char.ofNat b.toNat

theorem encodeCons (c : Char) (t : Text) : encode (c :: t) = octets c ++ encode t := List.flatMap_cons

theorem encodeAppend (t u : Text) : encode (t ++ u) = encode t ++ encode u := List.flatMap_append

theorem octetValue (n : Nat) : (Char.ofNat (UInt8.ofNat n).toNat).toNat = n % 256 := by
  have small : (UInt8.ofNat n).toNat.isValidChar := .inl (by have := (UInt8.ofNat n).toNat_lt; omega)
  rw [Char.ofNat,dif_pos small]
  exact UInt8.toNat_ofNat'

theorem octetsNarrow {c : Char} (narrow : c.toNat < 128) : octets c = [c] := by
  have low : c.val.toNat ≤ 127 := Nat.le_of_lt_succ narrow
  have same : Char.ofNat (UInt8.ofNat c.val.toNat).toNat = c := by
    refine Char.toNat_inj.mp ((octetValue _).trans (Nat.mod_eq_of_lt ?_))
    exact Nat.lt_of_le_of_lt low (by decide)
  rw [octets,String.utf8EncodeChar,if_pos low,List.map_singleton,same]

theorem octetsWide {c : Char} (wide : 128 ≤ c.toNat) : ∀ d ∈ octets c,128 ≤ d.toNat := by
  intro d mem
  obtain ⟨b,byte,rfl⟩ := List.mem_map.mp mem
  have small : b.toNat.isValidChar := .inl (by have := b.toNat_lt; omega)
  rw [Char.ofNat,dif_pos small]
  exact encodeHigh wide b byte

theorem octetsSome (c : Char) : octets c ≠ [] := by
  unfold octets String.utf8EncodeChar
  extract_lets v
  split
  · exact List.cons_ne_nil _ _
  · split
    · exact List.cons_ne_nil _ _
    · split <;> exact List.cons_ne_nil _ _

theorem charactersOctets (c : Char) (t : Text) : characters 0 0 (octets c ++ t) = c :: characters 0 0 t := by
  have last : c.val.toNat < 1114112 := by
    rcases c.valid with low | high
    · exact Nat.lt_of_lt_of_le low (by decide)
    · exact high.2
  have value : Char.ofNat c.val.toNat = c := Char.ofNat_toNat c
  unfold octets String.utf8EncodeChar
  extract_lets v
  have same : v = c.val.toNat := rfl
  rw [← same] at last value
  split
  · rename_i low
    have narrow : v % 256 = v := Nat.mod_eq_of_lt (by omega)
    have own : Char.ofNat (UInt8.ofNat v).toNat = c := by
      refine Char.toNat_inj.mp ((octetValue v).trans ?_)
      exact narrow
    simp only [List.map_cons,List.map_nil,List.cons_append,List.nil_append,characters,octetValue,narrow]
    rw [if_pos (by omega),own]
  · split
    · have first : (v / 64 % 32 + 192) % 256 = v / 64 + 192 := by omega
      have second : (v % 64 + 128) % 256 = v % 64 + 128 := by omega
      have bits : (v / 64 + 192) % 32 * 64 + (v % 64 + 128) % 64 = v := by omega
      simp only [List.map_cons,List.map_nil,List.cons_append,List.nil_append,characters,octetValue,first,second,bits,value]
      rw [if_neg (by omega),if_pos (by omega),if_pos trivial]
    · split
      · have first : (v / 4096 % 16 + 224) % 256 = v / 4096 + 224 := by omega
        have second : (v / 64 % 64 + 128) % 256 = v / 64 % 64 + 128 := by omega
        have third : (v % 64 + 128) % 256 = v % 64 + 128 := by omega
        have bits : ((v / 4096 + 224) % 16 * 64 + (v / 64 % 64 + 128) % 64) * 64 + (v % 64 + 128) % 64 = v := by omega
        simp only [List.map_cons,List.map_nil,List.cons_append,List.nil_append,characters,octetValue,first,second,third,bits,value]
        rw [if_neg (by omega),if_neg (by omega),if_pos (by omega),if_neg (by omega),if_pos trivial]
      · have first : (v / 262144 % 8 + 240) % 256 = v / 262144 + 240 := by omega
        have second : (v / 4096 % 64 + 128) % 256 = v / 4096 % 64 + 128 := by omega
        have third : (v / 64 % 64 + 128) % 256 = v / 64 % 64 + 128 := by omega
        have fourth : (v % 64 + 128) % 256 = v % 64 + 128 := by omega
        have bits : (((v / 262144 + 240) % 8 * 64 + (v / 4096 % 64 + 128) % 64) * 64 + (v / 64 % 64 + 128) % 64) * 64 +
            (v % 64 + 128) % 64 = v := by omega
        simp only [List.map_cons,List.map_nil,List.cons_append,List.nil_append,characters,octetValue,first,second,third,fourth,bits,value]
        rw [if_neg (by omega),if_neg (by omega),if_neg (by omega),if_neg (by omega),if_neg (by omega),if_pos trivial]

theorem charactersEncode (t : Text) : characters 0 0 (encode t) = t := by
  induction t with
  | nil => rfl
  | cons c t ih => rw [encodeCons,charactersOctets,ih]

theorem decodeEncode (t : Text) : utf8Decode (encode t) = t := by
  rw [utf8Decode,charactersEncode,if_pos rfl]

theorem octetsHead (c : Char) : octets c = [c] ∨ 128 ≤ c.toNat ∧ ∃ d ds,octets c = d :: ds ∧ 128 ≤ d.toNat := by
  by_cases narrow : c.toNat < 128
  · exact .inl (octetsNarrow narrow)
  · have wide := Nat.not_lt.mp narrow
    cases is : octets c with
    | nil => exact absurd is (octetsSome c)
    | cons d ds => exact .inr ⟨wide,d,ds,rfl,octetsWide wide d (is ▸ List.mem_cons_self)⟩

theorem wideBlank {c : Char} (wide : 128 ≤ c.toNat) : blank c = false := by
  rw [← Bool.not_eq_true]
  intro is
  rcases Bool.or_eq_true_iff.mp is with space | tab
  · exact absurd (eq_of_beq space ▸ wide) (by decide)
  · exact absurd (eq_of_beq tab ▸ wide) (by decide)

theorem wideOther {c d : Char} (narrow : d.toNat < 128) (wide : 128 ≤ c.toNat) : c ≠ d := by
  rintro rfl
  omega

theorem encodeHead (t : Text) : (encode t).head?.any blank = t.head?.any blank := by
  cases t with
  | nil => rfl
  | cons c t =>
    rw [encodeCons]
    rcases octetsHead c with same | ⟨wide,d,ds,is,first⟩
    · rw [same]
      rfl
    · rw [is,List.cons_append,List.head?_cons,Option.any_some,wideBlank first,List.head?_cons,Option.any_some,wideBlank wide]

theorem encodeBlanks (t : Text) : (encode t).dropWhile blank = encode (t.dropWhile blank) := by
  induction t with
  | nil => rfl
  | cons c t ih =>
    rw [encodeCons,List.dropWhile_cons]
    rcases octetsHead c with same | ⟨wide,d,ds,is,first⟩
    · rw [same,List.singleton_append,List.dropWhile_cons]
      split
      · exact ih
      · rw [encodeCons,same,List.singleton_append]
    · rw [is,List.cons_append,List.dropWhile_cons_of_neg (by rw [wideBlank first]; exact Bool.false_ne_true),
        if_neg (by rw [wideBlank wide]; exact Bool.false_ne_true),encodeCons,is,List.cons_append]

theorem encodeEol {e : Text} (eol : e = ['\n'] ∨ e = ['\r','\n']) : encode e = e := by
  rcases eol with rfl | rfl
  · rw [encodeCons,octetsNarrow (by decide)]
    rfl
  · rw [encodeCons,octetsNarrow (by decide),encodeCons,octetsNarrow (by decide)]
    rfl

theorem blankSpace {c : Char} (is : blank c = true) : isSpace c = true := by
  rcases Bool.or_eq_true_iff.mp is with space | tab
  · rw [eq_of_beq space]
    decide
  · rw [eq_of_beq tab]
    decide

theorem rdropCons (p : Char → Bool) (c : Char) (t : Text) :
    (c :: t).rdropWhile p = if t.rdropWhile p = [] ∧ p c = true then [] else c :: t.rdropWhile p := by
  induction t using List.reverseRecOn with
  | nil =>
    have one := List.rdropWhile_concat p [] c
    rw [List.nil_append] at one
    rw [one,List.rdropWhile_nil]
    simp
  | append_singleton t d ih =>
    rw [← List.cons_append,List.rdropWhile_concat,List.rdropWhile_concat]
    by_cases last : p d = true
    · rw [if_pos last,if_pos last,ih]
    · rw [if_neg last,if_neg last,if_neg (fun none => List.append_ne_nil_of_right_ne_nil _ (List.cons_ne_nil _ _) none.1)]
      rfl

theorem trimBlanks (t : Text) : ((t.dropWhile blank).rdropWhile isSpace).dropWhile isSpace = (t.rdropWhile isSpace).dropWhile isSpace := by
  induction t with
  | nil => rfl
  | cons c t ih =>
    rw [List.dropWhile_cons]
    split
    · rename_i is
      rw [ih,rdropCons]
      split
      · rename_i none
        rw [none.1]
      · rw [List.dropWhile_cons_of_pos (blankSpace is)]
    · rfl

theorem trimEol {e : Text} (eol : e = ['\n'] ∨ e = ['\r','\n']) (t : Text) : (t ++ e).rdropWhile isSpace = t.rdropWhile isSpace := by
  rcases eol with rfl | rfl
  · rw [List.rdropWhile_concat,if_pos (by decide)]
  · have two : t ++ ['\r','\n'] = t ++ ['\r'] ++ ['\n'] := by simp
    rw [two,List.rdropWhile_concat,if_pos (by decide),List.rdropWhile_concat,if_pos (by decide)]

theorem rawValueText {e : Text} (eol : e = ['\n'] ∨ e = ['\r','\n']) (k w : Text) :
    rawValue utf8Decode isSpace k (k ++ [':',' '] ++ encode w ++ e) = readBack w := by
  have behind : (k ++ [':',' '] ++ encode w ++ e).drop (k.length + 1) = encode ([' '] ++ (w ++ e)) := by
    have text : k ++ [':',' '] ++ encode w ++ e = (k ++ [':']) ++ (' ' :: (encode w ++ e)) := by simp
    have size : (k ++ [':']).length = k.length + 1 := by rw [List.length_append]; rfl
    rw [text,← size,List.drop_left,encodeAppend,encodeAppend,encodeEol eol,encodeCons,octetsNarrow (by decide)]
    rfl
  rw [rawValue,behind,encodeBlanks,decodeEncode,trimBlanks,readBack]
  have front : (([' '] ++ (w ++ e)).rdropWhile isSpace).dropWhile isSpace = ((w ++ e).rdropWhile isSpace).dropWhile isSpace := by
    rw [← trimBlanks,← trimBlanks (w ++ e)]
    rfl
  rw [front,trimEol eol]

theorem unfoldWord {t : Text} (word : t.head?.any blank = false) : unfold true t = unfold false t := by
  cases t with
  | nil => rfl
  | cons c t =>
    have other : blank c = false := word
    rw [unfold,unfold,other]
    rfl

namespace Refolds

theorem unfolded {t u : Text} (is : Refolds t u) : unfold false t = u := by
  induction is with
  | nil => rfl
  | keep plain rest ih =>
    rw [unfold,ih]
    simp [plain]
  | fold word rest ih =>
    have step (t : Text) : unfold false ('\n' :: '\t' :: t) = ' ' :: unfold true t := rfl
    rw [step,unfoldWord word,ih]

theorem dropped {t u : Text} (is : Refolds t u) : Refolds (t.dropWhile isSpace) (u.dropWhile isSpace) := by
  induction is with
  | nil => exact nil
  | keep plain rest ih =>
    rw [List.dropWhile_cons,List.dropWhile_cons]
    split
    · exact ih
    · exact keep plain rest
  | fold word rest ih =>
    rw [List.dropWhile_cons_of_pos (by decide),List.dropWhile_cons_of_pos (by decide),List.dropWhile_cons_of_pos (by decide)]
    exact ih

theorem ended {t u : Text} (is : Refolds t u) : (t = [] ↔ u = []) := by
  cases is <;> simp

theorem rdropped {t u : Text} (is : Refolds t u) : Refolds (t.rdropWhile isSpace) (u.rdropWhile isSpace) := by
  induction is with
  | nil => exact nil
  | keep plain rest ih =>
    rename_i c t u
    rw [rdropCons,rdropCons]
    by_cases gone : t.rdropWhile isSpace = [] ∧ isSpace c = true
    · rw [if_pos gone,if_pos ⟨ih.ended.mp gone.1,gone.2⟩]
      exact nil
    · rw [if_neg gone,if_neg fun both => gone ⟨ih.ended.mpr both.1,both.2⟩]
      exact keep plain ih
  | fold word rest ih =>
    rename_i t u
    rw [rdropCons,rdropCons,rdropCons]
    by_cases none : t.rdropWhile isSpace = []
    · rw [if_pos ⟨if_pos ⟨none,by decide⟩,by decide⟩,if_pos ⟨ih.ended.mp none,by decide⟩]
      exact nil
    · have some : ¬ (t.rdropWhile isSpace = [] ∧ isSpace '\t' = true) := fun both => none both.1
      rw [if_neg some,if_neg (fun both => nomatch both.1),if_neg (fun both => none (ih.ended.mpr both.1))]
      refine fold ?_ ih
      cases t with
      | nil => exact absurd rfl none
      | cons c t =>
        rw [rdropCons] at none ⊢
        split at none
        · exact absurd rfl none
        · rename_i other
          rw [if_neg other]
          exact word

theorem same {t u : Text} (is : Refolds t u) : Refolds u u := by
  induction is with
  | nil => exact nil
  | keep plain rest ih => exact keep plain ih
  | fold word rest ih => exact keep ⟨by decide,by decide⟩ ih

theorem read {t u : Text} (is : Refolds t u) : readBack t = readBack u := by
  rw [readBack,readBack,is.rdropped.dropped.unfolded,is.same.rdropped.dropped.unfolded]

theorem wide {ds u x : Text} (each : ∀ d ∈ ds,128 ≤ d.toNat) (is : Refolds x (ds ++ u)) : ∃ y,x = ds ++ y ∧ Refolds y u := by
  induction ds generalizing x with
  | nil => exact ⟨x,rfl,is⟩
  | cons d ds ih =>
    obtain ⟨first,rest⟩ := List.forall_mem_cons.mp each
    rw [List.cons_append] at is
    cases is with
    | keep plain tail =>
      obtain ⟨y,rfl,more⟩ := ih rest tail
      exact ⟨y,rfl,more⟩
    | fold word tail => exact absurd first (by decide)

theorem decoded {v x : Text} (is : Refolds x (encode v)) : ∃ w,x = encode w ∧ Refolds w v := by
  induction v generalizing x with
  | nil =>
    cases is
    exact ⟨[],rfl,nil⟩
  | cons c v ih =>
    rw [encodeCons] at is
    rcases octetsHead c with one | ⟨high,_⟩
    · rw [one,List.singleton_append] at is
      cases is with
      | keep plain rest =>
        obtain ⟨w,rfl,more⟩ := ih rest
        exact ⟨c :: w,by rw [encodeCons,one]; rfl,keep plain more⟩
      | fold word rest =>
        obtain ⟨w,rfl,more⟩ := ih rest
        refine ⟨'\n' :: '\t' :: w,?_,fold (encodeHead w ▸ word) more⟩
        rw [encodeCons,encodeCons,octetsNarrow (by decide),octetsNarrow (by decide)]
        rfl
    · obtain ⟨y,rfl,rest⟩ := wide (octetsWide high) is
      obtain ⟨w,rfl,more⟩ := ih rest
      exact ⟨c :: w,by rw [encodeCons],keep ⟨wideOther (by decide) high,wideOther (by decide) high⟩ more⟩

end Refolds

theorem foldedPlain {x : Text} (inside : '\n' ∉ x) : folded x = true := by
  induction x with
  | nil => rfl
  | cons c x ih =>
    obtain ⟨first,rest⟩ := List.ne_and_not_mem_of_not_mem_cons inside
    rw [folded,ih rest,bne_iff_ne.mpr (Ne.symm first)]
    rfl

theorem foldedAppend {x y : Text} (front : folded x = true) (back : folded y = true) : folded (x ++ y) = true := by
  induction x with
  | nil => exact back
  | cons c x ih =>
    obtain ⟨next,rest⟩ := Bool.and_eq_true_iff.mp front
    rw [List.cons_append,folded,ih rest,Bool.and_true]
    rcases Bool.or_eq_true_iff.mp next with other | goes
    · rw [other,Bool.true_or]
    · cases x with
      | nil => cases goes
      | cons d x => exact Bool.or_eq_true_iff.mpr (.inr goes)

theorem foldedEncode {v : Text} (is : folded v = true) : folded (encode v) = true := by
  induction v with
  | nil => rfl
  | cons c v ih =>
    obtain ⟨next,rest⟩ := Bool.and_eq_true_iff.mp is
    rw [encodeCons]
    by_cases newline : c = '\n'
    · rw [newline] at next
      rw [newline,octetsNarrow (by decide),List.singleton_append,folded,ih rest,encodeHead,next]
      rfl
    · refine foldedAppend (foldedPlain ?_) (ih rest)
      rcases octetsHead c with one | ⟨wide,_⟩
      · rw [one]
        exact List.not_mem_cons_of_ne_of_not_mem (Ne.symm newline) List.not_mem_nil
      · exact fun mem => wideOther (by decide) (octetsWide wide _ mem) rfl

theorem foldedTabs {wrap : Nat → Text → Text} (tabs : Tabs wrap) {n : Nat} {x : Text} (inside : '\n' ∉ x) : folded (wrap n x) = true := by
  obtain ⟨first,rest,is,own,each⟩ := tabs n x inside
  rw [is]
  refine foldedAppend (foldedPlain own) ?_
  clear is own
  induction rest with
  | nil => rfl
  | cons l rest ih =>
    obtain ⟨here,others⟩ := List.forall_mem_cons.mp each
    rw [List.map_cons,List.flatten_cons]
    refine foldedAppend ?_ (ih others)
    rw [folded,folded,foldedPlain here]
    rfl

theorem foldedSuffix {u v : Text} (suffix : u <:+ v) (is : folded v = true) : folded u = true := by
  induction v with
  | nil => rw [List.suffix_nil.mp suffix]; rfl
  | cons c v ih =>
    rcases List.suffix_cons_iff.mp suffix with rfl | inside
    · exact is
    · exact ih inside (Bool.and_eq_true_iff.mp is).2

theorem wrapsLine {v : Text} (is : folded v = true) (wraps' : wraps v = true) : '\n' ∉ v := by
  rcases Bool.or_eq_true_iff.mp wraps' with bad | none
  · obtain ⟨u,mem,next⟩ := List.any_eq_true.mp bad
    obtain ⟨first,second⟩ := Bool.and_eq_true_iff.mp next
    have folds := foldedSuffix ((List.mem_tails _ _).mp mem) is
    obtain ⟨t,rfl⟩ := List.head?_eq_some_iff.mp (eq_of_beq first)
    obtain ⟨goes,_⟩ := Bool.and_eq_true_iff.mp folds
    cases t with
    | nil => cases second
    | cons d t =>
      have other : blank d = false := by simpa using second
      have same : blank d = true := goes
      rw [other] at same
      cases same
  · intro mem
    rw [List.contains_iff_mem.mpr mem] at none
    cases none

section
variable {wrap : Nat → Text → Text} (wraps' : Wraps wrap) {k : Text} (name : FieldName k) {crlf : Text}
  (eol : crlf = ['\n'] ∨ crlf = ['\r','\n'])
include wraps' name eol

theorem madeField {v : Text} (is : folded v = true) : ∃ f : Field,own k f = true ∧ f.text = rendered wrap (k ++ [':',' ']) crlf v := by
  have made {x : Text} (folds : folded x = true) : ∃ f : Field,own k f = true ∧ f.text = k ++ [':',' '] ++ x ++ crlf := by
    have front : folded (' ' :: x) = true := by rw [folded,folds]; rfl
    have back : folded crlf.dropLast = true := by rcases eol with rfl | rfl <;> rfl
    have newline : crlf.dropLast ++ ['\n'] = crlf := by rcases eol with rfl | rfl <;> rfl
    refine ⟨⟨k,' ' :: x ++ crlf.dropLast,name,foldedAppend front back⟩,beq_self_eq_true _,?_⟩
    conv_rhs => rw [← newline]
    simp [Field.text]
  unfold rendered
  extract_lets len
  split
  · rename_i long
    exact made (foldedTabs wraps'.tabs (encodeLine (wrapsLine is (Bool.and_eq_true_iff.mp long).2)))
  · exact made (foldedEncode is)

theorem madeFields {vals : List Text} (each : ∀ v ∈ vals,folded v = true) : ∃ new : List Field,(∀ f ∈ new,own k f = true) ∧
    new.map Field.text = vals.map (rendered wrap (k ++ [':',' ']) crlf) := by
  induction vals with
  | nil => exact ⟨[],fun _ mem => absurd mem List.not_mem_nil,rfl⟩
  | cons v vals ih =>
    obtain ⟨first,rest⟩ := List.forall_mem_cons.mp each
    obtain ⟨f,is,text⟩ := madeField wraps' name eol first
    obtain ⟨new,all,texts⟩ := ih rest
    exact ⟨f :: new,List.forall_mem_cons.mpr ⟨is,all⟩,by rw [List.map_cons,List.map_cons,text,texts]⟩

omit name in
theorem renderedRead {v : Text} (tidied : wrapped k v = true → tidy (encode v) = true) :
    rawValue utf8Decode isSpace k (rendered wrap (k ++ [':',' ']) crlf v) = readBack v := by
  unfold rendered
  extract_lets len
  split
  · rename_i long
    obtain ⟨w,is,refolds⟩ := (wraps'.tidied len (encode v) (tidied (by simpa [wrapped,len] using long))).decoded
    rw [is,rawValueText eol,refolds.read]
  · exact rawValueText eol k v

end

theorem unfoldLines {t : Text} (inside : '\n' ∉ t) : unfold false t = t := by
  induction t with
  | nil => rfl
  | cons c t ih =>
    obtain ⟨first,rest⟩ := List.ne_and_not_mem_of_not_mem_cons inside
    have next : t.head? ≠ some '\n' := fun is => rest (List.mem_of_head? is)
    rw [unfold,ih rest]
    simp [Ne.symm first,next]

theorem readLine {v : Text} (inside : '\n' ∉ v) (first : v.head?.any isSpace = false) (last : v.getLast?.any isSpace = false) :
    readBack v = v := by
  have back : v.rdropWhile isSpace = v := by
    refine List.rdropWhile_eq_self_iff.mpr fun some is => ?_
    rw [List.getLast?_eq_some_getLast some,Option.any_some,is] at last
    cases last
  have front : v.dropWhile isSpace = v := by
    cases v with
    | nil => rfl
    | cons c v => exact List.dropWhile_cons_of_neg (by rw [show isSpace c = false from first]; exact Bool.false_ne_true)
  rw [readBack,back,front,unfoldLines inside]

/- header_set changes the fields of its own name alone, and header_raw returns what it was given. -/
theorem headerSetFrame {wrap : Nat → Text → Text} (wraps' : Wraps wrap) {k : Text} (name : FieldName k) (fs : List Field) {crlf : Text}
    (eol : crlf = ['\n'] ∨ crlf = ['\r','\n']) (bdy : Option Text) {vals : List Text} (each : ∀ v ∈ vals,folded v = true) :
    let set := headerSet wrap k vals ⟨block fs,crlf,bdy⟩
    (∃ fs',set = ⟨block fs',crlf,bdy⟩) ∧ others k (headers set.hdr) = others k (headers (block fs)) ∧
      ((∀ v ∈ vals,wrapped k v = true → tidy (encode v) = true) → headerRaw utf8Decode isSpace k set = vals.map readBack) ∧
      ∀ v ∈ vals,'\n' ∉ v → v.head?.any isSpace = false → v.getLast?.any isSpace = false → readBack v = v := by
  obtain ⟨new,owned,made⟩ := madeFields wraps' name eol each
  intro set
  have is : set = ⟨block (setFields k fs new),crlf,bdy⟩ := headerSetBlock name made
  refine ⟨⟨_,is⟩,?_,fun tidied => ?_,fun v _ => readLine⟩
  · rw [is,othersBlock,othersBlock,setFieldsOthers owned]
  · rw [is,headerRawBlock name,setFieldsOwn owned,made,List.map_map]
    exact List.map_congr_left fun v mem => renderedRead wraps' eol (tidied v mem)

theorem tidySelf {v : Text} (is : tidy v = true) : Refolds v v := by
  induction v with
  | nil => exact .nil
  | cons c v ih =>
    obtain ⟨here,rest⟩ := Bool.and_eq_true_iff.mp is
    refine .keep ⟨?_,?_⟩ (ih rest) <;>
    · rintro rfl
      exact absurd here (by simp [isSpace])

theorem wrapsNothing : Wraps fun _ v => v :=
  ⟨fun _ v inside => ⟨v,[],(List.append_nil v).symm,inside,fun _ mem => absurd mem List.not_mem_nil⟩,fun _ _ => tidySelf⟩

def toField : Field := ⟨"To".toList," a".toList,by decide,by decide⟩

def subjectField : Field := ⟨"Subject".toList," b\n\tc".toList,by decide,by decide⟩

theorem setSubject : let set := headerSet (fun _ v => v) "subject".toList ["d".toList] ⟨block [subjectField,toField],['\n'],none⟩
    others "subject".toList (headers set.hdr) = others "subject".toList (headers (block [subjectField,toField])) ∧
      headerRaw utf8Decode isSpace "subject".toList set = ["d".toList] := by
  obtain ⟨_,kept,read,back⟩ := @headerSetFrame (fun _ v => v) wrapsNothing "subject".toList (by decide) [subjectField,toField] ['\n']
    (.inl rfl) none ["d".toList] (by decide)
  refine ⟨kept,(read (by decide)).trans ?_⟩
  rw [List.map_singleton,back "d".toList List.mem_cons_self (by decide) (by decide) (by decide)]

theorem foldUndone : headerRaw utf8Decode isSpace ['X'] (headerSet (fun _ v => v) ['X'] ["a\n\tb".toList] ⟨[],['\n'],none⟩) ≠ ["a\n\tb".toList] := by
  decide +kernel

end PublicInbox.Mime.Eml
