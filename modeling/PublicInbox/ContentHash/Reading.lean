import PublicInbox.ContentHash.Content

/-! Reading a digest input back. NUL cuts it into words; a value is several words only where
it holds NULs itself, and nothing ends a part body but the next part or the end of input.
Contents whose values hold no separator have one reading. -/
namespace PublicInbox.ContentHash
open Tagged

theorem encodeInjective : Function.Injective encode := by
  intro s t same
  have raw : ∀ x : String, x.toByteArray = (encode x).toByteArray := by
    intro x
    conv_lhs => rw [← String.ofList_toList (s := x)]
    rw [String.toByteArray_ofList]
    rfl
  exact String.toByteArray_inj.mp (by rw [raw,raw,same])

theorem zeroMemChar {c : Char} : 0 ∈ String.utf8EncodeChar c ↔ c = '\x00' := by
  have high : ∀ k m n : Nat, 0 < m → k % m + n < 256 → 0 < n → (0 : UInt8) ≠ UInt8.ofNat (k % m + n) := by
    intro k m n _ small positive same
    have value := congrArg UInt8.toNat same
    simp only [UInt8.toNat_ofNat',UInt8.toNat_zero] at value
    rw [Nat.mod_eq_of_lt small] at value
    omega
  refine ⟨fun mem => ?_,fun same => by subst same; decide⟩
  unfold String.utf8EncodeChar at mem
  simp only at mem
  split at mem
  · have value := congrArg UInt8.toNat (List.mem_singleton.mp mem)
    simp only [UInt8.toNat_ofNat',UInt8.toNat_zero] at value
    have zero : c.val.toNat = 0 := by omega
    exact Char.ext (UInt32.toNat_inj.mp zero)
  · split at mem
    · simp only [List.mem_cons,List.not_mem_nil,or_false] at mem
      rcases mem with h | h
      · exact absurd h (high _ _ _ (by omega) (by omega) (by omega))
      · exact absurd h (high _ _ _ (by omega) (by omega) (by omega))
    · split at mem
      · simp only [List.mem_cons,List.not_mem_nil,or_false] at mem
        rcases mem with h | h | h
        · exact absurd h (high _ _ _ (by omega) (by omega) (by omega))
        · exact absurd h (high _ _ _ (by omega) (by omega) (by omega))
        · exact absurd h (high _ _ _ (by omega) (by omega) (by omega))
      · simp only [List.mem_cons,List.not_mem_nil,or_false] at mem
        rcases mem with h | h | h | h
        · exact absurd h (high _ _ _ (by omega) (by omega) (by omega))
        · exact absurd h (high _ _ _ (by omega) (by omega) (by omega))
        · exact absurd h (high _ _ _ (by omega) (by omega) (by omega))
        · exact absurd h (high _ _ _ (by omega) (by omega) (by omega))

theorem zeroMemEncode {s : String} : 0 ∈ encode s ↔ '\x00' ∈ s.toList := by
  simp [encode,zeroMemChar]

def words (s : Bytes) : List Bytes := s.splitOn 0

theorem wordsInjective : Function.Injective words := by
  intro s t same
  have both := congrArg ([(0 : UInt8)].intercalate ·) same
  simpa [words] using both

@[simp] theorem wordsSome (s : Bytes) : words s ≠ [] := List.splitOn_ne_nil 0 s

theorem wordsCut (s t : Bytes) : words (s ++ 0 :: t) = words s ++ words t :=
  List.splitOn_append_cons_self s t

theorem wordsSingle {s : Bytes} (pure : 0 ∉ s) : words s = [s] := List.splitOn_eq_singleton pure

def labelText (p : Place) : List Char :=
  Nat.toDigits 10 p.depth ++ ':' :: ['.'].intercalate (p.idx.map (Nat.toDigits 10))

theorem labelEncodes (p : Place) : label p = encode (String.ofList (labelText p)) := by
  have text : (p.depth.repr ++ ":" ++ dotted p.idx).toList = labelText p := by
    simp [labelText,dotted,String.toList_intercalate,Nat.toList_repr,Function.comp_def]
  rw [← text,String.ofList_toList]
  rfl

theorem digitsPure {c : Char} (other : c.isDigit = false) (n : Nat) : c ∉ Nat.toDigits 10 n := by
  intro mem
  rw [Nat.isDigit_of_mem_toDigits (by omega) (by omega) mem] at other
  cases other

theorem digitsInjective : Function.Injective (Nat.toDigits 10) := by
  intro m n same
  rw [← Nat.ofDigitChars_ten_toDigits (n := m),same,Nat.ofDigitChars_ten_toDigits]

theorem memIntercalate {α : Type} {sep c : α} {ls : List (List α)}
    (mem : c ∈ [sep].intercalate ls) : c = sep ∨ ∃ l ∈ ls, c ∈ l := by
  induction ls with
  | nil => simp at mem
  | cons l ls ih => cases ls with
    | nil => exact Or.inr ⟨l,List.mem_cons_self,by simpa using mem⟩
    | cons k ls =>
      rw [List.intercalate_cons_cons] at mem
      rcases List.mem_append.mp mem with front | back
      · rcases List.mem_append.mp front with here | dot
        · exact Or.inr ⟨l,List.mem_cons_self,here⟩
        · exact Or.inl (List.mem_singleton.mp dot)
      · rcases ih back with dot | ⟨m,inside,here⟩
        · exact Or.inl dot
        · exact Or.inr ⟨m,List.mem_cons_of_mem _ inside,here⟩

theorem labelPure (p : Place) : 0 ∉ label p := by
  rw [labelEncodes,zeroMemEncode,String.toList_ofList]
  intro mem
  rcases List.mem_append.mp mem with depth | rest
  · exact digitsPure (by decide) _ depth
  · rcases List.mem_cons.mp rest with colon | dotted
    · exact absurd colon (by decide)
    · rcases memIntercalate dotted with dot | ⟨l,mem,here⟩
      · exact absurd dot (by decide)
      · obtain ⟨n,_,rfl⟩ := List.mem_map.mp mem
        exact digitsPure (by decide) n here

theorem labelInjective {p q : Place} (hp : p.idx ≠ []) (hq : q.idx ≠ [])
    (same : label p = label q) : p = q := by
  rw [labelEncodes,labelEncodes] at same
  have text : labelText p = labelText q := String.ofList_injective (encodeInjective same)
  have cut := congrArg (List.splitOn ':') text
  simp only [labelText] at cut
  rw [List.splitOn_append_cons_self_of_not_mem (digitsPure (by decide) _),
    List.splitOn_append_cons_self_of_not_mem (digitsPure (by decide) _)] at cut
  obtain ⟨depth,rest⟩ := List.cons.inj cut
  have dots := congrArg ([':'].intercalate ·) rest
  simp only [List.intercalate_splitOn] at dots
  have split := congrArg (List.splitOn '.') dots
  have pure : ∀ idx : List Nat, ∀ l ∈ idx.map (Nat.toDigits 10), '.' ∉ l := by
    intro idx l mem
    obtain ⟨n,_,rfl⟩ := List.mem_map.mp mem
    exact digitsPure (by decide) n
  rw [List.splitOn_intercalate _ (pure _) (by simpa using hp),
    List.splitOn_intercalate _ (pure _) (by simpa using hq)] at split
  have idx := List.map_injective_iff.mpr digitsInjective split
  cases p
  cases q
  simp only at depth idx
  rw [digitsInjective depth,idx]

theorem colonMemLabel (p : Place) : ':' ∈ labelText p := by
  simp [labelText]

def headersAfter : Option String → List String
  | none | some "ref" => ["ref","From","Sender","Subject","Date","To","Cc"]
  | some "From" => ["From","Subject","Date","To","Cc"]
  | some "Sender" => ["Sender","Subject","Date","To","Cc"]
  | some "Subject" => ["Subject","Date","To","Cc"]
  | some "Date" => ["Date","To","Cc"]
  | some "To" => ["To","Cc"]
  | some "Cc" => ["Cc"]
  | some _ => []

def partTagsAfter : Option String → List String
  | none => ["fn","d","b"]
  | some "fn" | some "d" => ["d","b"]
  | some _ => []

def Opens (X : List Bytes) : Prop :=
  ∃ (p : Place) (tag : String) (Y : List Bytes), p.Legal ∧ tag ∈ partTagsAfter none ∧
    X = label p :: encode tag :: Y

def headerGrammar : Grammar String Bytes where
  word := encode
  next t w := w ∈ headersAfter t
  close _ X := X = [[]] ∨ ∃ Y, X = [] :: Y ∧ Opens Y

def partGrammar : Grammar String Bytes where
  word := encode
  next t w := w ∈ partTagsAfter t
  close t X := t = some "b" ∧ (X = [] ∨ Opens X)

/- No separator inside: the words of the value behind its first NUL hold no tag that may
follow, nor the opening of a part. -/
def HeaderClosed (tag value : String) : Prop :=
  (∀ t ∈ headersAfter (some tag), encode t ∉ (words (encode value)).tail) ∧
    ∀ X Y, (words (encode value)).tail = X ++ [] :: Y → ¬ Opens Y

def TextClosed (value : String) : Prop :=
  ∀ t ∈ partTagsAfter (some "d"), encode t ∉ (words (encode value)).tail

def BodyClosed (body : Bytes) : Prop :=
  ∀ X Y, (words body).tail = X ++ Y → ¬ Opens Y

def PartContent.Closed (p : PartContent) : Prop :=
  (∀ fn ∈ p.filename, TextClosed fn) ∧ (∀ d ∈ p.descriptions, TextClosed d) ∧
    BodyClosed p.content

def Content.Closed (c : Content) : Prop :=
  (∀ h ∈ c.headers, h.1 ≠ "ref" → HeaderClosed h.1 h.2) ∧ ∀ p ∈ c.parts, p.Closed

theorem labelNotTag {p : Place} {tag : String} (plain : ':' ∉ tag.toList) : label p ≠ encode tag := by
  intro same
  rw [labelEncodes] at same
  have text := congrArg String.toList (encodeInjective same)
  rw [String.toList_ofList] at text
  exact plain (text ▸ colonMemLabel p)

theorem headerTags {t : Option String} {w : String} (mem : w ∈ headersAfter t) :
    w ∈ ["ref","From","Sender","Subject","Date","To","Cc"] := by
  unfold headersAfter at mem
  split at mem
  all_goals simp only [List.mem_cons,List.not_mem_nil,or_false] at mem ⊢
  all_goals tauto

theorem headerTagPlain {w : String} (mem : w ∈ ["ref","From","Sender","Subject","Date","To","Cc"]) :
    ':' ∉ w.toList ∧ '\x00' ∉ w.toList ∧ encode w ≠ [] ∧ w ∉ partTagsAfter none := by
  simp only [List.mem_cons,List.not_mem_nil,or_false] at mem
  rcases mem with rfl | rfl | rfl | rfl | rfl | rfl | rfl <;> decide +kernel

theorem partTagPlain {w : String} (mem : w ∈ partTagsAfter none) :
    ':' ∉ w.toList ∧ '\x00' ∉ w.toList ∧ encode w ≠ [] := by
  simp only [partTagsAfter,List.mem_cons,List.not_mem_nil,or_false] at mem
  rcases mem with rfl | rfl | rfl <;> decide +kernel

theorem labelSome (p : Place) : label p ≠ [] := by
  intro none
  have plain : ':' ∉ "".toList := by decide
  exact labelNotTag plain (none.trans rfl)

theorem opensNotHeader {t : Option String} {Y : List Bytes} (opens : Opens Y) :
    ¬ headerGrammar.Follows t Y := by
  obtain ⟨p,tag,Z,_,_,rfl⟩ := opens
  rintro (⟨w,Z',same,mem⟩ | same | ⟨Z',same,_⟩)
  · exact labelNotTag (headerTagPlain (headerTags mem)).1 (List.cons.inj same).1
  · exact labelSome p (List.cons.inj same).1
  · exact labelSome p (List.cons.inj same).1

theorem tagNotHeader {t : Option String} {tag : String} {Z : List Bytes}
    (mem : tag ∈ partTagsAfter none) : ¬ headerGrammar.Follows t (encode tag :: Z) := by
  rintro (⟨w,Z',same,next⟩ | same | ⟨Z',same,_⟩)
  · have tags : tag = w := encodeInjective (List.cons.inj same).1
    exact (headerTagPlain (headerTags next)).2.2.2 (tags ▸ mem)
  · exact (partTagPlain mem).2.2 (List.cons.inj same).1
  · exact (partTagPlain mem).2.2 (List.cons.inj same).1

theorem headerQuiet {tag value : String} (closed : HeaderClosed tag value) :
    Quiet (headerGrammar.Follows (some tag)) (words (encode value)) := by
  intro a b cut left right Y restY rest
  have inner : (words (encode value)).tail = a.tail ++ b := by
    rw [cut,List.tail_append_of_ne_nil left]
  obtain ⟨w,b,rfl⟩ := List.exists_cons_of_ne_nil right
  rcases rest with ⟨t,Z,same,next⟩ | same | ⟨Z,same,opens⟩
  · refine closed.1 t next ?_
    rw [inner,(List.cons.inj same).1]
    simp [headerGrammar]
  · simp only [List.cons_append,List.cons.injEq,List.append_eq_nil_iff] at same
    rw [same.2.2] at restY
    rcases restY with ⟨t,Z,same,_⟩ | same | ⟨Z,same,_⟩ <;> cases same
  · rw [List.cons_append,List.cons.injEq] at same
    obtain ⟨rfl,same⟩ := same
    cases b with
    | nil =>
      rw [List.nil_append] at same
      exact opensNotHeader opens (same ▸ restY)
    | cons w b =>
      obtain ⟨p,t,Z',legal,mem,rfl⟩ := opens
      rw [List.cons_append,List.cons.injEq] at same
      obtain ⟨rfl,same⟩ := same
      cases b with
      | nil =>
        rw [List.nil_append] at same
        exact tagNotHeader mem (same ▸ restY)
      | cons w b =>
        rw [List.cons_append,List.cons.injEq] at same
        obtain ⟨rfl,_⟩ := same
        exact closed.2 a.tail _ inner ⟨p,t,b,legal,mem,rfl⟩

theorem textQuiet {tag value : String} (closed : TextClosed value)
    (text : tag = "fn" ∨ tag = "d") :
    Quiet (partGrammar.Follows (some tag)) (words (encode value)) := by
  intro a b cut left right Y _ rest
  have inner : (words (encode value)).tail = a.tail ++ b := by
    rw [cut,List.tail_append_of_ne_nil left]
  obtain ⟨w,b,rfl⟩ := List.exists_cons_of_ne_nil right
  rcases rest with ⟨t,Z,same,next⟩ | ⟨body,_⟩
  · have after : t ∈ partTagsAfter (some "d") := by
      rcases text with rfl | rfl
      · exact next
      · exact next
    refine closed t after ?_
    rw [inner,(List.cons.inj same).1]
    simp [partGrammar]
  · rcases text with rfl | rfl
    · simp at body
    · simp at body

theorem bodyFollows {X : List Bytes} :
    partGrammar.Follows (some "b") X ↔ X = [] ∨ Opens X := by
  simp [Grammar.Follows,partGrammar,partTagsAfter]

theorem bodyQuiet {body : Bytes} (closed : BodyClosed body) :
    Quiet (partGrammar.Follows (some "b")) (words body) := by
  intro a b cut left right Y restY rest
  have inner : (words body).tail = a.tail ++ b := by
    rw [cut,List.tail_append_of_ne_nil left]
  obtain ⟨w,b,rfl⟩ := List.exists_cons_of_ne_nil right
  rw [bodyFollows] at restY rest
  rcases rest with none | ⟨p,t,Z,legal,mem,same⟩
  · cases none
  · rw [List.cons_append,List.cons.injEq] at same
    obtain ⟨rfl,same⟩ := same
    cases b with
    | nil =>
      rw [List.nil_append] at same
      rcases restY with none | ⟨q,_,_,_,_,again⟩
      · rw [none] at same
        cases same
      · rw [same] at again
        exact labelNotTag (partTagPlain mem).1 (List.cons.inj again).1.symm
    | cons w b =>
      rw [List.cons_append,List.cons.injEq] at same
      obtain ⟨rfl,_⟩ := same
      exact closed a.tail _ inner ⟨p,t,b,legal,mem,rfl⟩

def worded (fs : List (String × Bytes)) : List (String × List Bytes) :=
  fs.map (fun f => (f.1,words f.2))

theorem wordsFields {fs : List (String × Bytes)} (pure : ∀ f ∈ fs, '\x00' ∉ f.1.toList) (X : Bytes) :
    words (fs.flatMap (fun f => field f.1 f.2) ++ X) = render encode (worded fs) (words X) := by
  induction fs with
  | nil => rfl
  | cons f fs ih =>
    have tag : 0 ∉ encode f.1 := fun mem => pure f List.mem_cons_self (zeroMemEncode.mp mem)
    have later := ih fun g mem => pure g (List.mem_cons_of_mem _ mem)
    calc words ((f :: fs).flatMap (fun f => field f.1 f.2) ++ X)
        = words (encode f.1 ++ 0 :: (f.2 ++ 0 :: (fs.flatMap (fun f => field f.1 f.2) ++ X))) := by
          simp [field]
      _ = encode f.1 :: (words f.2 ++ render encode (worded fs) (words X)) := by
          rw [wordsCut,wordsCut,wordsSingle tag,later]
          rfl

def PartContent.reads (p : PartContent) : List (String × List Bytes) :=
  worded p.fields ++ [("b",words p.content)]

def partsWords : List PartContent → List Bytes
  | [] => []
  | p :: ps => label p.place :: render encode p.reads (partsWords ps)

theorem wordsParts (ps : List PartContent) (X : Bytes) :
    words (X ++ ps.flatMap PartContent.bytes) = words X ++ partsWords ps := by
  induction ps generalizing X with
  | nil => simp [partsWords]
  | cons p ps ih =>
    have pure : ∀ f ∈ p.fields, '\x00' ∉ f.1.toList := by
      intro f mem
      have tag : f.1 = "fn" ∨ f.1 = "d" := by
        rcases List.mem_append.mp mem with fn | d
        · obtain ⟨_,_,rfl⟩ := List.mem_map.mp fn
          exact Or.inl rfl
        · obtain ⟨_,_,rfl⟩ := List.mem_map.mp d
          exact Or.inr rfl
      rcases tag with h | h
      · rw [h]; decide
      · rw [h]; decide
    have body : (0 : UInt8) ∉ encode "b" := by decide +kernel
    calc words (X ++ (p :: ps).flatMap PartContent.bytes)
        = words (X ++ 0 :: (label p.place ++ 0 :: (p.fields.flatMap (fun f => field f.1 f.2) ++
            (encode "b" ++ 0 :: (p.content ++ ps.flatMap PartContent.bytes))))) := by
          simp [PartContent.bytes]
      _ = words X ++ label p.place :: render encode (worded p.fields)
            (encode "b" :: (words p.content ++ partsWords ps)) := by
          rw [wordsCut,wordsCut,wordsSingle (labelPure _),wordsFields pure,wordsCut,
            wordsSingle body,ih]
          rfl
      _ = words X ++ partsWords (p :: ps) := by
          simp [partsWords,PartContent.reads,renderAppend]

def Content.reads (c : Content) : List (String × List Bytes) :=
  worded (c.headers.map (fun h => (h.1,encode h.2)))

theorem headersTagged {c : Content} {h : String × String} (mem : h ∈ c.headers) :
    h.1 ∈ ["ref","From","Sender","Subject","Date","To","Cc"] := by
  simp only [Content.headers,List.mem_append,List.mem_map] at mem
  rcases mem with ((((((⟨_,_,rfl⟩ | ⟨_,_,rfl⟩) | ⟨_,_,rfl⟩) | ⟨_,_,rfl⟩) | ⟨_,_,rfl⟩) |
    ⟨_,_,rfl⟩) | ⟨_,_,rfl⟩)
  all_goals simp

theorem wordsContent (c : Content) :
    words c.bytes = render encode c.reads ([] :: partsWords c.parts) := by
  have pure : ∀ f ∈ c.headers.map (fun h => (h.1,encode h.2)), '\x00' ∉ f.1.toList := by
    intro f mem
    obtain ⟨h,inside,rfl⟩ := List.mem_map.mp mem
    exact (headerTagPlain (headersTagged inside)).2.1
  have parts : words (c.parts.flatMap PartContent.bytes) = [] :: partsWords c.parts :=
    wordsParts c.parts []
  rw [← parts]
  simpa [Content.bytes,Content.reads,List.flatMap_map] using
    wordsFields pure (c.parts.flatMap PartContent.bytes)

def block (t : String) (vs : List String) : List (String × List Bytes) :=
  vs.map (fun v => (t,words (encode v)))

theorem readsShape (c : Content) : c.reads = block "ref" (c.references.map Mid.val) ++
    (block "From" c.author ++ (block "Sender" c.sender ++ (block "Subject" c.subject ++
    (block "Date" c.date ++ (block "To" c.toAddrs ++ (block "Cc" c.ccAddrs ++ [])))))) := by
  simp [Content.reads,Content.headers,worded,block,Function.comp_def]

theorem readsBlock {t : String} {b : Option String} {h : List String}
    {rest : List (String × List Bytes)} {X : List Bytes} (self : t ∈ headersAfter (some t))
    (fewer : ∀ w ∈ headersAfter (some t), w ∈ headersAfter b)
    (closed : ∀ v ∈ h, HeaderClosed t v) (later : Reads headerGrammar (some t) rest X) :
    Reads headerGrammar b (block t h ++ rest) X := by
  induction h generalizing b with
  | nil => cases rest with
    | nil => exact later
    | cons f rest => exact ⟨fewer _ later.1,later.2⟩
  | cons v h ih =>
    exact ⟨fewer t self,wordsSome _,headerQuiet (closed v List.mem_cons_self),
      ih (fun _ mem => mem) fun w mem => closed w (List.mem_cons_of_mem _ mem)⟩

theorem refClosed {v : String} (pure : '\x00' ∉ v.toList) : HeaderClosed "ref" v := by
  have single : (words (encode v)).tail = [] := by
    rw [wordsSingle fun mem => pure (zeroMemEncode.mp mem)]
    rfl
  refine ⟨by simp [single],fun X Y cut => ?_⟩
  rw [single] at cut
  simp at cut

theorem headerReads {c : Content} (legal : c.Legal) (closed : c.Closed) {X : List Bytes}
    (ends : headerGrammar.close none X) : Reads headerGrammar none c.reads X := by
  have of : ∀ t v, t ≠ "ref" → (t,v) ∈ c.headers → HeaderClosed t v :=
    fun t v other mem => closed.1 _ mem other
  have cc : Reads headerGrammar (some "To") (block "Cc" c.ccAddrs ++ []) X :=
    readsBlock (by simp [headersAfter]) (by simp [headersAfter])
      (fun v mem => of _ _ (by decide) (by simp [Content.headers,mem])) ends
  have recipients := readsBlock (t := "To") (b := some "Date") (h := c.toAddrs)
    (by simp [headersAfter]) (by simp [headersAfter])
    (fun v mem => of _ _ (by decide) (by simp [Content.headers,mem])) cc
  have dates := readsBlock (t := "Date") (b := some "Subject") (h := c.date)
    (by simp [headersAfter]) (by simp [headersAfter])
    (fun v mem => of _ _ (by decide) (by simp [Content.headers,mem])) recipients
  have subjects := fun before fewer =>
    readsBlock (t := "Subject") (b := before) (h := c.subject) (by simp [headersAfter]) fewer
      (fun v mem => of _ _ (by decide) (by simp [Content.headers,mem])) dates
  have people : Reads headerGrammar (some "ref") (block "From" c.author ++
      (block "Sender" c.sender ++ (block "Subject" c.subject ++ (block "Date" c.date ++
      (block "To" c.toAddrs ++ (block "Cc" c.ccAddrs ++ [])))))) X := by
    rcases legal.author with none | none
    · have senders := readsBlock (t := "Sender") (b := some "ref") (h := c.sender)
        (by simp [headersAfter]) (by simp [headersAfter])
        (fun v mem => of _ _ (by decide) (by simp [Content.headers,mem]))
        (subjects (some "Sender") (by simp [headersAfter]))
      rw [none]
      exact senders
    · have authors := readsBlock (t := "From") (b := some "ref") (h := c.author)
        (by simp [headersAfter]) (by simp [headersAfter])
        (fun v mem => of _ _ (by decide) (by simp [Content.headers,mem]))
        (subjects (some "From") (by simp [headersAfter]))
      rw [none]
      exact authors
  rw [readsShape]
  refine readsBlock (by simp [headersAfter]) (by simp [headersAfter]) (fun v mem => ?_) people
  obtain ⟨r,inside,rfl⟩ := List.mem_map.mp mem
  exact refClosed (legal.references r inside)

theorem readsOpens {p : PartContent} {X : List Bytes} (legal : p.place.Legal)
    (reads : Reads partGrammar none p.reads X) : Opens (label p.place :: render encode p.reads X) := by
  have some : p.reads ≠ [] := by simp [PartContent.reads]
  obtain ⟨f,fs,shape⟩ := List.exists_cons_of_ne_nil some
  rw [shape] at reads ⊢
  exact ⟨p.place,f.1,_,legal,reads.1,rfl⟩

theorem partReads {p : PartContent} (closed : p.Closed) {X : List Bytes} (ends : X = [] ∨ Opens X) :
    Reads partGrammar none p.reads X := by
  have body : ∀ before, "b" ∈ partTagsAfter before →
      Reads partGrammar before [("b",words p.content)] X :=
    fun before may => ⟨may,wordsSome _,bodyQuiet closed.2.2,rfl,ends⟩
  have descriptions : ∀ (ds : List String) before, (∀ d ∈ ds, TextClosed d) →
      (∀ t ∈ partTagsAfter (some "d"), t ∈ partTagsAfter before) →
      Reads partGrammar before (block "d" ds ++ [("b",words p.content)]) X := by
    intro ds
    induction ds with
    | nil => exact fun before _ may => body before (may "b" (by simp [partTagsAfter]))
    | cons d ds ih =>
      intro before closed may
      exact ⟨may "d" (by simp [partTagsAfter]),wordsSome _,
        textQuiet (closed d List.mem_cons_self) (Or.inr rfl),
        ih (some "d") (fun e mem => closed e (List.mem_cons_of_mem _ mem)) fun _ mem => mem⟩
  have rest := fun before => descriptions p.descriptions before closed.2.1
  cases name : p.filename with
  | none =>
    have shape : p.reads = block "d" p.descriptions ++ [("b",words p.content)] := by
      simp [PartContent.reads,PartContent.fields,worded,block,name,Function.comp_def]
    rw [shape]
    exact rest none (by simp [partTagsAfter])
  | some fn =>
    have shape : p.reads = ("fn",words (encode fn)) ::
        (block "d" p.descriptions ++ [("b",words p.content)]) := by
      simp [PartContent.reads,PartContent.fields,worded,block,name,Function.comp_def]
    rw [shape]
    exact ⟨by simp [partGrammar,partTagsAfter],wordsSome _,
      textQuiet (closed.1 fn (by simp [name])) (Or.inl rfl),rest _ fun _ mem => mem⟩

def under {α : Type} (t : String) (fs : List (String × α)) : List α :=
  (fs.filter (fun f => f.1 = t)).map Prod.snd

theorem wordEncodeInjective : Function.Injective (fun s => words (encode s)) :=
  wordsInjective.comp encodeInjective

theorem readsContent {p q : PartContent} (place : p.place = q.place) (same : p.reads = q.reads) :
    p = q := by
  have name := congrArg (under "fn") same
  have about := congrArg (under "d") same
  have body := congrArg (under "b") same
  simp only [under,PartContent.reads,PartContent.fields,worded,List.map_append,List.filter_append,
    List.map_map,List.filter_map,Function.comp_def] at name about body
  simp at name about body
  have names : p.filename = q.filename := by
    have first := congrArg List.head? (List.map_injective_iff.mpr wordEncodeInjective name)
    simpa using first
  cases p
  cases q
  simp only at place names about body
  rw [place,names,List.map_injective_iff.mpr wordEncodeInjective about,wordsInjective body]

theorem partsEnd {ps : List PartContent} (legal : ∀ p ∈ ps, p.place.Legal)
    (closed : ∀ p ∈ ps, p.Closed) : partsWords ps = [] ∨ Opens (partsWords ps) := by
  induction ps with
  | nil => exact Or.inl rfl
  | cons p ps ih =>
    obtain ⟨here,legal⟩ := List.forall_mem_cons.mp legal
    obtain ⟨shut,closed⟩ := List.forall_mem_cons.mp closed
    exact Or.inr (readsOpens here (partReads shut (ih legal closed)))

theorem partsUnique {ps qs : List PartContent} (legalP : ∀ p ∈ ps, p.place.Legal)
    (legalQ : ∀ q ∈ qs, q.place.Legal) (closedP : ∀ p ∈ ps, p.Closed) (closedQ : ∀ q ∈ qs, q.Closed)
    (same : partsWords ps = partsWords qs) : ps = qs := by
  induction ps generalizing qs with
  | nil => cases qs with
    | nil => rfl
    | cons q qs => cases same
  | cons p ps ih => cases qs with
    | nil => cases same
    | cons q qs =>
      obtain ⟨hereP,legalP⟩ := List.forall_mem_cons.mp legalP
      obtain ⟨hereQ,legalQ⟩ := List.forall_mem_cons.mp legalQ
      obtain ⟨shutP,closedP⟩ := List.forall_mem_cons.mp closedP
      obtain ⟨shutQ,closedQ⟩ := List.forall_mem_cons.mp closedQ
      obtain ⟨place,same⟩ := List.cons.inj same
      have after : ∀ t w Y, partGrammar.next t w → ¬ partGrammar.close t (encode w :: Y) := by
        rintro t w Y next ⟨rfl,_⟩
        simp [partGrammar,partTagsAfter] at next
      obtain ⟨fields,rest⟩ := readsUnique (g := partGrammar) encodeInjective after
        (partReads shutP (partsEnd legalP closedP)) (partReads shutQ (partsEnd legalQ closedQ)) same
      have first := readsContent (labelInjective (legalSome hereP) (legalSome hereQ) place) fields
      rw [first,ih legalP legalQ closedP closedQ rest]

theorem headersContent {c d : Content} (same : c.reads = d.reads) (parts : c.parts = d.parts) :
    c = d := by
  have refs := congrArg (under "ref") same
  have author := congrArg (under "From") same
  have sender := congrArg (under "Sender") same
  have subject := congrArg (under "Subject") same
  have date := congrArg (under "Date") same
  have recipients := congrArg (under "To") same
  have copies := congrArg (under "Cc") same
  simp only [readsShape,under,block,List.map_append,List.filter_append,List.map_map,
    List.filter_map,Function.comp_def] at refs author sender subject date recipients copies
  simp at refs author sender subject date recipients copies
  have back : ∀ {vs ws : List String}, vs.map (fun v => words (encode v)) =
      ws.map (fun v => words (encode v)) → vs = ws :=
    fun same => List.map_injective_iff.mpr wordEncodeInjective same
  have vals : Function.Injective (fun r : Mid => words (encode r.val)) := by
    intro r s same
    cases r
    cases s
    simpa using wordEncodeInjective same
  cases c
  cases d
  simp only at refs author sender subject date recipients copies parts
  rw [List.map_injective_iff.mpr vals refs,back author,back sender,back subject,back date,
    back recipients,back copies,parts]

theorem bytesUnique {c d : Content} (legalC : c.Legal) (legalD : d.Legal) (closedC : c.Closed)
    (closedD : d.Closed) (same : c.bytes = d.bytes) : c = d := by
  have ends : ∀ x : Content, x.Legal → x.Closed →
      headerGrammar.close none ([] :: partsWords x.parts) := by
    intro x legal closed
    rcases partsEnd legal.places closed.2 with none | opens
    · exact Or.inl (by rw [none])
    · exact Or.inr ⟨_,rfl,opens⟩
  have after : ∀ t w Y, headerGrammar.next t w → ¬ headerGrammar.close t (encode w :: Y) := by
    intro t w Y next close
    have some := (headerTagPlain (headerTags next)).2.2.1
    rcases close with same | ⟨Y',same,_⟩
    · exact some (List.cons.inj same).1
    · exact some (List.cons.inj same).1
  have both := congrArg words same
  rw [wordsContent,wordsContent] at both
  obtain ⟨fields,rest⟩ := readsUnique (g := headerGrammar) encodeInjective after
    (headerReads legalC closedC (ends c legalC closedC))
    (headerReads legalD closedD (ends d legalD closedD)) both
  exact headersContent fields (partsUnique legalC.places legalD.places closedC.2 closedD.2
    (List.cons.inj rest).2)

end PublicInbox.ContentHash
