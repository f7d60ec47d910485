import Mathlib.Data.Nat.Digits.Lemmas
import PublicInbox.HTTP.Client

/-! What a client reads of the pieces that HTTP.pm writes: header lines, chunks and the first line. -/
namespace PublicInbox.HTTP.Client
open Chunks Feed
open Response (Text lower crlf field hexText chunkedWrite)

/-! Lines -/

theorem linesFill {l : Text} (oneLine : '\n' ∉ l) (line more : Text) : linesFrom line (l ++ more) = linesFrom (line ++ l) more := by
  induction l generalizing line with
  | nil => rw [List.nil_append,List.append_nil]
  | cons c cs ih =>
    obtain ⟨apart,later⟩ := List.ne_and_not_mem_of_not_mem_cons oneLine
    rw [List.cons_append,linesFrom,if_neg fun newline => apart newline.1.symm,ih later,List.append_assoc]
    rfl

theorem linesStep {l : Text} (oneLine : '\n' ∉ l) (some : l ≠ []) (more : Text) :
    linesFrom [] (l ++ crlf ++ more) = (linesFrom [] more).map fun (ls,rest) => (l :: ls,rest) := by
  have inside : '\n' ∉ l ++ ['\r'] := by simp [oneLine]
  have other : l ++ ['\r'] ≠ ['\r'] := by simpa using some
  have text : l ++ crlf ++ more = (l ++ ['\r']) ++ '\n' :: more := by simp [crlf]
  rw [text,linesFill inside,List.nil_append,linesFrom,if_pos ⟨rfl,by simp⟩,if_neg other,List.dropLast_concat]

theorem linesShort {l buf rest : Text} (oneLine : '\n' ∉ l) (is : l ++ crlf = buf ++ rest) (some : rest ≠ []) : linesFrom [] buf = none := by
  have inside : '\n' ∉ l ++ ['\r'] := by simp [oneLine]
  have last : l ++ ['\r'] ++ ['\n'] = buf ++ rest := by rw [← is]; simp [crlf]
  have read := linesFill (noNewline inside last some) [] []
  rw [List.append_nil] at read
  rw [read]
  rfl

theorem linesTake {ls : List Text} (plain : ∀ l ∈ ls,'\n' ∉ l ∧ l ≠ []) : Takes (linesFrom []) (ls.flatMap (· ++ crlf) ++ crlf) ls where
  whole := by
    intro more
    induction ls with
    | nil => simp [crlf,linesFrom]
    | cons l ls ih =>
      obtain ⟨oneLine,some⟩ := plain l List.mem_cons_self
      have text : (l :: ls).flatMap (· ++ crlf) ++ crlf ++ more = l ++ crlf ++ (ls.flatMap (· ++ crlf) ++ crlf ++ more) := by simp
      rw [text,linesStep oneLine some,ih fun l mem => plain l (List.mem_cons_of_mem _ mem)]
      rfl
  part := by
    intro buf rest is some
    induction ls generalizing buf with
    | nil => exact linesShort List.not_mem_nil is some
    | cons l ls ih =>
      obtain ⟨oneLine,more⟩ := plain l List.mem_cons_self
      have parts : (l ++ crlf) ++ (ls.flatMap (· ++ crlf) ++ crlf) = buf ++ rest := by simpa using is
      rcases List.append_eq_append_iff.mp parts with ⟨left,is,follows⟩ | ⟨left,is,follows⟩
      · rw [is,linesStep oneLine more,ih (fun l mem => plain l (List.mem_cons_of_mem _ mem)) follows]
        rfl
      · cases left with
        | nil =>
          rw [List.append_nil] at is
          have again := linesStep oneLine more []
          rw [List.append_nil] at again
          rw [← is,again]
          rfl
        | cons c left => exact linesShort oneLine is (List.cons_ne_nil _ _)

/-! Chunks -/

theorem hexChar : ∀ d < 16,isHex (Nat.digitChar d) = true ∧ hexDigit (Nat.digitChar d) = d := by decide

theorem hexTextHexes (n : Nat) : ∀ c ∈ hexText n,isHex c = true := by
  intro c mem
  rw [hexText] at mem
  split at mem
  · rw [List.mem_singleton.mp mem]
    rfl
  · obtain ⟨d,digit,rfl⟩ := List.mem_map.mp (List.mem_reverse.mp mem)
    exact (hexChar d (Nat.digits_lt_base (by omega) digit)).1

theorem hexTextSome (n : Nat) : hexText n ≠ [] := by
  rw [hexText]
  split
  · exact List.cons_ne_nil _ _
  · rename_i positive
    simp [Nat.digits_ne_nil_iff_ne_zero.mpr positive]

theorem hexOfDigits {ds : List Nat} (small : ∀ d ∈ ds,d < 16) : hex (ds.map Nat.digitChar).reverse = Nat.ofDigits 16 ds := by
  rw [hex,List.foldl_reverse]
  induction ds with
  | nil => rfl
  | cons d ds ih =>
    rw [List.map_cons,List.foldr_cons,ih fun e mem => small e (List.mem_cons_of_mem _ mem),(hexChar d (small d List.mem_cons_self)).2,
      Nat.ofDigits_cons,Nat.add_comm]

theorem hexHexText (n : Nat) : hex (hexText n) = n := by
  rw [hexText]
  split
  · rename_i zero
    rw [zero]
    rfl
  · rw [hexOfDigits fun d mem => Nat.digits_lt_base (by omega) mem,Nat.ofDigits_digits]

theorem noExt : ∀ c ∈ ([] : Text).head?,isHex c = false := fun c mem => absurd mem (Option.not_mem_none c)

theorem noNewlineExt : '\n' ∉ ([] : Text) := List.not_mem_nil

def sizeLine (n : Nat) : SizeLine := ⟨hexText n,[],hexTextSome n,hexTextHexes n,noExt,noNewlineExt⟩

def chunkOf (buf : Text) : Option Chunk :=
  if some : buf = [] then none else .some ⟨sizeLine buf.length,buf,(hexHexText buf.length).symm,some⟩

def bodyOf (bufs : List Text) : Body := ⟨bufs.filterMap chunkOf,sizeLine 0,rfl,[]⟩

theorem chunksText (bufs : List Text) : (bufs.filterMap chunkOf).flatMap Chunk.text = bufs.flatMap chunkedWrite := by
  induction bufs with
  | nil => rfl
  | cons buf bufs ih =>
    rw [List.filterMap_cons,List.flatMap_cons,chunkOf,chunkedWrite]
    split_ifs with empty
    · exact ih
    · rw [List.flatMap_cons,ih]
      simp [Chunk.text,SizeLine.text,sizeLine,crlf]

theorem bodyOfText (bufs : List Text) : (bodyOf bufs).text = bufs.flatMap chunkedWrite ++ "0\r\n\r\n".toList := by
  rw [Body.text,bodyOf,chunksText]
  rfl

theorem bodyOfData (bufs : List Text) : (bodyOf bufs).data = bufs.flatten := by
  rw [Body.data,bodyOf]
  induction bufs with
  | nil => rfl
  | cons buf bufs ih =>
    rw [List.filterMap_cons,List.flatten_cons,chunkOf]
    split_ifs with empty
    · rw [empty]
      exact ih
    · rw [List.flatMap_cons,ih]

theorem chunksTake (last : SizeLine) (zero : last.size = 0) (trailers : List Trailer) {chunks : List Chunk} {fuel : Nat}
    (enough : chunks.length < fuel) :
    Takes (takeChunks fuel) (chunks.flatMap Chunk.text ++ (last.text ++ (trailerText trailers ++ ['\r','\n']))) (chunks.flatMap Chunk.data) := by
  induction chunks generalizing fuel with
  | nil =>
    obtain ⟨fuel,rfl⟩ := Nat.exists_eq_add_of_lt enough
    rw [takeChunks]
    refine last.takes.andThen ?_
    rw [if_pos (show hex last.digits = 0 from zero)]
    exact (trailersTakes trailers).given _
  | cons c chunks ih =>
    cases fuel with
    | zero => cases enough
    | succ fuel =>
      have rest := ih (Nat.lt_of_succ_lt_succ enough)
      have sized : hex c.line.digits = c.data.length := c.sized.symm
      have more : hex c.line.digits ≠ 0 := fun none => c.more (List.length_eq_zero_iff.mp (sized.symm.trans none))
      have text : (c :: chunks).flatMap Chunk.text ++ (last.text ++ (trailerText trailers ++ ['\r','\n'])) =
          c.line.text ++ (c.data ++ (['\r','\n'] ++ (chunks.flatMap Chunk.text ++ (last.text ++ (trailerText trailers ++ ['\r','\n']))))) := by
        simp [Chunk.text]
      rw [text,takeChunks]
      refine c.line.takes.andThen ?_
      rw [if_neg more,sized]
      exact (countTakes c.data).andThen (endTakes.andThen (rest.given (c.data ++ ·)))

theorem chunksMore {fuel : Nat} {buf : Text} {r : Text × Text} (found : takeChunks fuel buf = some r) : takeChunks (fuel + 1) buf = some r := by
  induction fuel generalizing buf r with
  | zero => cases found
  | succ fuel ih =>
    rw [takeChunks,andThen] at found ⊢
    obtain ⟨⟨line,rest⟩,size,found⟩ := Option.bind_eq_some_iff.mp found
    rw [size,Option.bind_some]
    dsimp only at found ⊢
    split_ifs at found ⊢ with zero
    · exact found
    · obtain ⟨⟨data,rest⟩,counted,found⟩ := Option.bind_eq_some_iff.mp found
      obtain ⟨⟨⟨⟩,rest⟩,ended,found⟩ := Option.bind_eq_some_iff.mp found
      obtain ⟨⟨later,rest⟩,inner,made⟩ := Option.map_eq_some_iff.mp found
      refine Option.bind_eq_some_iff.mpr ⟨_,counted,Option.bind_eq_some_iff.mpr ⟨_,ended,Option.map_eq_some_iff.mpr ⟨_,ih inner,made⟩⟩⟩

theorem chunksMany {fuel n : Nat} {buf : Text} {r : Text × Text} (found : takeChunks fuel buf = some r) : takeChunks (fuel + n) buf = some r := by
  induction n with
  | zero => exact found
  | succ n ih => exact chunksMore ih

theorem chunksFew (b : Body) : b.chunks.length ≤ b.text.length := by
  have each : ∀ cs : List Chunk,cs.length ≤ (cs.flatMap Chunk.text).length := by
    intro cs
    induction cs with
    | nil => exact Nat.le_refl 0
    | cons c cs ih =>
      simp only [List.flatMap_cons,List.length_cons,List.length_append,Chunk.text]
      omega
  rw [Body.text,List.length_append]
  exact (each b.chunks).trans (Nat.le_add_right _ _)

theorem bodyTakes (closed : Bool) (b : Body) : Takes (takeBody closed .chunked) b.text b.data where
  whole := by
    intro more
    have few := chunksFew b
    have takes := @chunksTake b.last b.zero b.trailers b.chunks ((b.text ++ more).length + 1)
      (by rw [List.length_append]; omega)
    have text : b.text = b.chunks.flatMap Chunk.text ++ (b.last.text ++ (trailerText b.trailers ++ ['\r','\n'])) := by
      simp [Body.text,Body.tail]
    rw [← text] at takes
    exact takes.whole more
  part := by
    intro buf rest is some
    show takeChunks (buf.length + 1) buf = none
    cases found : takeChunks (buf.length + 1) buf with
    | none => rfl
    | some r =>
      have takes := @chunksTake b.last b.zero b.trailers b.chunks (buf.length + 1 + b.chunks.length) (by omega)
      have text : b.text = b.chunks.flatMap Chunk.text ++ (b.last.text ++ (trailerText b.trailers ++ ['\r','\n'])) := by
        simp [Body.text,Body.tail]
      rw [← text] at takes
      exact absurd (chunksMany found) (by rw [takes.part is some]; exact (Option.some_ne_none r).symm)

/-! The first line and the fields -/

theorem threeDigits {n : Nat} (low : 100 ≤ n) (high : n < 1000) : ∃ a b c,Decimal.render n = [a,b,c] := by
  have long : (Decimal.render n).length = 3 := by
    rw [Decimal.render,if_neg (by omega),List.length_reverse,List.length_map,Nat.length_digits 10 n (by omega) (by omega)]
    exact congrArg (· + 1) ((Nat.log_eq_iff (.inl (by omega))).mpr ⟨low,high⟩)
  match text : Decimal.render n,long with
  | [a,b,c],_ => exact ⟨a,b,c,rfl⟩

theorem statusRead {proto : Text} {minor : Nat} (is : proto = "HTTP/1.1".toList ∧ minor = 1 ∨ proto = "HTTP/1.0".toList ∧ minor = 0) {n : Nat}
    (low : 100 ≤ n) (high : n < 1000) (msg : Text) :
    statusOf (proto ++ [' '] ++ Decimal.render n ++ [' '] ++ msg) = some (minor,n) := by
  obtain ⟨a,b,c,three⟩ := threeDigits low high
  have digits := Decimal.renderDigits n
  have value := Decimal.valueRender n
  rw [three] at digits value ⊢
  have all : [a,b,c].all Char.isDigit = true := List.all_eq_true.mpr digits
  rcases is with ⟨rfl,rfl⟩ | ⟨rfl,rfl⟩
  · have read : ['1',a,b,c].all Char.isDigit = true := by rw [List.all_cons,all]; rfl
    show (if ['1',a,b,c].all Char.isDigit then some (Decimal.value ['1'],Decimal.value [a,b,c]) else none) = some (1,n)
    rw [if_pos read,value]
    rfl
  · have read : ['0',a,b,c].all Char.isDigit = true := by rw [List.all_cons,all]; rfl
    show (if ['0',a,b,c].all Char.isDigit then some (Decimal.value ['0'],Decimal.value [a,b,c]) else none) = some (0,n)
    rw [if_pos read,value]
    rfl

theorem fieldRead {k : Text} (plain : ':' ∉ k) (v : Text) : fieldOf (k ++ [':',' '] ++ v) = (k,trim v) := by
  have before : ∀ c ∈ k,decide (c ≠ ':') = true := fun c mem => decide_eq_true fun is => plain (is ▸ mem)
  rw [fieldOf,List.append_assoc,List.takeWhile_append_of_pos before,List.dropWhile_append_of_pos before]
  simp [trim,isBlank]

end PublicInbox.HTTP.Client
