import PublicInbox.WwwStatic.Ranges
import PublicInbox.WwwStatic.Bodies

/-! What is answered of one file, by its headers and its bytes. -/
namespace PublicInbox.WwwStatic

def contentType : Text := "Content-Type".toList
def contentEncoding : Text := "Content-Encoding".toList

def Carries (env : Env) (want : Bytes) : Body → Prop
  | .none => env.isHead = true
  | .text _ => False
  | .file data off len => env.isHead = false ∧ slice data off len = want ∧ Emitted data off len

def Answered (env : Env) (data : Bytes) (res : Res) : Answer → Prop
  | .whole => res.code = 200 ∧ values res.headers contentLength = [Decimal.render data.length] ∧
    values res.headers contentRangeName = [] ∧ Carries env data res.body
  | .part first last => res.code = 206 ∧ values res.headers contentLength = [Decimal.render (last + 1 - first)] ∧
    Ranges first last data.length (values res.headers contentRangeName) ∧
    Carries env (slice data first (last + 1 - first)) res.body
  | .unsatisfiable => res.code = 416 ∧ values res.headers contentLength = [] ∧
    values res.headers contentRangeName = ["bytes */".toList ++ Decimal.render data.length] ∧ res.body = .none

def onceNames : List Text := [contentType,contentLength,contentRangeName,contentEncoding]

def Exact (env : Env) : Prop := ∀ m,matchRange false env.range = some m → single env.range = some m

/-! Headers -/

theorem valuesAppend (h h' : Headers) (name : Text) : values (h ++ h') name = values h name ++ values h' name := by
  unfold values
  rw [List.filter_append,List.map_append]

def onceValues (h : Headers) : List (List Text) := onceNames.map (values h)

theorem onceAppend (h h' : Headers) : onceValues (h ++ h') = List.zipWith (· ++ ·) (onceValues h) (onceValues h') := by
  unfold onceValues
  rw [List.zipWith_map_left,List.zipWith_map_right,List.zipWith_self]
  exact List.map_congr_left fun name _ => valuesAppend h h' name

def Fresh (h : Headers) : Prop := ∀ name ∈ onceNames,values h name = []

theorem freshOnce {h : Headers} (fresh : Fresh h) : onceValues h = [[],[],[],[]] := by
  unfold onceValues
  rw [List.map_congr_left fresh]
  rfl

theorem onceIff (h : Headers) : (∀ name ∈ onceNames,(values h name).length ≤ 1) ↔ ∀ vs ∈ onceValues h,vs.length ≤ 1 := by
  unfold onceValues
  rw [List.forall_mem_map]

theorem onceEach {h : Headers} {type length range encoding : List Text} (is : onceValues h = [type,length,range,encoding]) :
    values h contentType = type ∧ values h contentLength = length ∧ values h contentRangeName = range ∧
      values h contentEncoding = encoding := by
  obtain ⟨isType,is⟩ := List.cons.inj is
  obtain ⟨isLength,is⟩ := List.cons.inj is
  obtain ⟨isRange,is⟩ := List.cons.inj is
  exact ⟨isType,isLength,isRange,(List.cons.inj is).1⟩

def gzipHeaders : Headers := [("Cache-Control".toList,"no-transform".toList),("Content-Encoding".toList,"gzip".toList),
  ("Vary".toList,"Accept-Encoding".toList)]

theorem typeOnce (type : Text) : onceValues [(contentType,type)] = [[type],[],[],[]] := rfl
theorem partOnce (range : Text) :
    onceValues [("Accept-Ranges".toList,"bytes".toList),(contentRangeName,range)] = [[],[],[range],[]] := rfl
theorem noneOnce (range : Text) : onceValues [(contentRangeName,range)] = [[],[],[range],[]] := rfl
theorem finishOnce (length date : Text) :
    onceValues [("Content-Length".toList,length),("Last-Modified".toList,date)] = [[],[length],[],[]] := rfl
theorem gzipOnce : onceValues gzipHeaders = [[],[],[],["gzip".toList]] := rfl

/-! The pattern -/

theorem singleMatches {range : Text} {m : Text × Text} (is : single range = some m) : matchRange false range = some m := by
  unfold single at is
  split at is
  · rename_i starts
    cases range with
    | nil => cases starts
    | cons c s =>
      have tail : digitsTail (s.drop 5) = some m := is
      unfold matchRange
      rw [starts,Bool.not_false,Bool.true_and,if_pos rfl,tail]
  · cases is

theorem singleNone {range : Text} (none : matchRange false range = none) : single range = .none := by
  cases found : single range with
  | none => rfl
  | some m =>
    rw [singleMatches found] at none
    cases none

/-! One file -/

section
variable {time2str : Int → Text} {mimeType : Text → Option Text} {fs : Text → Option Node} {env : Env}

inductive Served (time2str : Int → Text) (env : Env) (h : Headers) (type : Text) (n : Node) : Res → Prop
  | whole (none : matchRange false env.range = none) :
      Served time2str env h type n (finish time2str env (h ++ [(contentType,type)]) 200 n 0 n.data.length)
  | part (m : Text × Text) (x y : Text) (first last : Nat) (found : matchRange false env.range = some m)
      (isX : Decimal.value x = first) (isY : Decimal.value y = last) (is : Satisfies m n.data.length (.part first last)) :
      Served time2str env h type n (finish time2str env (h ++ [(contentType,type)] ++
        [("Accept-Ranges".toList,"bytes".toList),(contentRangeName,contentRange x y n.data.length)]) 206 n first (last + 1 - first))
  | none (m : Text × Text) (found : matchRange false env.range = some m) (is : Satisfies m n.data.length .unsatisfiable) :
      Served time2str env h type n ⟨416,h ++ [(contentType,type)] ++
        [(contentRangeName,"bytes */".toList ++ Decimal.render n.data.length)],.none⟩

theorem serveServed {path : Text} {n : Node} (is : opened fs env path = .ok n) (modified : notModified time2str env n = false)
    (h : Headers) (type : Text) : ∃ res,serve time2str fs env h path type = (res,res.headers) ∧ Served time2str env h type n res := by
  unfold serve
  simp only [is,modified,Bool.false_eq_true,if_false]
  split
  · exact ⟨_,rfl,.whole ‹_›⟩
  · rename_i beg last found
    have set := setUp (beg,last) n.data.length (h ++ [(contentType,type)])
    dsimp only at set
    generalize result : setupRange (h ++ [(contentType,type)]) beg last n.data.length = ranged at set
    have same : setupRange (h ++ [("Content-Type".toList,type)]) beg last n.data.length = ranged := result
    rw [same]
    cases set with
    | part x y off first last isX isY starts is' =>
      refine ⟨_,rfl,?_⟩
      have off' : off.num.toNat = first := by omega
      rw [off']
      exact .part (beg,_) x y first last found isX isY is'
    | none is' => exact ⟨_,rfl,.none (beg,last) found is'⟩

theorem fileCarries (n : Node) {off len : Nat} (inside : off + len ≤ n.data.length) :
    Carries env (slice n.data off len) (fileBody env n off len) := by
  unfold fileBody
  split
  · exact ‹_›
  · rename_i get
    exact ⟨Bool.not_eq_true _ ▸ get,rfl,emitted inside⟩

theorem servedAnswered {h : Headers} {type : Text} {n : Node} {res : Res} {encoding : List Text} (fresh : Fresh h) (exact : Exact env)
    (is : Served time2str env h type n res) {h' : Headers} (added : onceValues h' = [[],[],[],encoding])
    (one : encoding.length ≤ 1) :
    (∃ answer,Prescribed env.range n.data.length answer ∧ Answered env n.data { res with headers := res.headers ++ h' } answer) ∧
      values (res.headers ++ h') contentEncoding = encoding ∧ ∀ vs ∈ onceValues (res.headers ++ h'),vs.length ≤ 1 := by
  have none := freshOnce fresh
  cases is with
  | whole unfound =>
    have once : onceValues ((finish time2str env (h ++ [(contentType,type)]) 200 n 0 n.data.length).headers ++ h') =
        [[type],[Decimal.render n.data.length],[],encoding] := by
      unfold finish
      rw [onceAppend,onceAppend,onceAppend,none,typeOnce,finishOnce,added]
      rfl
    obtain ⟨_,length,range,encoded⟩ := onceEach once
    refine ⟨⟨.whole,?_,rfl,length,range,?_⟩,encoded,?_⟩
    · unfold Prescribed
      rw [singleNone unfound]
    · have carries := @fileCarries env n 0 n.data.length (by omega)
      rwa [show slice n.data 0 n.data.length = n.data from List.take_length] at carries
    · rw [once]
      simpa using one
  | part m x y first last found isX isY is =>
    have once : onceValues ((finish time2str env (h ++ [(contentType,type)] ++ [("Accept-Ranges".toList,"bytes".toList),
        (contentRangeName,contentRange x y n.data.length)]) 206 n first (last + 1 - first)).headers ++ h') =
        [[type],[Decimal.render (last + 1 - first)],[contentRange x y n.data.length],encoding] := by
      unfold finish
      rw [onceAppend,onceAppend,onceAppend,onceAppend,none,typeOnce,partOnce,finishOnce,added]
      rfl
    obtain ⟨_,length,range,encoded⟩ := onceEach once
    have order := is.1
    have inside := ((is.2 last).mp ⟨order,Nat.le_refl _⟩).1
    refine ⟨⟨.part first last,?_,rfl,length,⟨x,y,isX,isY,range⟩,fileCarries n (by omega)⟩,encoded,?_⟩
    · unfold Prescribed
      rw [exact m found]
      exact is
    · rw [once]
      simpa using one
  | none m found is =>
    have once : onceValues (h ++ [(contentType,type)] ++ [(contentRangeName,"bytes */".toList ++ Decimal.render n.data.length)] ++ h') =
        [[type],[],["bytes */".toList ++ Decimal.render n.data.length],encoding] := by
      rw [onceAppend,onceAppend,onceAppend,none,typeOnce,noneOnce,added]
      rfl
    obtain ⟨_,length,range,encoded⟩ := onceEach once
    refine ⟨⟨.unsatisfiable,?_,rfl,length,range,rfl⟩,encoded,?_⟩
    · unfold Prescribed
      rw [exact m found]
      exact is
    · rw [once]
      simpa using one

theorem servedTwice {h : Headers} {type : Text} {n : Node} {res : Res} (before : [type] = values h contentType)
    (is : Served time2str env h type n res) : values res.headers contentType = [type,type] := by
  have two : ∀ h',values h' contentType = [] → values (h ++ [(contentType,type)] ++ h') contentType = [type,type] := by
    intro h' other
    rw [valuesAppend,valuesAppend,other,← before]
    rfl
  cases is with
  | whole => exact two _ (onceEach (finishOnce _ _)).1
  | part m x y first last =>
    unfold finish
    rw [List.append_assoc]
    exact two _ (by rw [valuesAppend,(onceEach (partOnce _)).1,(onceEach (finishOnce _ _)).1]; rfl)
  | none => exact two _ (onceEach (noneOnce _)).1

theorem servedFound {h : Headers} {type : Text} {n : Node} {res : Res} (is : Served time2str env h type n res) (ok : res.code = 200) :
    matchRange false env.range = none := by
  cases is with
  | whole unfound => exact unfound
  | part => cases ok
  | none => cases ok

theorem satisfiesOne {m : Text × Text} {size first last : Nat} (part : Satisfies m size (.part first last)) :
    ¬Satisfies m size .unsatisfiable := by
  intro none
  obtain ⟨inside,denotes⟩ := (part.2 first).mp ⟨Nat.le_refl _,part.1⟩
  exact none first inside denotes

theorem servedNone {h : Headers} {type : Text} {n : Node} {res : Res} (is : Served time2str env h type n res) :
    res.code > 300 ∨ res.code < 200 ↔ ∃ m,matchRange false env.range = some m ∧ Satisfies m n.data.length .unsatisfiable := by
  cases is with
  | whole unfound =>
    refine ⟨fun code => ?_,fun ⟨m,found,_⟩ => ?_⟩
    · have code : 200 > 300 ∨ 200 < 200 := code
      omega
    · rw [unfound] at found
      cases found
  | part m x y first last found _ _ is =>
    refine ⟨fun code => ?_,fun ⟨m',found',missing⟩ => ?_⟩
    · have code : 206 > 300 ∨ 206 < 200 := code
      omega
    · rw [found] at found'
      cases found'
      exact absurd missing (satisfiesOne is)
  | none m found is => exact ⟨fun _ => ⟨m,found,is⟩,fun _ => .inl (show 416 > 300 by omega)⟩

end

end PublicInbox.WwwStatic
