import PublicInbox.WwwStatic.Served

/-! Whether a response honours the Range header: that of the file, or of the other file that is tried before it. -/
namespace PublicInbox.WwwStatic

section
variable (fs : Text → Option Node) (env : Env)

def sibling (path : Text) : Option Node :=
  if acceptsGzip false env.acceptEncoding && !isGz path then
    match fs path,fs (gzPath path) with
    | some n,some gz => if n.regular && gz.regular && gz.mtime == n.mtime then some gz else none
    | _,_ => none
  else none

structure Honoured (path : Text) (n : Node) (res : Res) : Prop where
  served : ∃ f answer,(f = n ∧ values res.headers contentEncoding = [] ∨
      sibling fs env path = some f ∧ values res.headers contentEncoding = ["gzip".toList]) ∧
    Prescribed env.range f.data.length answer ∧ Answered env f.data res answer
  once : ∀ name ∈ onceNames,(values res.headers name).length ≤ 1

def Spoiled (path : Text) : Prop :=
  ∃ gz m,sibling fs env path = some gz ∧ opened fs env (gzPath path) = .ok gz ∧ matchRange false env.range = some m ∧
    Satisfies m gz.data.length .unsatisfiable

end

def gzipped (res : Res) : Res := { res with headers := res.headers ++ gzipHeaders }

section
variable {time2str : Int → Text} {mimeType : Text → Option Text} {fs : Text → Option Node} {env : Env}

/-! The attempt at the other file -/

theorem openedIs {path : Text} {n : Node} (is : opened fs env path = .ok n) : fs path = some n ∧ n.regular = true := by
  unfold opened at is
  generalize fs path = found at is
  cases found with
  | none => cases is
  | some n' =>
    dsimp only at is
    split at is
    · split at is
      · rename_i good
        cases is
        exact ⟨rfl,(Bool.and_eq_true_iff.mp good).1⟩
      · cases is
    · split at is
      · cases is
      · split at is
        · cases is
          exact ⟨rfl,‹_›⟩
        · cases is

theorem openedRefused {path : Text} {code : Nat} (is : opened fs env path = .error code) : code > 300 := by
  unfold opened at is
  split at is
  · cases is
    omega
  · split at is
    · split at is <;> cases is
      omega
    · split at is
      · cases is
        split
        · omega
        · split <;> omega
      · split at is <;> cases is
        omega

theorem tryNone {path : Text} (other : isGz path = false) (none : sibling fs env path = none)
    (h : Headers) (type : Text) : tryGzipStatic time2str fs env h path type = .error h := by
  unfold sibling at none
  unfold tryGzipStatic
  rw [other,Bool.not_false,Bool.and_true] at none
  split
  · rw [if_pos ‹_›] at none
    split
    · rename_i n' gz isN isGz
      rw [isN,isGz] at none
      dsimp only at none
      split at none
      · cases none
      · rw [if_neg ‹_›]
    · rfl
  · rfl

theorem trySome {path : Text} {n gz : Node} (is : opened fs env path = .ok n) (found : sibling fs env path = some gz) (h : Headers)
    (type : Text) : isGz path = false ∧ fs (gzPath path) = some gz ∧ gz.mtime = n.mtime ∧
    tryGzipStatic time2str fs env h path type =
      let (res,h) := serve time2str fs env h (gzPath path) type
      if res.code > 300 ∨ res.code < 200 then .error h
      else .ok (gzipped res) := by
  unfold sibling at found
  rw [(openedIs is).1] at found
  unfold tryGzipStatic
  rw [(openedIs is).1]
  split at found
  · rename_i accepted
    obtain ⟨accepts,other⟩ := Bool.and_eq_true_iff.mp accepted
    rw [if_pos accepts]
    generalize fs (gzPath path) = gz' at found
    cases gz' with
    | none => cases found
    | some gz' =>
      dsimp only at found
      split at found
      · rename_i same
        cases found
        refine ⟨Bool.not_eq_true' _ ▸ other,rfl,?_,if_pos same⟩
        exact beq_iff_eq.mp (Bool.and_eq_true_iff.mp same).2
      · cases found
  · cases found

theorem notSpoiled {path : Text} (none : sibling fs env path = none) : ¬Spoiled fs env path := by
  rintro ⟨gz,m,found,_⟩
  rw [none] at found
  cases found

inductive Responded (time2str : Int → Text) (fs : Text → Option Node) (env : Env) (h : Headers) (path type : Text) (n : Node) : Res → Prop
  | plain (clean : ¬Spoiled fs env path) (res : Res) (is : Served time2str env h type n res) :
      Responded time2str fs env h path type n res
  | gz (clean : ¬Spoiled fs env path) (gz : Node) (found : sibling fs env path = some gz) (res : Res)
      (is : Served time2str env h type gz res) : Responded time2str fs env h path type n (gzipped res)
  | again (spoiled : Spoiled fs env path) (h' : Headers) (before : [type] = values h' contentType) (res : Res)
      (is : Served time2str env h' type n res) : Responded time2str fs env h path type n res

theorem servedType {h : Headers} {type : Text} {n : Node} {res : Res} (fresh : Fresh h) (is : Served time2str env h type n res)
    (code : res.code > 300 ∨ res.code < 200) : [type] = values res.headers contentType := by
  have none := fresh contentType List.mem_cons_self
  cases is with
  | whole =>
    have code : 200 > 300 ∨ 200 < 200 := code
    omega
  | part =>
    have code : 206 > 300 ∨ 206 < 200 := code
    omega
  | none =>
    rw [valuesAppend,valuesAppend,none,(onceEach (noneOnce _)).1]
    rfl

theorem responded {path : Text} {n : Node} (is : opened fs env path = .ok n) (modified : notModified time2str env n = false)
    {h : Headers} (fresh : Fresh h) (type : Option Text) :
    Responded time2str fs env h path (type.getD ((mimeType path).getD "application/octet-stream".toList)) n
      (response time2str mimeType fs env h path type) := by
  unfold response
  generalize type.getD ((mimeType path).getD "application/octet-stream".toList) = type
  have plain : ∀ h',∃ res,(serve time2str fs env h' path type).1 = res ∧ Served time2str env h' type n res := by
    intro h'
    obtain ⟨res,same,served⟩ := serveServed is modified h' type
    exact ⟨res,congrArg Prod.fst same,served⟩
  obtain ⟨res,same,served⟩ := plain h
  dsimp only
  split
  · rename_i ends
    have none : sibling fs env path = none := by
      unfold sibling
      rw [ends,Bool.not_true,Bool.and_false]
      rfl
    rw [same]
    exact .plain (notSpoiled none) res served
  · rename_i ends
    have other : isGz path = false := Bool.not_eq_true _ ▸ ends
    cases found : sibling fs env path with
    | none =>
      rw [tryNone other found]
      dsimp only
      rw [same]
      exact .plain (notSpoiled found) res served
    | some gz =>
      obtain ⟨_,isGz,mtime,attempt⟩ := @trySome time2str fs env path n gz is found h type
      rw [attempt]
      cases open' : opened fs env (gzPath path) with
      | error code =>
        have refused : serve time2str fs env h (gzPath path) type = (r code,h) := by
          unfold serve
          rw [open']
        have clean : ¬Spoiled fs env path := by
          rintro ⟨gz',m,_,opens,_⟩
          rw [open'] at opens
          cases opens
        rw [refused]
        dsimp only
        rw [if_pos (.inl (openedRefused open'))]
        dsimp only
        rw [same]
        exact .plain clean res served
      | ok gz' =>
        have one : gz' = gz := Option.some.inj ((openedIs open').1.symm.trans isGz)
        subst one
        have modified' : notModified time2str env gz' = false := by
          unfold notModified at modified ⊢
          rw [mtime]
          exact modified
        obtain ⟨first,made,served'⟩ := serveServed open' modified' h type
        rw [made]
        dsimp only
        by_cases code : first.code > 300 ∨ first.code < 200
        · rw [if_pos code]
          dsimp only
          obtain ⟨m,matched,none⟩ := (servedNone served').mp code
          obtain ⟨last,same',served''⟩ := plain first.headers
          rw [same']
          exact .again ⟨gz',m,found,open',matched,none⟩ first.headers (servedType fresh served' code) last served''
        · rw [if_neg code]
          refine .gz ?_ gz' found first served'
          rintro ⟨gz,m,found',_,matched,none⟩
          rw [found] at found'
          cases found'
          exact code ((servedNone served').mpr ⟨m,matched,none⟩)

/- Every response for a file that is opened, whatever is pushed before -/
theorem rangeHonoured (time2str : Int → Text) (mimeType : Text → Option Text) (fs : Text → Option Node) (env : Env) (h : Headers)
    (path : Text) (type : Option Text) (n : Node) (is : opened fs env path = .ok n) (modified : notModified time2str env n = false)
    (fresh : Fresh h) : Honoured fs env path n (response time2str mimeType fs env h path type) ↔ Exact env ∧ ¬Spoiled fs env path := by
  have made := @responded time2str mimeType fs env path n is modified h fresh type
  generalize type.getD ((mimeType path).getD "application/octet-stream".toList) = type' at made
  generalize response time2str mimeType fs env h path type = res at made
  constructor
  · rintro ⟨⟨f,answer,_,prescribed,answered⟩,once⟩
    refine ⟨fun m found => ?_,fun spoiled => ?_⟩
    · cases alone : single env.range with
      | some m' => rw [← found,singleMatches alone]
      | none =>
        -- All there would be for it is the whole file.
        unfold Prescribed at prescribed
        rw [alone] at prescribed
        subst prescribed
        have unfound : matchRange false env.range = none := by
          cases made with
          | plain _ res is => exact servedFound is answered.1
          | gz _ gz _ res is => exact servedFound is answered.1
          | again _ h' _ res is => exact servedFound is answered.1
        rw [unfound] at found
        cases found
    · cases made with
      | plain clean => exact clean spoiled
      | gz clean => exact clean spoiled
      | again _ h' before res is =>
        have short := once contentType List.mem_cons_self
        rw [servedTwice before is] at short
        exact absurd short (by simp)
  · rintro ⟨exact,clean⟩
    cases made with
    | plain _ res is =>
      obtain ⟨⟨answer,prescribed,answered⟩,encoding,once⟩ := @servedAnswered _ env h _ n res [] fresh exact is [] rfl (Nat.zero_le _)
      rw [List.append_nil] at answered encoding once
      exact ⟨⟨n,answer,.inl ⟨rfl,encoding⟩,prescribed,answered⟩,(onceIff _).mpr once⟩
    | gz _ gz found res is =>
      obtain ⟨⟨answer,prescribed,answered⟩,encoding,once⟩ := servedAnswered fresh exact is gzipOnce (Nat.le_refl _)
      exact ⟨⟨gz,answer,.inr ⟨found,encoding⟩,prescribed,answered⟩,(onceIff _).mpr once⟩
    | again spoiled => exact absurd spoiled clean

end

/-! A file, and the same one compressed -/

def epoch : Int → Text := fun _ => "Thu, 01 Jan 1970 00:00:00 GMT".toList

def plainNode : Node := ⟨true,true,none,0,[104,101,108,108,111]⟩
def gzNode : Node := ⟨true,true,none,0,[31,139]⟩

def twoFiles (path : Text) : Option Node :=
  if path = "hello".toList then some plainNode else if path = "hello.gz".toList then some gzNode else none

def asks (encoding range : Text) : Env := ⟨false,encoding,[],range⟩

theorem rangeHonouredHello : Honoured twoFiles (asks [] "bytes=1-2".toList) "hello".toList plainNode
    (response epoch (fun _ => none) twoFiles (asks [] "bytes=1-2".toList) [] "hello".toList none) := by
  refine (rangeHonoured epoch (fun _ => none) twoFiles (asks [] "bytes=1-2".toList) [] "hello".toList none plainNode
    rfl rfl fun _ _ => rfl).mpr ⟨fun m found => ?_,notSpoiled rfl⟩
  cases found
  rfl

/- There is no fourth byte of the other file: the type is in what was pushed for it, too. -/
theorem helloTwice : opened twoFiles (asks "gzip".toList "bytes=3-4".toList) "hello".toList = .ok plainNode ∧
    notModified epoch (asks "gzip".toList "bytes=3-4".toList) plainNode = false ∧ Fresh [] ∧
    ¬Honoured twoFiles (asks "gzip".toList "bytes=3-4".toList) "hello".toList plainNode
      (response epoch (fun _ => none) twoFiles (asks "gzip".toList "bytes=3-4".toList) [] "hello".toList none) := by
  refine ⟨rfl,rfl,fun _ _ => rfl,fun honoured => ?_⟩
  have short := honoured.once contentType List.mem_cons_self
  have twice : (values (response epoch (fun _ => none) twoFiles (asks "gzip".toList "bytes=3-4".toList) [] "hello".toList none).headers
    contentType).length = 2 := by decide +kernel
  omega

end PublicInbox.WwwStatic
