import Mathlib.Data.List.Infix

/-! A reader that is fed a stream piece by piece. Between two reads it works on what it has in a
buffer; every round of that work makes the buffer shorter or asks for more. The rules for its
runs, and the tokens it cuts off the front of the buffer. -/
namespace Feed
variable {σ α β π ω : Type}

inductive Turn (σ ω : Type) where
  | more (s : σ)
  | read (s : σ)
  | done (w : ω)
  deriving DecidableEq

inductive Recv (α π : Type) where
  | data (bs : List α)
  | again (why : π)
  | error
  deriving DecidableEq

def Recv.bytes : Recv α π → List α
  | .data bs => bs
  | .again _ | .error => []

def Recv.Live : Recv α π → Prop
  | .data bs => bs ≠ []
  | .again _ => True
  | .error => False

inductive End (σ ω : Type) where
  | waits (s : σ)
  | gone (s : σ)
  | done (w : ω)
  deriving DecidableEq

structure Machine (σ α π ω : Type) where
  turn : σ → Turn σ ω
  feed : σ → List α → σ
  -- Put away until there is more to read, and taken up again
  resume : π → σ → σ
  size : σ → Nat
  shrinks : ∀ {s s'},turn s = .more s' → size s' < size s

namespace Machine
variable (m : Machine σ α π ω)

def pump : Nat → σ → Turn σ ω
  | 0, s => .more s
  | n + 1, s => match m.turn s with
    | .more s' => pump n s'
    | t => t

def settle (s : σ) : Turn σ ω := m.pump (m.size s + 1) s

def drive : List (Recv α π) → σ → End σ ω × List (Recv α π)
  | rs, s => match m.settle s with
    | .done w => (.done w,rs)
    | .more s' | .read s' => match rs with
      | [] => (.waits s',[])
      | .again why :: rs => drive rs (m.resume why s')
      | .error :: rs | .data [] :: rs => (.gone s',rs)
      | .data bs :: rs => drive rs (m.feed s' bs)

variable {m}

theorem pumpTurn {p : σ → Prop} (more : ∀ {s s'},p s → m.turn s = .more s' → p s') :
    ∀ n s,m.size s < n → p s → ∃ t,p t ∧ m.turn t = m.pump n s ∧ ∀ s',m.pump n s ≠ .more s' := by
  intro n
  induction n with
  | zero => exact fun s fuel => absurd fuel (Nat.not_lt_zero _)
  | succ n ih =>
    intro s fuel start
    cases turn : m.turn s with
    | more s' =>
      simp only [pump,turn]
      exact ih s' (Nat.lt_of_lt_of_le (m.shrinks turn) (Nat.le_of_lt_succ fuel)) (more start turn)
    | read s' =>
      simp only [pump,turn]
      exact ⟨s,start,turn,by simp⟩
    | done w =>
      simp only [pump,turn]
      exact ⟨s,start,turn,by simp⟩

theorem settleTurn {p : σ → Prop} (more : ∀ {s s'},p s → m.turn s = .more s' → p s') {s : σ} (start : p s) :
    ∃ t,p t ∧ m.turn t = m.settle s ∧ ∀ s',m.settle s ≠ .more s' :=
  pumpTurn more _ s (Nat.lt_succ_self _) start

theorem reaches (inv : σ → List α → Prop) {post : ω → List α → Prop}
    (step : ∀ {u s},inv s u → (∃ s',m.turn s = .more s' ∧ inv s' u) ∨
      (∃ s',m.turn s = .read s' ∧ inv s' u ∧ u ≠ []) ∨ ∃ w,m.turn s = .done w ∧ post w u)
    (fed : ∀ {u s bs},inv s (bs ++ u) → inv (m.feed s bs) u)
    (resumed : ∀ {u s why},inv s u → inv (m.resume why s) u)
    {rs : List (Recv α π)} {s : σ} (live : ∀ r ∈ rs,r.Live) (start : inv s (rs.flatMap Recv.bytes)) :
    ∃ w left,m.drive rs s = (.done w,left) ∧ left <:+ rs ∧ post w (left.flatMap Recv.bytes) := by
  have more : ∀ {u s s'},inv s u → m.turn s = .more s' → inv s' u := by
    intro u s s' here turn
    rcases step here with ⟨t,is,met⟩ | ⟨t,is,-⟩ | ⟨w,is,-⟩ <;> cases turn.symm.trans is
    exact met
  have read : ∀ {u s s'},inv s u → m.turn s = .read s' → inv s' u ∧ u ≠ [] := by
    intro u s s' here turn
    rcases step here with ⟨t,is,-⟩ | ⟨t,is,met⟩ | ⟨w,is,-⟩ <;> cases turn.symm.trans is
    exact met
  have done : ∀ {u s w},inv s u → m.turn s = .done w → post w u := by
    intro u s w here turn
    rcases step here with ⟨t,is,-⟩ | ⟨t,is,-⟩ | ⟨v,is,met⟩ <;> cases turn.symm.trans is
    exact met
  induction rs generalizing s with
  | nil =>
    obtain ⟨t,here,turn,settled⟩ := settleTurn more start
    cases is : m.settle s with
    | more s' => exact absurd is (settled s')
    | read s' => exact absurd rfl (read here (turn.trans is)).2
    | done w => exact ⟨w,[],by rw [drive,is],List.suffix_refl _,done here (turn.trans is)⟩
  | cons r rs ih =>
    obtain ⟨t,here,turn,settled⟩ := settleTurn more start
    cases is : m.settle s with
    | more s' => exact absurd is (settled s')
    | done w => exact ⟨w,r :: rs,by rw [drive,is],List.suffix_refl _,done here (turn.trans is)⟩
    | read s' =>
      have waiting := (read here (turn.trans is)).1
      have later : ∀ x ∈ rs,x.Live := fun x mem => live x (List.mem_cons_of_mem _ mem)
      cases r with
      | error => exact absurd (live _ List.mem_cons_self) id
      | again why =>
        obtain ⟨w,left,ends,suffix,met⟩ := ih later (resumed waiting)
        exact ⟨w,left,by rw [drive,is]; exact ends,suffix.trans (List.suffix_cons _ _),met⟩
      | data bs =>
        cases bs with
        | nil => exact absurd rfl (live _ List.mem_cons_self)
        | cons b bs =>
          obtain ⟨w,left,ends,suffix,met⟩ := ih later (fed waiting)
          exact ⟨w,left,by rw [drive,is]; exact ends,suffix.trans (List.suffix_cons _ _),met⟩

theorem ends (inv : List α → σ → Prop) {stop : List α → End σ ω → Prop}
    (more : ∀ {c s s'},inv c s → m.turn s = .more s' → inv c s')
    (read : ∀ {c s s'},inv c s → m.turn s = .read s' → inv c s')
    (waits : ∀ {c s s'},inv c s → m.turn s = .read s' → stop c (.waits s') ∧ stop c (.gone s'))
    (done : ∀ {c s w},inv c s → m.turn s = .done w → stop c (.done w))
    (fed : ∀ {c s bs},inv c s → inv (c ++ bs) (m.feed s bs))
    (resumed : ∀ {c s why},inv c s → inv c (m.resume why s))
    {rs : List (Recv α π)} {c : List α} {s : σ} (start : inv c s) :
    ∃ taken,taken ++ (m.drive rs s).2 = rs ∧ stop (c ++ taken.flatMap Recv.bytes) (m.drive rs s).1 := by
  induction rs generalizing c s with
  | nil =>
    obtain ⟨t,here,turn,settled⟩ := settleTurn more start
    rw [drive]
    cases is : m.settle s with
    | more s' => exact absurd is (settled s')
    | read s' => exact ⟨[],rfl,by simpa using (waits here (turn.trans is)).1⟩
    | done w => exact ⟨[],rfl,by simpa using done here (turn.trans is)⟩
  | cons r rs ih =>
    obtain ⟨t,here,turn,settled⟩ := settleTurn more start
    rw [drive]
    cases is : m.settle s with
    | more s' => exact absurd is (settled s')
    | done w => exact ⟨[],rfl,by simpa using done here (turn.trans is)⟩
    | read s' =>
      have waiting := read here (turn.trans is)
      have gone := (waits here (turn.trans is)).2
      cases r with
      | error => exact ⟨[.error],rfl,by simpa [Recv.bytes] using gone⟩
      | again why =>
        obtain ⟨taken,all,met⟩ := ih (resumed waiting)
        exact ⟨.again why :: taken,congrArg _ all,met⟩
      | data bs =>
        cases bs with
        | nil => exact ⟨[.data []],rfl,by simpa [Recv.bytes] using gone⟩
        | cons b bs =>
          obtain ⟨taken,all,met⟩ := ih (@fed _ _ (b :: bs) waiting)
          exact ⟨.data (b :: bs) :: taken,congrArg _ all,by simpa [Recv.bytes,List.append_assoc] using met⟩

end Machine

structure Takes (take : List α → Option (β × List α)) (token : List α) (b : β) : Prop where
  whole : ∀ more,take (token ++ more) = some (b,more)
  part : ∀ {buf rest},token = buf ++ rest → rest ≠ [] → take buf = none

theorem Takes.cases {take : List α → Option (β × List α)} {token : List α} {b : β} (takes : Takes take token b)
    {buf unread more : List α} (text : buf ++ unread = token ++ more) :
    (∃ left,take buf = some (b,left) ∧ left.length + token.length = buf.length ∧ left ++ unread = more) ∨
      (take buf = none ∧ buf.length < token.length ∧ unread ≠ []) := by
  rcases List.append_eq_append_iff.mp text with ⟨rest,is,follows⟩ | ⟨left,is,follows⟩
  · cases rest with
    | nil =>
      rw [List.append_nil] at is
      subst is
      exact .inl ⟨[],by simpa using takes.whole [],by simp,follows⟩
    | cons c rest =>
      exact .inr ⟨takes.part is (by simp),by simp [is],by simp [follows]⟩
  · subst is
    exact .inl ⟨left,takes.whole left,by simp [Nat.add_comm],follows.symm⟩

end Feed
