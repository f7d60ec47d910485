import Mathlib.Data.List.Basic

/-! Streams of words in which every value follows a tag but nothing marks its end: a value
ends where what follows could be the next tag. Such a stream has one reading as long as no
value can be cut so that the rest of it reads as what may follow. -/
namespace Tagged
variable {T W : Type}

/- `next t w`: the tag `w` may follow a value tagged `t` (none at the start). `close t X`: the
fields may end after a value tagged `t`, with `X` behind them. -/
structure Grammar (T W : Type) where
  word : T → W
  next : Option T → T → Prop
  close : Option T → List W → Prop

def Grammar.Follows (g : Grammar T W) (t : Option T) (X : List W) : Prop :=
  (∃ w Y, X = g.word w :: Y ∧ g.next t w) ∨ g.close t X

def Quiet (R : List W → Prop) (v : List W) : Prop :=
  ∀ a b, v = a ++ b → a ≠ [] → b ≠ [] → ∀ Y, R Y → ¬ R (b ++ Y)

theorem quietUnique {R : List W → Prop} {v w X Y : List W} (hv : Quiet R v) (hw : Quiet R w)
    (someV : v ≠ []) (someW : w ≠ []) (restX : R X) (restY : R Y) (same : v ++ X = w ++ Y) :
    v = w ∧ X = Y := by
  rcases List.append_eq_append_iff.mp same with ⟨b,cut,rest⟩ | ⟨b,cut,rest⟩
  · rcases eq_or_ne b [] with none | more
    · subst none
      exact ⟨by simpa using cut.symm,by simpa using rest⟩
    · exact absurd (rest ▸ restX) (hw v b cut someV more Y restY)
  · rcases eq_or_ne b [] with none | more
    · subst none
      exact ⟨by simpa using cut,by simpa using rest.symm⟩
    · exact absurd (rest ▸ restY) (hv w b cut someW more X restX)

section
variable (word : T → W)

def render (fields : List (T × List W)) (rest : List W) : List W :=
  fields.foldr (fun f X => word f.1 :: (f.2 ++ X)) rest

@[simp] theorem renderNil (rest : List W) : render word [] rest = rest := rfl

@[simp] theorem renderCons (f : T × List W) (fields : List (T × List W)) (rest : List W) :
    render word (f :: fields) rest = word f.1 :: (f.2 ++ render word fields rest) := rfl

theorem renderAppend (fs gs : List (T × List W)) (rest : List W) :
    render word (fs ++ gs) rest = render word fs (render word gs rest) := by
  simp [render]

end

section
variable (g : Grammar T W)

def Reads : Option T → List (T × List W) → List W → Prop
  | t, [], rest => g.close t rest
  | t, f :: fields, rest => g.next t f.1 ∧ f.2 ≠ [] ∧ Quiet (g.Follows (some f.1)) f.2 ∧
    Reads (some f.1) fields rest

variable {g}

theorem readsFollows {t : Option T} {fields : List (T × List W)} {rest : List W}
    (reads : Reads g t fields rest) : g.Follows t (render g.word fields rest) := by
  cases fields with
  | nil => exact Or.inr reads
  | cons f fields => exact Or.inl ⟨f.1,_,rfl,reads.1⟩

theorem readsUnique (inj : Function.Injective g.word)
    (apart : ∀ t w Y, g.next t w → ¬ g.close t (g.word w :: Y)) {t : Option T}
    {fs gs : List (T × List W)} {X Y : List W} (left : Reads g t fs X) (right : Reads g t gs Y)
    (same : render g.word fs X = render g.word gs Y) : fs = gs ∧ X = Y := by
  induction fs generalizing t gs with
  | nil => cases gs with
    | nil => exact ⟨rfl,same⟩
    | cons f gs =>
      have closed : g.close t X := left
      rw [show X = g.word f.1 :: (f.2 ++ render g.word gs Y) from same] at closed
      exact absurd closed (apart t f.1 _ right.1)
  | cons f fs ih => cases gs with
    | nil =>
      have closed : g.close t Y := right
      rw [← show g.word f.1 :: (f.2 ++ render g.word fs X) = Y from same] at closed
      exact absurd closed (apart t f.1 _ left.1)
    | cons h gs =>
      obtain ⟨_,someF,quietF,left⟩ := left
      obtain ⟨_,someH,quietH,right⟩ := right
      simp only [renderCons,List.cons.injEq] at same
      obtain ⟨tag,same⟩ := same
      rw [← inj tag] at quietH right
      obtain ⟨value,rest⟩ := quietUnique quietF quietH someF someH
        (readsFollows left) (readsFollows right) same
      obtain ⟨fields,rest⟩ := ih left right rest
      exact ⟨by rw [fields,Prod.ext (inj tag) value],rest⟩

end

end Tagged
