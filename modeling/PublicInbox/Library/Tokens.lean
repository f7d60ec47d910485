import PublicInbox.Library.Feed

/-! Readers that cut tokens off the front of a stream, and how they compose. -/
namespace Feed
variable {α β γ : Type}

abbrev Reader (α β : Type) := List α → Option (β × List α)

def nothing (b : β) : Reader α β := fun buf => some (b,buf)

def andThen (first : Reader α β) (next : β → Reader α γ) : Reader α γ := fun buf => (first buf).bind fun (b,rest) => next b rest

def given (f : β → γ) (take : Reader α β) : Reader α γ := fun buf => (take buf).map fun (b,rest) => (f b,rest)

def count (n : Nat) : Reader α (List α) := fun buf => if buf.length < n then none else some (buf.take n,buf.drop n)

theorem andThenFound {first : Reader α β} {next : β → Reader α γ} {buf rest : List α} {b : β} (found : first buf = some (b,rest)) :
    andThen first next buf = next b rest := by
  rw [andThen,found]
  rfl

theorem andThenNone {first : Reader α β} {next : β → Reader α γ} {buf : List α} (none : first buf = .none) : andThen first next buf = .none := by
  rw [andThen,none]
  rfl

theorem nothingTakes (b : β) : Takes (nothing b : Reader α β) [] b where
  whole := fun _ => rfl
  part := fun is some => absurd (List.append_eq_nil_iff.mp is.symm).2 some

theorem Takes.andThen {first : Reader α β} {next : β → Reader α γ} {t u : List α} {b : β} {c : γ} (takes : Takes first t b)
    (then' : Takes (next b) u c) : Takes (Feed.andThen first next) (t ++ u) c where
  whole := by
    intro more
    rw [List.append_assoc,andThenFound (takes.whole _)]
    exact then'.whole more
  part := by
    intro buf rest is some
    rcases takes.cases is.symm with ⟨left,found,_,follows⟩ | ⟨none,_⟩
    · rw [andThenFound found]
      exact then'.part follows.symm some
    · exact andThenNone none

theorem Takes.given {take : Reader α β} {t : List α} {b : β} (takes : Takes take t b) (f : β → γ) : Takes (Feed.given f take) t (f b) where
  whole := fun more => by rw [Feed.given,takes.whole]; rfl
  part := fun is some => by rw [Feed.given,takes.part is some]; rfl

theorem countTakes (t : List α) : Takes (count t.length) t t where
  whole := by
    intro more
    rw [count,if_neg (by simp),List.take_left,List.drop_left]
  part := by
    intro buf rest is some
    have longer : buf.length < t.length := by
      rw [is,List.length_append]
      exact Nat.lt_add_of_pos_right (List.length_pos_iff.mpr some)
    rw [count,if_pos longer]

end Feed
