import Mathlib.Data.List.Perm.Subperm
import PublicInbox.SearchThread

/-! Linking containers: after every reference followed, parents and children agree and no
container is above itself. -/
namespace PublicInbox.SearchThread
open Keyed
variable {t t' : Containers}

def childrenOf (t : Containers) (k : String) : List String := ((t.get? k).map Container.children).getD []

def contentOf (t : Containers) (k : String) : Option Content := (t.get? k).map Container.content

structure Forested (t : Containers) : Prop where
  acyclic : Forest.Acyclic (parentOf t)
  consistent : ∀ p c, c ∈ childrenOf t p ↔ parentOf t c = some p
  distinct : ∀ p, (childrenOf t p).Nodup

def Present (t : Containers) (k : String) : Prop := (t.get? k).isSome

theorem presentContent {k : String} : Present t k ↔ (contentOf t k).isSome := by
  unfold Present contentOf
  rw [Option.isSome_map]

theorem presentParent {k p : String} (under : parentOf t k = some p) : Present t k := by
  unfold parentOf at under
  unfold Present
  cases found : t.get? k with
  | none => simp [found] at under
  | some c => rfl

theorem presentChildren {k c : String} (mem : c ∈ childrenOf t k) : Present t k := by
  unfold childrenOf at mem
  unfold Present
  cases found : t.get? k with
  | none => simp [found] at mem
  | some c => rfl

theorem Forested.parentPresent (f : Forested t) {k p : String} (under : parentOf t k = some p) :
    Present t p := presentChildren ((f.consistent p k).mpr under)

theorem presentKeys {k : String} : Present t k ↔ k ∈ t.keys := by
  rw [Table.memKeys]
  exact Option.isSome_iff_exists

theorem climbAnswers (f : Forested t) (self : String) {fuel : Nat} {seen : List String} {child : String}
    (present : Present t child) (nodup : seen.Nodup) (inside : ∀ k ∈ seen, k ∈ t.keys)
    (below : ∀ k ∈ seen, ∃ p, parentOf t k = some p ∧ Forest.Climbs (parentOf t) p child)
    (enough : t.keys.length < fuel + seen.length) :
    ∃ b, climb t self fuel seen child = some b ∧
      (b = true ↔ Forest.Climbs (parentOf t) child self) := by
  induction fuel generalizing seen child with
  | zero =>
    have short := (List.Nodup.subperm nodup inside).length_le
    omega
  | succ fuel ih =>
    have unseen : child ∉ seen := by
      intro mem
      obtain ⟨p,under,climbs⟩ := below child mem
      exact Forest.noLoop f.acyclic under climbs
    by_cases same : self = child
    · exact ⟨true,by simp [climb,same],by rw [same]; exact iff_of_true rfl .refl⟩
    · cases up : parentOf t child with
      | none =>
        refine ⟨false,by simp [climb,same,unseen,up],?_⟩
        constructor
        · intro h
          contradiction
        · intro climbs
          rcases Relation.ReflTransGen.cases_head climbs with here | ⟨p,first,_⟩
          · exact absurd here.symm same
          · rw [up] at first
            contradiction
      | some p =>
        obtain ⟨b,run,iff⟩ := ih (f.parentPresent up)
          (show (child :: seen).Nodup from List.nodup_cons.mpr ⟨unseen,nodup⟩)
          (by
            intro k mem
            rcases List.mem_cons.mp mem with rfl | old
            · exact presentKeys.mp present
            · exact inside k old)
          (by
            intro k mem
            rcases List.mem_cons.mp mem with rfl | old
            · exact ⟨p,up,.refl⟩
            · obtain ⟨q,under,climbs⟩ := below k old
              exact ⟨q,under,climbs.tail up⟩)
          (by simp only [List.length_cons]; omega)
        refine ⟨b,by simpa [climb,same,unseen,up] using run,iff.trans ?_⟩
        constructor
        · exact fun climbs => .head up climbs
        · intro climbs
          rcases Relation.ReflTransGen.cases_head climbs with here | ⟨q,first,rest⟩
          · exact absurd here.symm same
          · cases first.symm.trans up
            exact rest

theorem hasDescendentAnswers (f : Forested t) (self : String) {child : String} (present : Present t child) :
    ∃ b, hasDescendent t self child = some b ∧
      (b = true ↔ Forest.Climbs (parentOf t) child self) :=
  climbAnswers f self present List.nodup_nil (by simp) (by simp) (by simp)

def Keeps (t t' : Containers) : Prop := ∀ k, Present t k → contentOf t' k = contentOf t k

theorem getDetach (t : Containers) (child k : String) :
    (detach t child).get? k = (t.get? k).map (fun c =>
      if parentOf t child = some k then { c with children := c.children.filter (fun j => j ≠ child) } else c) := by
  unfold detach
  cases up : parentOf t child with
  | none => simp
  | some u =>
    by_cases same : k = u
    · simp [same]
    · have other : u ≠ k := fun h => same h.symm
      simp [same,other]

def relinked (t : Containers) (self child k : String) (c : Container) : Container :=
  let cut := if parentOf t child = some k then c.children.filter (fun j => j ≠ child) else c.children
  ⟨c.content,if k = child then some self else c.parent,
    if k = self then (if child ∈ cut then cut else cut ++ [child]) else cut⟩

theorem getAddChild {self child : String} (differ : self ≠ child) :
    ∃ t', addChild t self child = some t' ∧
      ∀ k, t'.get? k = (t.get? k).map (relinked t self child k) := by
  refine ⟨_,if_neg differ,?_⟩
  intro k
  simp only [Table.getUpdate,getDetach]
  cases found : t.get? k with
  | none => simp
  | some c =>
    by_cases up : parentOf t child = some k
    · by_cases here : k = self
      · subst here
        simp [relinked,up,differ]
      · by_cases moved : k = child
        · subst moved
          simp [relinked,up,here]
        · simp [relinked,up,here,moved]
    · by_cases here : k = self
      · subst here
        simp [relinked,up,differ]
      · by_cases moved : k = child
        · subst moved
          simp [relinked,up,here]
        · simp [relinked,up,here,moved]

theorem addChildLinks (f : Forested t) {self child : String} (parent : Present t self)
    (present : Present t child) (apart : ¬ Forest.Climbs (parentOf t) self child) :
    ∃ t', addChild t self child = some t' ∧ Forested t' ∧ ∀ k, contentOf t' k = contentOf t k := by
  have differ : self ≠ child := fun same => apart (same ▸ .refl)
  obtain ⟨t',run,table⟩ := getAddChild (t := t) differ
  have up : ∀ x, parentOf t' x = if x = child then some self else parentOf t x := by
    intro x
    unfold parentOf
    rw [table x]
    by_cases same : x = child
    · subst same
      obtain ⟨c,found⟩ := Option.isSome_iff_exists.mp present
      simp [found,relinked]
    · cases t.get? x <;> simp [relinked,same]
  have down : ∀ p c, c ∈ childrenOf t' p ↔ if c = child then p = self else c ∈ childrenOf t p := by
    intro p c
    unfold childrenOf
    rw [table p]
    cases found : t.get? p with
    | none =>
      have other : p ≠ self := by
        rintro rfl
        simp [Present,found] at parent
      simp [other]
    | some cont =>
      have here : ∀ x, x ∈ cont.children ↔ parentOf t x = some p := fun x => by
        simpa [childrenOf,found] using f.consistent p x
      simp only [Option.map_some,Option.getD_some,relinked]
      by_cases moved : c = child
      · subst moved
        by_cases under : parentOf t c = some p
        · by_cases own : p = self
          · simp [own,under]
          · simp [own,under]
        · have absent : c ∉ cont.children := fun mem => under ((here c).mp mem)
          by_cases own : p = self
          · subst own
            simp [under,absent]
          · simp [own,under,absent]
      · by_cases under : parentOf t child = some p
        · by_cases own : p = self
          · simp [own,under,moved]
          · simp [own,under,moved]
        · by_cases own : p = self
          · subst own
            by_cases inside : child ∈ cont.children
            · simp [under,inside,moved]
            · simp [under,inside,moved]
          · simp [own,under,moved]
  refine ⟨t',run,⟨?_,?_,?_⟩,?_⟩
  · refine Forest.link f.acyclic apart (by rw [up,if_pos rfl]) ?_
    intro x other
    rw [up,if_neg other]
  · intro p c
    rw [down,up]
    by_cases moved : c = child
    · simp only [if_pos moved,Option.some.injEq]
      exact eq_comm
    · simp only [if_neg moved]
      exact f.consistent p c
  · intro p
    unfold childrenOf
    rw [table p]
    cases found : t.get? p with
    | none => simp
    | some cont =>
      have nodup : cont.children.Nodup := by simpa [childrenOf,found] using f.distinct p
      have cut : ∀ l : List String, l = cont.children ∨ l = cont.children.filter (fun j => j ≠ child) →
          l.Nodup ∧ (if child ∈ l then l else l ++ [child]).Nodup := by
        intro l which
        have good : l.Nodup := which.elim (fun h => h ▸ nodup) (fun h => h ▸ nodup.filter _)
        refine ⟨good,?_⟩
        split
        · exact good
        · rename_i absent
          exact List.nodup_append.mpr ⟨good,by simp,by
            rintro x mem y last rfl
            exact absent (List.mem_singleton.mp last ▸ mem)⟩
      simp only [Option.map_some,Option.getD_some,relinked]
      obtain ⟨short,long⟩ := cut (if parentOf t child = some p then
        cont.children.filter (fun j => j ≠ child) else cont.children) (by
          split
          · exact Or.inr rfl
          · exact Or.inl rfl)
      by_cases own : p = self
      · rw [if_pos own]
        exact long
      · rw [if_neg own]
        exact short
  · intro k
    unfold contentOf
    rw [table k]
    cases t.get? k <;> rfl

/- A table made from `base` by linking: what `base` holds is there, all else are ghosts. -/
structure Grown (base t : Containers) : Prop where
  forested : Forested t
  content : ∀ k, contentOf t k = contentOf base k ∨
    (contentOf base k = none ∧ contentOf t k = some .ghost)

theorem Grown.present {base : Containers} (g : Grown base t) {k : String} (present : Present base k) :
    Present t k := by
  rw [presentContent] at present ⊢
  rcases g.content k with same | ⟨none,_⟩
  · exact same ▸ present
  · rw [none] at present
    contradiction

theorem Grown.link {base : Containers} (g : Grown base t) (forested : Forested t')
    (same : ∀ k, contentOf t' k = contentOf t k) : Grown base t' :=
  ⟨forested,fun k => by rw [same k]; exact g.content k⟩

theorem containerForGrown {base : Containers} (g : Grown base t) (ref : String) :
    Grown base (containerFor t ref) ∧ Present (containerFor t ref) ref ∧
      ∀ k, Present t k → Present (containerFor t ref) k := by
  unfold containerFor
  by_cases known : (t.get? ref).isSome
  · rw [if_pos known]
    exact ⟨g,known,fun _ present => present⟩
  · rw [if_neg known]
    have absent : t.get? ref = none := Option.not_isSome_iff_eq_none.mp known
    have up : ∀ x, parentOf (t.insert ref ⟨.ghost,none,[]⟩) x = parentOf t x := by
      intro x
      unfold parentOf
      rw [Table.getInsert]
      by_cases same : x = ref
      · simp [same,absent]
      · simp [same]
    have down : ∀ x, childrenOf (t.insert ref ⟨.ghost,none,[]⟩) x = childrenOf t x := by
      intro x
      unfold childrenOf
      rw [Table.getInsert]
      by_cases same : x = ref
      · simp [same,absent]
      · simp [same]
    refine ⟨⟨⟨?_,?_,?_⟩,?_⟩,?_,?_⟩
    · exact (funext up : parentOf _ = parentOf t) ▸ g.forested.acyclic
    · intro p c
      rw [up,down]
      exact g.forested.consistent p c
    · intro p
      rw [down]
      exact g.forested.distinct p
    · intro k
      unfold contentOf
      rw [Table.getInsert]
      by_cases same : k = ref
      · subst same
        rcases g.content k with old | ⟨none,_⟩
        · refine Or.inr ⟨?_,by simp⟩
          rw [contentOf,absent] at old
          exact old.symm
        · exact Or.inr ⟨none,by simp⟩
      · rw [if_neg same]
        exact g.content k
    · simp [Present]
    · intro k present
      unfold Present
      rw [Table.getInsert]
      split
      · rfl
      · exact present

def Linking (base : Containers) (st : Containers × Option String) : Prop :=
  Grown base st.1 ∧ ∀ prev ∈ st.2, Present st.1 prev

theorem linkRefLinking {base : Containers} {st : Containers × Option String}
    (linking : Linking base st) (ref : String) :
    ∃ st', linkRef st ref = some st' ∧ Linking base st' := by
  obtain ⟨grown,present,old⟩ := containerForGrown linking.1 ref
  have here : ∀ {t' : Containers}, Present t' ref → ∀ prev ∈ some ref, Present t' prev := by
    intro t' present prev mem
    cases mem
    exact present
  obtain ⟨t,prev⟩ := st
  cases prev with
  | none => exact ⟨_,rfl,grown,here present⟩
  | some prev =>
    by_cases linked : (parentOf (containerFor t ref) ref).isSome
    · exact ⟨_,if_pos linked,grown,here present⟩
    · have before := old prev (linking.2 prev rfl)
      obtain ⟨b,answer,loops⟩ := hasDescendentAnswers grown.forested ref before
      cases b with
      | true => exact ⟨(containerFor t ref,some ref),by simp [linkRef,linked,answer],grown,here present⟩
      | false =>
        obtain ⟨t',run,forested,same⟩ := addChildLinks grown.forested before present
          (fun climbs => absurd (loops.mpr climbs) (by simp))
        refine ⟨(t',some ref),by simp [linkRef,linked,answer,run],grown.link forested same,here ?_⟩
        rw [presentContent,same]
        exact presentContent.mp present

theorem linkRefs {base : Containers} (refs : List String) {st : Containers × Option String}
    (linking : Linking base st) : ∃ st', refs.foldlM linkRef st = some st' ∧ Linking base st' := by
  induction refs generalizing st with
  | nil => exact ⟨st,rfl,linking⟩
  | cons ref rest ih =>
    obtain ⟨next,run,linking'⟩ := linkRefLinking linking ref
    obtain ⟨last,runs,whole⟩ := ih linking'
    exact ⟨last,by simpa [List.foldlM_cons,run] using runs,whole⟩

theorem noneBefore (t : Containers) : ∀ prev ∈ (t,(none : Option String)).2, Present t prev := by simp

theorem linkKidGrown {base : Containers} (g : Grown base t) {smsg : Smsg}
    (present : Present base smsg.mid) : ∃ t', linkKid t smsg = some t' ∧ Grown base t' := by
  obtain ⟨⟨t₁,prev⟩,run,grown,before⟩ := linkRefs (refsOf smsg) ⟨g,noneBefore t⟩
  unfold linkKid
  rw [run,Option.bind_some]
  cases prev with
  | none => exact ⟨t₁,rfl,grown⟩
  | some prev =>
    obtain ⟨b,answer,loops⟩ := hasDescendentAnswers grown.forested smsg.mid (before prev rfl)
    cases b with
    | true => exact ⟨t₁,by simp [linkLast,answer],grown⟩
    | false =>
      obtain ⟨t',run,forested,same⟩ := addChildLinks grown.forested (before prev rfl)
        (grown.present present) (fun climbs => absurd (loops.mpr climbs) (by simp))
      exact ⟨t',by simp [linkLast,answer,run],grown.link forested same⟩

theorem linkKids {base : Containers} (g : Grown base t) {kids : List Smsg}
    (present : ∀ smsg ∈ kids, Present base smsg.mid) :
    ∃ t', kids.foldlM linkKid t = some t' ∧ Grown base t' := by
  induction kids generalizing t with
  | nil => exact ⟨t,rfl,g⟩
  | cons smsg rest ih =>
    obtain ⟨next,run,grown⟩ := linkKidGrown g (present smsg List.mem_cons_self)
    obtain ⟨last,runs,whole⟩ := ih grown (fun k mem => present k (List.mem_cons_of_mem _ mem))
    exact ⟨last,by simpa [List.foldlM_cons,run] using runs,whole⟩

/- The first loop: `%id_table` holds the first message of every mid, the rest are imposters. -/
def heldMsg : Option Content → List Smsg
  | some (.message smsg) => [smsg]
  | _ => []

structure Sorted (msgs : List Smsg) (g : Grepped) : Prop where
  bare : ∀ k c, g.idTable.get? k = some c → c.parent = none ∧ c.children = [] ∧ ∃ m, c.content = .message m
  all : ∀ k, (heldMsg (contentOf g.idTable k) ++ g.imposters.filter (fun m => m.mid = k)).Perm
    (msgs.filter (fun m => m.mid = k))
  kids : ∀ m ∈ g.kids, Present g.idTable m.mid
  imposters : ∀ m ∈ g.imposters, Present g.idTable m.mid

theorem grepSorted {msgs : List Smsg} {g : Grepped} (sorted : Sorted msgs g) (m : Smsg) :
    Sorted (msgs ++ [m]) (grepMsg g m) := by
  unfold grepMsg
  by_cases known : (g.idTable.get? m.mid).isSome
  · rw [if_pos known]
    refine ⟨sorted.bare,?_,sorted.kids,?_⟩
    · intro k
      simp only [List.filter_append]
      rw [← List.append_assoc]
      exact (sorted.all k).append_right _
    · intro j mem
      rcases List.mem_append.mp mem with old | last
      · exact sorted.imposters j old
      · exact List.mem_singleton.mp last ▸ known
  · rw [if_neg known]
    have absent : g.idTable.get? m.mid = none := Option.not_isSome_iff_eq_none.mp known
    have stays : ∀ {k}, Present g.idTable k → Present (g.idTable.insert m.mid ⟨.message m,none,[]⟩) k := by
      intro k present
      unfold Present
      rw [Table.getInsert]
      split
      · rfl
      · exact present
    refine ⟨?_,?_,?_,fun j mem => stays (sorted.imposters j mem)⟩
    · intro k c found
      rw [Table.getInsert] at found
      split at found
      · cases found
        exact ⟨rfl,rfl,m,rfl⟩
      · exact sorted.bare k c found
    · intro k
      have old := sorted.all k
      unfold contentOf at old ⊢
      rw [Table.getInsert,List.filter_append]
      by_cases same : k = m.mid
      · subst same
        rw [absent] at old
        simp only [if_true,Option.map_some,heldMsg,List.filter_cons,decide_true,List.filter_nil]
        have rest : ((g.imposters.filter (fun j => j.mid = m.mid))).Perm
            (msgs.filter (fun j => j.mid = m.mid)) := by simpa [heldMsg] using old
        exact ((rest.cons m).trans (List.perm_append_singleton m _).symm)
      · have other : m.mid ≠ k := fun h => same h.symm
        simp only [if_neg same,List.filter_cons,other,decide_false,List.filter_nil]
        simpa using old
    · intro j mem
      have which : j ∈ g.kids ∨ j = m := by
        dsimp only at mem
        split at mem
        · exact (List.mem_append.mp mem).imp id List.mem_singleton.mp
        · exact Or.inl mem
      rcases which with old | rfl
      · exact stays (sorted.kids j old)
      · simp [Present]

theorem greppedSorted (msgs : List Smsg) : Sorted msgs (grepped msgs) := by
  have run : ∀ (rest before : List Smsg) (g : Grepped), Sorted before g →
      Sorted (before ++ rest) (rest.foldl grepMsg g) := by
    intro rest
    induction rest with
    | nil => intro before g sorted; simpa using sorted
    | cons m rest ih =>
      intro before g sorted
      simpa using ih (before ++ [m]) (grepMsg g m) (grepSorted sorted m)
  refine run msgs [] _ ⟨by simp,?_,by simp,by simp⟩
  intro k
  simp [contentOf,heldMsg]

theorem greppedGrown (msgs : List Smsg) : Grown (grepped msgs).idTable (grepped msgs).idTable := by
  have sorted := greppedSorted msgs
  have up : ∀ x, parentOf (grepped msgs).idTable x = none := by
    intro x
    unfold parentOf
    cases found : (grepped msgs).idTable.get? x with
    | none => rfl
    | some c => exact (sorted.bare x c found).1
  have down : ∀ x, childrenOf (grepped msgs).idTable x = [] := by
    intro x
    unfold childrenOf
    cases found : (grepped msgs).idTable.get? x with
    | none => rfl
    | some c => exact (sorted.bare x c found).2.1
  refine ⟨⟨⟨fun _ => 0,fun c p under => ?_⟩,?_,?_⟩,fun k => Or.inl rfl⟩
  · rw [up] at under
    contradiction
  · intro p c
    simp [up,down]
  · intro p
    simp [down]

theorem sortedPresent (msgs : List Smsg) : ∀ m ∈ sortedKids msgs, Present (grepped msgs).idTable m.mid :=
  fun m mem => (greppedSorted msgs).kids m (List.mem_mergeSort.mp mem)

/- The tables there are while messages are linked: between two of them at most one add_child. -/
inductive Building (msgs : List Smsg) : Containers → Prop where
  | kid {before after : List Smsg} {t : Containers} (split : sortedKids msgs = before ++ after)
      (run : before.foldlM linkKid (grepped msgs).idTable = some t) : Building msgs t
  | ref {before after : List Smsg} {smsg : Smsg} {refs rest : List String} {t t' : Containers}
      {prev : Option String} (split : sortedKids msgs = before ++ smsg :: after)
      (run : before.foldlM linkKid (grepped msgs).idTable = some t) (refsSplit : refsOf smsg = refs ++ rest)
      (refsRun : refs.foldlM linkRef (t,none) = some (t',prev)) : Building msgs t'

theorem buildingForested {msgs : List Smsg} (building : Building msgs t) : Forested t := by
  have kids : ∀ before after, sortedKids msgs = before ++ after → ∀ t,
      before.foldlM linkKid (grepped msgs).idTable = some t → Grown (grepped msgs).idTable t := by
    intro before after split t run
    obtain ⟨t',run',grown⟩ := linkKids (greppedGrown msgs)
      (fun m mem => sortedPresent msgs m (split ▸ List.mem_append_left _ mem))
    cases run.symm.trans run'
    exact grown
  cases building with
  | kid split run => exact (kids _ _ split t run).forested
  | ref split run refsSplit refsRun =>
    obtain ⟨st,run',linking⟩ := linkRefs _ ⟨kids _ _ split _ run,noneBefore _⟩
    cases refsRun.symm.trans run'
    exact linking.1.forested

end PublicInbox.SearchThread
