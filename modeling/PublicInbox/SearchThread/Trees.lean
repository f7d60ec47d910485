import Mathlib.Data.List.Perm.Basic
import PublicInbox.SearchThread.Build

/-! From the linked containers to the returned trees: the rootset, order_children and the
imposters put back. -/
namespace PublicInbox.SearchThread
open Keyed
variable {env : Env} {t t' t'' : Containers}

structure Filled (env : Env) (t t' : Containers) : Prop where
  keys : t'.keys = t.keys
  children : ∀ k, childrenOf t' k = childrenOf t k
  content : ∀ k, contentOf t' k = contentOf t k ∨
    (contentOf t k = some .ghost ∧ ∃ smsg, env.smsgByMid k = some smsg ∧ contentOf t' k = some (.filled smsg))

theorem Filled.refl (env : Env) (t : Containers) : Filled env t t := ⟨rfl,fun _ => rfl,fun _ => Or.inl rfl⟩

theorem Filled.trans (first : Filled env t t') (second : Filled env t' t'') : Filled env t t'' := by
  refine ⟨second.keys.trans first.keys,fun k => (second.children k).trans (first.children k),?_⟩
  intro k
  rcases second.content k with same | ⟨ghost,smsg,found,filled⟩
  · rw [same]
    exact first.content k
  · rcases first.content k with same | ⟨_,_,_,filled'⟩
    · exact Or.inr ⟨same ▸ ghost,smsg,found,filled⟩
    · rw [ghost] at filled'
      simp at filled'

theorem Filled.present (filled : Filled env t t') {k : String} : Present t' k ↔ Present t k := by
  rw [presentKeys,presentKeys,filled.keys]

def shows (env : Env) (t : Containers) (k : String) : Bool :=
  match contentOf t k with
  | none => false
  | some .ghost => (env.smsgByMid k).isSome || !(childrenOf t k).isEmpty
  | some _ => true

theorem visibleShows (filled : Filled env t t') (k : String) :
    (visible env t' k).2 = shows env t k ∧ Filled env t (visible env t' k).1 := by
  cases found : t'.get? k with
  | none =>
    have run : visible env t' k = (t',false) := by simp [visible,found]
    rw [run]
    have absent : contentOf t k = none := by
      have gone : ¬ Present t k := fun present => by
        have := filled.present.mpr present
        rw [Present,found] at this
        contradiction
      simpa [presentContent] using gone
    exact ⟨by simp [shows,absent],filled⟩
  | some c =>
    have here : contentOf t' k = some c.content := by simp [contentOf,found]
    have below : childrenOf t k = c.children := by
      rw [← filled.children k]
      simp [childrenOf,found]
    cases holds : c.content with
    | message m =>
      have run : visible env t' k = (t',true) := by simp [visible,found,holds]
      rw [run]
      have same : contentOf t k = some (.message m) := by
        rcases filled.content k with same | ⟨_,_,_,filled'⟩
        · rw [← same,here,holds]
        · rw [here,holds] at filled'
          simp at filled'
      exact ⟨by simp [shows,same],filled⟩
    | filled m =>
      have run : visible env t' k = (t',true) := by simp [visible,found,holds]
      rw [run]
      refine ⟨?_,filled⟩
      rcases filled.content k with same | ⟨ghost,smsg,there,_⟩
      · simp [shows,← same,here,holds]
      · simp [shows,ghost,there]
    | ghost =>
      have same : contentOf t k = some .ghost := by
        rcases filled.content k with same | ⟨_,_,_,filled'⟩
        · rw [← same,here,holds]
        · rw [here,holds] at filled'
          simp at filled'
      cases there : env.smsgByMid k with
      | none =>
        have run : visible env t' k = (t',!c.children.isEmpty) := by simp [visible,found,holds,there]
        rw [run]
        exact ⟨by simp [shows,same,there,below],filled⟩
      | some smsg =>
        have run : visible env t' k =
            (t'.update k (fun c => { c with content := .filled smsg }),true) := by
          simp [visible,found,holds,there]
        rw [run]
        refine ⟨by simp [shows,same,there],filled.trans ⟨Table.keysUpdate _ _ _,?_,?_⟩⟩
        · intro j
          unfold childrenOf
          rw [Table.getUpdate]
          by_cases at_ : j = k
          · simp [at_,found]
          · simp [at_]
        · intro j
          unfold contentOf
          rw [Table.getUpdate]
          by_cases at_ : j = k
          · subst at_
            exact Or.inr ⟨by simp [found,holds],smsg,there,by simp [found]⟩
          · exact Or.inl (by simp [at_])

theorem forgetFilled (env : Env) (t : Containers) (k : String) :
    Filled env t (t.update k (fun c => { c with parent := none })) := by
  refine ⟨Table.keysUpdate _ _ _,?_,fun j => Or.inl ?_⟩
  · intro j
    unfold childrenOf
    rw [Table.getUpdate]
    by_cases same : j = k
    · cases t.get? j <;> simp [same]
    · simp [same]
  · unfold contentOf
    rw [Table.getUpdate]
    by_cases same : j = k
    · cases t.get? j <;> simp [same]
    · simp [same]

theorem grepRoots {keys : List String} (nodup : keys.Nodup) (roots : List String)
    (filled : Filled env t t') (fresh : ∀ k ∈ keys, parentOf t' k = parentOf t k) :
    (keys.foldl (grepRoot env) (t',roots)).2 =
        roots ++ keys.filter (fun k => (parentOf t k).isNone && shows env t k) ∧
      Filled env t (keys.foldl (grepRoot env) (t',roots)).1 := by
  induction keys generalizing t' roots with
  | nil => exact ⟨by simp,filled⟩
  | cons k rest ih =>
    obtain ⟨notIn,nodup⟩ := List.nodup_cons.mp nodup
    have forgot := filled.trans (forgetFilled env t' k)
    obtain ⟨sees,fills⟩ := visibleShows forgot k
    have apart : ∀ (f : Container → Container) (u : Containers) (j : String), j ≠ k →
        parentOf (u.update k f) j = parentOf u j := by
      intro f u j other
      simp [parentOf,other]
    have visibleParent : ∀ (u : Containers) (j : String), j ≠ k → parentOf (visible env u k).1 j = parentOf u j := by
      intro u j other
      unfold visible
      split
      · rfl
      · split
        · split
          · exact apart _ u j other
          · rfl
        · rfl
    have fresh' : ∀ j ∈ rest, j ≠ k ∧ parentOf t' j = parentOf t j := fun j mem =>
      ⟨fun same => notIn (same ▸ mem),fresh j (List.mem_cons_of_mem _ mem)⟩
    have here := fresh k List.mem_cons_self
    rw [List.foldl_cons]
    cases up : parentOf t k with
    | some p =>
      have step : grepRoot env (t',roots) k = (t'.update k (fun c => { c with parent := none }),roots) := by
        simp [grepRoot,here,up]
      rw [step]
      have whole := ih nodup roots forgot (fun j mem => by
        rw [apart _ _ _ (fresh' j mem).1]
        exact (fresh' j mem).2)
      simpa [up] using whole
    | none =>
      have keeps : ∀ j ∈ rest, parentOf (visible env (t'.update k
          (fun c => { c with parent := none })) k).1 j = parentOf t j := by
        intro j mem
        rw [visibleParent _ _ (fresh' j mem).1,apart _ _ _ (fresh' j mem).1]
        exact (fresh' j mem).2
      cases run : visible env (t'.update k (fun c => { c with parent := none })) k with
      | mk u yes =>
        rw [run] at sees fills keeps
        cases yes with
        | true =>
          have step : grepRoot env (t',roots) k = (u,roots ++ [k]) := by simp [grepRoot,here,up,run]
          rw [step]
          simpa [up,← sees] using ih nodup (roots ++ [k]) fills keeps
        | false =>
          have step : grepRoot env (t',roots) k = (u,roots) := by simp [grepRoot,here,up,run]
          rw [step]
          simpa [up,← sees] using ih nodup roots fills keeps

theorem grepChildren {keys : List String} (nodup : keys.Nodup) {v : Visiting}
    (filled : Filled env t v.idTable) (unseen : ∀ k ∈ keys, k ∉ v.seen) :
    (keys.foldl (grepChild env) v).shown = v.shown ++ keys.filter (shows env t) ∧
      Filled env t (keys.foldl (grepChild env) v).idTable ∧
      ∀ k, k ∈ (keys.foldl (grepChild env) v).seen ↔ k ∈ keys ∨ k ∈ v.seen := by
  induction keys generalizing v with
  | nil => exact ⟨by simp,filled,by simp⟩
  | cons k rest ih =>
    obtain ⟨notIn,nodup⟩ := List.nodup_cons.mp nodup
    obtain ⟨sees,fills⟩ := visibleShows filled k
    have here := unseen k List.mem_cons_self
    have later : ∀ j ∈ rest, j ∉ k :: v.seen := by
      intro j mem inside
      rcases List.mem_cons.mp inside with rfl | old
      · exact notIn mem
      · exact unseen j (List.mem_cons_of_mem _ mem) old
    rw [List.foldl_cons]
    cases run : visible env v.idTable k with
    | mk u yes =>
      rw [run] at sees fills
      have members : ∀ j : String, (j ∈ rest ∨ j ∈ k :: v.seen) ↔ (j ∈ k :: rest ∨ j ∈ v.seen) := by
        intro j
        simp only [List.mem_cons]
        tauto
      cases yes with
      | true =>
        have step : grepChild env v k = ⟨u,k :: v.seen,v.shown ++ [k]⟩ := by simp [grepChild,here,run]
        rw [step]
        obtain ⟨shown,fills',seen⟩ := ih nodup (v := ⟨u,k :: v.seen,v.shown ++ [k]⟩) fills later
        refine ⟨by simpa [← sees] using shown,fills',fun j => (seen j).trans (members j)⟩
      | false =>
        have step : grepChild env v k = ⟨u,k :: v.seen,v.shown⟩ := by simp [grepChild,here,run]
        rw [step]
        obtain ⟨shown,fills',seen⟩ := ih nodup (v := ⟨u,k :: v.seen,v.shown⟩) fills later
        refine ⟨by simpa [← sees] using shown,fills',fun j => (seen j).trans (members j)⟩

/- The {children} that are arrayrefs so far; `started` are the roots order_children was called on. -/
structure Sofar (env : Env) (t : Containers) (started : List String) (o : Ordered) : Prop where
  filled : Filled env t o.idTable
  array : ∀ x ns, o.arrays.get? x = some ns → Present t x ∧
    ∃ cs : List String, ns = cs.map .container ∧ cs.Perm ((childrenOf t x).filter (shows env t))
  above : ∀ x, (o.arrays.get? x).isSome → (parentOf t x = none ∧ x ∈ started) ∨
    ∃ p, parentOf t x = some p ∧ (o.arrays.get? p).isSome

def Pending (o : Ordered) (q : List String) : Prop :=
  ∀ x (cs : List String), o.arrays.get? x = some (cs.map Node.container) → ∀ c ∈ cs, (o.arrays.get? c).isSome ∨ c ∈ q

structure Queued (t : Containers) (root : String) (q seen : List String) (o : Ordered) : Prop where
  nodup : q.Nodup
  queued : ∀ x ∈ q, Present t x ∧ o.arrays.get? x = none ∧
    (x = root ∨ ∃ p, parentOf t x = some p ∧ (o.arrays.get? p).isSome)
  seen : ∀ x ∈ seen, x = root ∨ ∃ p, parentOf t x = some p ∧ (o.arrays.get? p).isSome

def unordered (t : Containers) (o : Ordered) : List String := t.keys.filter (fun k => (o.arrays.get? k).isNone)

theorem filterShorter {α : Type} {l : List α} {p q : α → Bool} (sub : ∀ x ∈ l, q x = true → p x = true)
    {a : α} (mem : a ∈ l) (yes : p a = true) (no : q a = false) :
    (l.filter q).length < (l.filter p).length := by
  have split : l.filter q = (l.filter p).filter q := by
    rw [List.filter_filter]
    refine List.filter_congr (fun x inside => ?_)
    cases here : q x with
    | false => simp
    | true => simp [sub x inside here]
  rw [split]
  exact List.length_filter_lt_length_iff_exists.mpr ⟨a,List.mem_filter.mpr ⟨mem,yes⟩,by simp [no]⟩

theorem namesInj {cs ds : List String} (same : cs.map Node.container = ds.map Node.container) : cs = ds :=
  List.map_injective_iff.mpr (fun _ _ h => Node.container.inj h) same

def Ordered.list (o : Ordered) (idTable : Containers) (cur : String) (cs : List String) : Ordered :=
  ⟨idTable,o.arrays.insert cur (cs.map .container)⟩

section turn
variable {started : List String} {root cur : String} {q seen cs : List String} {o : Ordered} {u : Containers}

theorem Ordered.listGet (x : String) :
    (o.list u cur cs).arrays.get? x = if x = cur then some (cs.map .container) else o.arrays.get? x :=
  Table.getInsert _ _ _ _

theorem Ordered.listSome : ((o.list u cur cs).arrays.get? cur).isSome := by
  rw [Ordered.listGet,if_pos rfl]
  rfl

theorem Ordered.listGrows {x : String} (ordered : (o.arrays.get? x).isSome) :
    ((o.list u cur cs).arrays.get? x).isSome := by
  rw [Ordered.listGet]
  split
  · rfl
  · exact ordered

theorem listWidens {x : String} (which : x = root ∨ ∃ p, parentOf t x = some p ∧ (o.arrays.get? p).isSome) :
    x = root ∨ ∃ p, parentOf t x = some p ∧ ((o.list u cur cs).arrays.get? p).isSome :=
  which.imp id (Exists.imp fun _ ordered => ⟨ordered.1,Ordered.listGrows ordered.2⟩)

theorem childApart (isRoot : parentOf t root = none) (fresh : o.arrays.get? cur = none) {k : String}
    (child : parentOf t k = some cur) : ¬ (k = root ∨ ∃ p, parentOf t k = some p ∧ (o.arrays.get? p).isSome) := by
  rintro (rfl | ⟨p,up,ordered⟩)
  · rw [isRoot] at child
    contradiction
  · cases child.symm.trans up
    rw [fresh] at ordered
    contradiction

theorem sofarListed (isRoot : parentOf t root = none) (inStarted : root ∈ started) (sofar : Sofar env t started o)
    (queued : Queued t root (cur :: q) seen o) (fills : Filled env t u)
    (csPerm : cs.Perm ((childrenOf t cur).filter (shows env t))) : Sofar env t started (o.list u cur cs) := by
  obtain ⟨present,fresh,which⟩ := queued.queued cur List.mem_cons_self
  refine ⟨fills,?_,?_⟩
  · intro x ns got
    rw [Ordered.listGet] at got
    split at got
    · rename_i same
      cases got
      exact same ▸ ⟨present,cs,rfl,csPerm⟩
    · exact sofar.array x ns got
  · intro x ordered
    by_cases same : x = cur
    · subst same
      rcases which with rfl | ⟨p,up,there⟩
      · exact Or.inl ⟨isRoot,inStarted⟩
      · exact Or.inr ⟨p,up,Ordered.listGrows there⟩
    · rw [Ordered.listGet,if_neg same] at ordered
      exact (sofar.above x ordered).imp id (Exists.imp fun p there => ⟨there.1,Ordered.listGrows there.2⟩)

theorem queuedListed (f : Forested t) (isRoot : parentOf t root = none) (sofar : Sofar env t started o)
    (queued : Queued t root (cur :: q) seen o) {seen' : List String} (csNodup : cs.Nodup)
    (csUnder : ∀ k ∈ cs, parentOf t k = some cur) (sees : ∀ k ∈ seen', parentOf t k = some cur ∨ k ∈ seen) :
    Queued t root (q ++ cs) seen' (o.list u cur cs) := by
  obtain ⟨-,fresh,-⟩ := queued.queued cur List.mem_cons_self
  obtain ⟨notIn,nodup⟩ := List.nodup_cons.mp queued.nodup
  refine ⟨?_,?_,?_⟩
  · refine List.nodup_append.mpr ⟨nodup,csNodup,?_⟩
    rintro x inQ y inCs rfl
    exact childApart isRoot fresh (csUnder x inCs) (queued.queued x (List.mem_cons_of_mem _ inQ)).2.2
  · intro x mem
    rcases List.mem_append.mp mem with inQ | inCs
    · obtain ⟨there,free,which⟩ := queued.queued x (List.mem_cons_of_mem _ inQ)
      have other : x ≠ cur := fun same => notIn (same ▸ inQ)
      exact ⟨there,by rw [Ordered.listGet,if_neg other]; exact free,listWidens which⟩
    · have up := csUnder x inCs
      have other : x ≠ cur := by
        rintro rfl
        exact Forest.noLoop f.acyclic up .refl
      refine ⟨presentParent up,?_,Or.inr ⟨cur,up,Ordered.listSome⟩⟩
      rw [Ordered.listGet,if_neg other]
      cases got : o.arrays.get? x with
      | none => rfl
      | some ns =>
        rcases sofar.above x (by simp [got]) with ⟨none,_⟩ | there
        · rw [none] at up
          contradiction
        · exact absurd (Or.inr there) (childApart isRoot fresh up)
  · intro x mem
    rcases sees x mem with child | old
    · exact Or.inr ⟨cur,child,Ordered.listSome⟩
    · exact listWidens (queued.seen x old)

theorem pendingListed (pending : Pending o (cur :: q)) : Pending (o.list u cur cs) (q ++ cs) := by
  intro x ds got k mem
  rw [Ordered.listGet] at got
  split at got
  · cases namesInj (Option.some.inj got)
    exact Or.inr (List.mem_append_right _ mem)
  · rcases pending x ds got k mem with ordered | inQ
    · exact Or.inl (Ordered.listGrows ordered)
    · rcases List.mem_cons.mp inQ with rfl | later
      · exact Or.inl Ordered.listSome
      · exact Or.inr (List.mem_append_left _ later)

theorem unorderedListed (present : Present t cur) (fresh : o.arrays.get? cur = none) :
    (unordered t (o.list u cur cs)).length < (unordered t o).length := by
  refine filterShorter ?_ (presentKeys.mp present) (by simp [fresh]) (by rw [Ordered.listGet,if_pos rfl]; rfl)
  intro x _ free
  rw [Ordered.listGet] at free
  split at free
  · simp at free
  · exact free

end turn

theorem orderOne (f : Forested t) {started : List String} {root : String} (isRoot : parentOf t root = none)
    (inStarted : root ∈ started) {cur : String} {q seen : List String} {o : Ordered}
    (sofar : Sofar env t started o) (queued : Queued t root (cur :: q) seen o)
    (pending : Pending o (cur :: q)) :
    ∃ (cs seen' : List String) (o' : Ordered),
      (∀ fuel, orderChildren env (fuel + 1) (cur :: q) seen o = orderChildren env fuel (q ++ cs) seen' o') ∧
      Sofar env t started o' ∧ Queued t root (q ++ cs) seen' o' ∧ Pending o' (q ++ cs) ∧
      (unordered t o').length < (unordered t o).length ∧
      (∀ x, (o.arrays.get? x).isSome → (o'.arrays.get? x).isSome) ∧ (o'.arrays.get? cur).isSome := by
  obtain ⟨present,fresh,-⟩ := queued.queued cur List.mem_cons_self
  obtain ⟨c,found⟩ := Option.isSome_iff_exists.mp (sofar.filled.present.mpr present)
  have children : c.children = childrenOf t cur := by
    rw [← sofar.filled.children cur]
    simp [childrenOf,found]
  have listed : (env.values c.children).Perm (childrenOf t cur) := children ▸ env.valuesPerm _
  have under : ∀ k, k ∈ env.values c.children → parentOf t k = some cur := fun k mem =>
    (f.consistent cur k).mp (listed.mem_iff.mp mem)
  obtain ⟨shown,fills,sees⟩ := grepChildren (listed.nodup_iff.mpr (f.distinct cur))
    (v := ⟨o.idTable,seen,[]⟩) sofar.filled (fun k mem inSeen =>
      childApart isRoot fresh (under k mem) (queued.seen k inSeen))
  obtain ⟨v,vIs⟩ : ∃ v, v = (env.values c.children).foldl (grepChild env) ⟨o.idTable,seen,[]⟩ := ⟨_,rfl⟩
  rw [← vIs] at shown fills sees
  obtain ⟨cs,csIs⟩ : ∃ cs, cs = if 1 < v.shown.length then env.ordersub v.idTable v.shown else v.shown :=
    ⟨_,rfl⟩
  have csPerm : cs.Perm ((childrenOf t cur).filter (shows env t)) := by
    have step : cs.Perm v.shown := by
      rw [csIs]
      split
      · exact env.ordersubPerm _ _
      · exact .refl _
    rw [shown,List.nil_append] at step
    exact step.trans (listed.filter _)
  have csUnder : ∀ k ∈ cs, parentOf t k = some cur := fun k mem =>
    (f.consistent cur k).mp (List.mem_filter.mp (csPerm.mem_iff.mp mem)).1
  have csNodup : cs.Nodup := csPerm.nodup_iff.mpr ((f.distinct cur).filter _)
  have seen' : ∀ k ∈ v.seen, parentOf t k = some cur ∨ k ∈ seen := fun k mem => ((sees k).mp mem).imp (under k) id
  refine ⟨cs,v.seen,o.list v.idTable cur cs,?_,sofarListed isRoot inStarted sofar queued fills csPerm,
    queuedListed f isRoot sofar queued csNodup csUnder seen',pendingListed pending,unorderedListed present fresh,
    fun _ => Ordered.listGrows,Ordered.listSome⟩
  intro fuel
  simp only [orderChildren,found,fresh]
  rw [← vIs,← csIs]
  rfl

theorem orderTree (f : Forested t) {started : List String} {root : String} (isRoot : parentOf t root = none)
    (inStarted : root ∈ started) {fuel : Nat} {q seen : List String} {o : Ordered}
    (sofar : Sofar env t started o) (queued : Queued t root q seen o) (pending : Pending o q)
    (enough : (unordered t o).length ≤ fuel) :
    ∃ o', orderChildren env fuel q seen o = some o' ∧ Sofar env t started o' ∧ Pending o' [] ∧
      (∀ x, (o.arrays.get? x).isSome → (o'.arrays.get? x).isSome) ∧
      ∀ x ∈ q, (o'.arrays.get? x).isSome := by
  induction fuel generalizing q seen o with
  | zero =>
    cases q with
    | nil => exact ⟨o,by simp [orderChildren],sofar,pending,fun _ h => h,by simp⟩
    | cons cur q =>
      obtain ⟨present,fresh,_⟩ := queued.queued cur List.mem_cons_self
      have inside : cur ∈ unordered t o := List.mem_filter.mpr ⟨presentKeys.mp present,by simp [fresh]⟩
      have := List.length_pos_of_mem inside
      omega
  | succ fuel ih =>
    cases q with
    | nil => exact ⟨o,by simp [orderChildren],sofar,pending,fun _ h => h,by simp⟩
    | cons cur q =>
      obtain ⟨cs,seen',next,turn,sofar',queued',pending',fewer,grows,now⟩ :=
        orderOne f isRoot inStarted sofar queued pending
      obtain ⟨o',run,whole,closed,keeps,all⟩ := ih sofar' queued' pending' (by omega)
      refine ⟨o',by rw [turn,run],whole,closed,fun x ordered => keeps x (grows x ordered),?_⟩
      intro x mem
      rcases List.mem_cons.mp mem with rfl | later
      · exact keeps x now
      · exact all x (List.mem_append_left _ later)

theorem orderRoots (f : Forested t) {roots started : List String} (nodup : roots.Nodup)
    (areRoots : ∀ r ∈ roots, parentOf t r = none ∧ Present t r ∧ r ∉ started) {o : Ordered}
    (sofar : Sofar env t started o) (closed : Pending o []) :
    ∃ o', roots.foldlM (fun o root => orderChildren env (o.idTable.keys.length + 1) [root] [root] o) o = some o' ∧
      Sofar env t (started ++ roots) o' ∧ Pending o' [] ∧
      (∀ x, (o.arrays.get? x).isSome → (o'.arrays.get? x).isSome) ∧
      ∀ r ∈ roots, (o'.arrays.get? r).isSome := by
  induction roots generalizing started o with
  | nil => exact ⟨o,rfl,by simpa using sofar,closed,fun _ h => h,by simp⟩
  | cons root rest ih =>
    obtain ⟨notIn,nodup⟩ := List.nodup_cons.mp nodup
    obtain ⟨isRoot,present,new⟩ := areRoots root List.mem_cons_self
    have wider : Sofar env t (started ++ [root]) o :=
      ⟨sofar.filled,sofar.array,fun x ordered => (sofar.above x ordered).imp
        (fun ⟨top,mem⟩ => ⟨top,List.mem_append_left _ mem⟩) id⟩
    have fresh : o.arrays.get? root = none := by
      cases got : o.arrays.get? root with
      | none => rfl
      | some ns =>
        rcases sofar.above root (by simp [got]) with ⟨_,mem⟩ | ⟨p,up,_⟩
        · exact absurd mem new
        · rw [isRoot] at up
          contradiction
    have queued : Queued t root [root] [root] o := by
      refine ⟨by simp,?_,?_⟩
      · intro x mem
        cases List.mem_singleton.mp mem
        exact ⟨present,fresh,Or.inl rfl⟩
      · exact fun x mem => Or.inl (List.mem_singleton.mp mem)
    have pending : Pending o [root] := fun x cs got c mem =>
      (closed x cs got c mem).imp id (fun inNil => absurd inNil List.not_mem_nil)
    have enough : (unordered t o).length ≤ o.idTable.keys.length + 1 := by
      rw [sofar.filled.keys]
      exact Nat.le_succ_of_le (List.length_filter_le _ _)
    obtain ⟨next,run,sofar',closed',grows,all⟩ := orderTree f isRoot (by simp) wider queued pending enough
    have areRoots' : ∀ r ∈ rest, parentOf t r = none ∧ Present t r ∧ r ∉ started ++ [root] := by
      intro r mem
      obtain ⟨top,there,before⟩ := areRoots r (List.mem_cons_of_mem _ mem)
      refine ⟨top,there,?_⟩
      rw [List.mem_append,List.mem_singleton]
      rintro (old | rfl)
      · exact before old
      · exact notIn mem
    obtain ⟨o',runs,whole,shut,keeps,rests⟩ := ih nodup areRoots' sofar' closed'
    refine ⟨o',by simp [List.foldlM_cons,run,runs],by simpa using whole,shut,
      fun x ordered => keeps x (grows x ordered),?_⟩
    intro r mem
    rcases List.mem_cons.mp mem with rfl | later
    · exact keeps r (all r List.mem_cons_self)
    · exact rests r later

def Node.key? : Node → Option String
  | .container mid => some mid
  | .imposter _ => none

def kidsOf (o : Ordered) (x : String) : List String := ((o.arrays.get? x).getD []).filterMap Node.key?

theorem keysOfContainers (cs : List String) : (cs.map Node.container).filterMap Node.key? = cs := by
  induction cs with
  | nil => rfl
  | cons c cs ih => simpa [Node.key?] using ih

theorem Sofar.kids {started : List String} {o : Ordered} (sofar : Sofar env t started o) {x : String}
    (ordered : (o.arrays.get? x).isSome) :
    o.arrays.get? x = some ((kidsOf o x).map .container) ∧
      (kidsOf o x).Perm ((childrenOf t x).filter (shows env t)) := by
  obtain ⟨ns,got⟩ := Option.isSome_iff_exists.mp ordered
  obtain ⟨_,cs,rfl,perm⟩ := sofar.array x ns got
  have same : kidsOf o x = cs := by
    unfold kidsOf
    rw [got,Option.getD_some,keysOfContainers]
  exact ⟨by rw [same,got],same ▸ perm⟩

theorem Sofar.kidsUnder {started : List String} {o : Ordered} (f : Forested t)
    (sofar : Sofar env t started o) (p c : String) (mem : c ∈ kidsOf o p) : parentOf t c = some p := by
  have ordered : (o.arrays.get? p).isSome := by
    cases got : o.arrays.get? p with
    | none => simp [kidsOf,got] at mem
    | some ns => rfl
  exact (f.consistent p c).mp (List.mem_filter.mp ((sofar.kids ordered).2.mem_iff.mp mem)).1

theorem Sofar.into {started : List String} {o : Ordered} (sofar : Sofar env t started o)
    (closed : Pending o []) (k : String) (here : (o.arrays.get? k).isSome) (c : String)
    (mem : c ∈ kidsOf o k) : (o.arrays.get? c).isSome :=
  (closed k _ (sofar.kids here).1 c mem).resolve_right List.not_mem_nil

theorem boundAll (l : List String) (depth : String → Nat) : ∃ bound, ∀ x ∈ l, depth x ≤ bound := by
  induction l with
  | nil => exact ⟨0,by simp⟩
  | cons a l ih =>
    obtain ⟨bound,below⟩ := ih
    refine ⟨max (depth a) bound,?_⟩
    intro x mem
    rcases List.mem_cons.mp mem with rfl | later
    · exact Nat.le_max_left _ _
    · exact Nat.le_trans (below x later) (Nat.le_max_right _ _)

theorem walkShown (f : Forested t) {started roots : List String} {o : Ordered}
    (sofar : Sofar env t started o) (closed : Pending o []) (nodup : roots.Nodup)
    (areRoots : ∀ r, r ∈ roots ↔ Present t r ∧ parentOf t r = none ∧ shows env t r = true)
    (ordered : ∀ r ∈ roots, (o.arrays.get? r).isSome) :
    ∃ out, Forest.Walk (kidsOf o) roots out ∧ out.Nodup ∧
      ∀ x, Present t x → shows env t x = true → x ∈ out ∧ (o.arrays.get? x).isSome := by
  have under := sofar.kidsUnder f
  have into := sofar.into closed
  obtain ⟨depth,deepens⟩ := f.acyclic
  obtain ⟨bound,below⟩ := boundAll t.keys depth
  have deeper : ∀ k, (o.arrays.get? k).isSome → ∀ c ∈ kidsOf o k,
      (o.arrays.get? c).isSome ∧ depth k < depth c :=
    fun k here c mem => ⟨into k here c mem,deepens c k (under k c mem)⟩
  have bounded : ∀ k, (o.arrays.get? k).isSome → depth k ≤ bound := by
    intro k here
    obtain ⟨ns,got⟩ := Option.isSome_iff_exists.mp here
    exact below k (presentKeys.mp (sofar.array k ns got).1)
  obtain ⟨out,walk⟩ := Forest.walkExists deeper bounded ordered
  refine ⟨out,walk,?_,?_⟩
  · refine Forest.walkNodup f.acyclic under ?_ walk nodup ?_
    · intro p
      cases got : o.arrays.get? p with
      | none => simp [kidsOf,got]
      | some ns => exact (sofar.kids (by simp [got])).2.nodup_iff.mpr ((f.distinct p).filter _)
    · intro a _ b memB differ climbs
      rcases Relation.ReflTransGen.cases_head climbs with same | ⟨p,up,_⟩
      · exact differ same.symm
      · rw [((areRoots b).mp memB).2.1] at up
        contradiction
  · intro x present seen
    obtain ⟨r,climbs,top⟩ := Forest.climbsRoot f.acyclic x
    have reach : ∀ y, Forest.Climbs (parentOf t) y r → Present t y → shows env t y = true →
        (∃ k ∈ roots, Forest.Below (kidsOf o) k y) ∧ (o.arrays.get? y).isSome := by
      intro y climbs
      induction climbs using Relation.ReflTransGen.head_induction_on with
      | refl =>
        intro there seen
        have root := (areRoots r).mpr ⟨there,top,seen⟩
        exact ⟨⟨r,root,.refl⟩,ordered r root⟩
      | @head y p up _ ih =>
        intro _ seen
        have child := (f.consistent p y).mpr up
        have thereP := f.parentPresent up
        have shownP : shows env t p = true := by
          have some := presentContent.mp thereP
          cases holds : contentOf t p with
          | none => simp [holds] at some
          | some content =>
            cases content with
            | ghost =>
              have nonempty : childrenOf t p ≠ [] := List.ne_nil_of_mem child
              simp [shows,holds,nonempty]
            | message m => simp [shows,holds]
            | filled m => simp [shows,holds]
        obtain ⟨⟨k,root,path⟩,orderedP⟩ := ih thereP shownP
        have kid : y ∈ kidsOf o p :=
          (sofar.kids orderedP).2.mem_iff.mpr (List.mem_filter.mpr ⟨child,seen⟩)
        exact ⟨⟨k,root,path.tail kid⟩,into p orderedP y kid⟩
    obtain ⟨⟨k,root,path⟩,here⟩ := reach x climbs present seen
    exact ⟨(Forest.walkMem walk x).mpr ⟨k,root,path⟩,here⟩

theorem unshiftAll {imposters : List Smsg} {arrays : Table String (List Node)}
    (there : ∀ m ∈ imposters, (arrays.get? m.mid).isSome) :
    ∃ arrays', imposters.foldlM unshiftImposter arrays = some arrays' ∧
      ∀ x, arrays'.get? x = (arrays.get? x).map (fun ns =>
        (imposters.filter (fun m => m.mid = x)).reverse.map .imposter ++ ns) := by
  induction imposters generalizing arrays with
  | nil => exact ⟨arrays,rfl,fun x => by cases arrays.get? x <;> simp⟩
  | cons m rest ih =>
    obtain ⟨cs,got⟩ := Option.isSome_iff_exists.mp (there m List.mem_cons_self)
    have step : unshiftImposter arrays m = some (arrays.insert m.mid (.imposter m :: cs)) := by
      simp [unshiftImposter,got]
    have there' : ∀ j ∈ rest, ((arrays.insert m.mid (.imposter m :: cs)).get? j.mid).isSome := by
      intro j mem
      rw [Table.getInsert]
      split
      · rfl
      · exact there j (List.mem_cons_of_mem _ mem)
    obtain ⟨arrays',run,table⟩ := ih there'
    refine ⟨arrays',by simp [List.foldlM_cons,step,run],?_⟩
    intro x
    rw [table,Table.getInsert]
    by_cases same : x = m.mid
    · subst same
      simp [got]
    · have other : m.mid ≠ x := fun h => same h.symm
      simp [same,other]

theorem groupPerm {α : Type} {f : α → String} {keys : List String} (nodup : keys.Nodup) {l : List α}
    (all : ∀ a ∈ l, f a ∈ keys) : (keys.flatMap (fun k => l.filter (fun a => f a = k))).Perm l := by
  induction keys generalizing l with
  | nil =>
    cases l with
    | nil => exact .refl _
    | cons a l => exact absurd (all a List.mem_cons_self) List.not_mem_nil
  | cons k rest ih =>
    obtain ⟨notIn,nodup⟩ := List.nodup_cons.mp nodup
    have others : rest.flatMap (fun j => l.filter (fun a => f a = j)) =
        rest.flatMap (fun j => (l.filter (fun a => !decide (f a = k))).filter (fun a => f a = j)) := by
      refine List.flatMap_congr (fun j mem => ?_)
      rw [List.filter_filter]
      refine List.filter_congr (fun a _ => ?_)
      by_cases same : f a = j
      · have differ : j ≠ k := fun h => notIn (h ▸ mem)
        simp [same,differ]
      · simp [same]
    have whole := ih nodup (l := l.filter (fun a => !decide (f a = k))) (by
      intro a mem
      obtain ⟨inside,differ⟩ := List.mem_filter.mp mem
      exact (List.mem_cons.mp (all a inside)).resolve_left (by simpa using differ))
    rw [List.flatMap_cons,others]
    exact (whole.append_left _).trans (List.filter_append_perm _ l)

theorem yieldsWalk {started : List String} {o o' : Ordered} (sofar : Sofar env t started o)
    {imposters : List Smsg} (table : o'.idTable = o.idTable)
    (arrays : ∀ x, o'.arrays.get? x = (o.arrays.get? x).map (fun ns =>
      (imposters.filter (fun m => m.mid = x)).reverse.map .imposter ++ ns))
    (closed : ∀ k, (o.arrays.get? k).isSome → ∀ c ∈ kidsOf o k, (o.arrays.get? c).isSome)
    {ks out : List String} (walk : Forest.Walk (kidsOf o) ks out)
    (ordered : ∀ k ∈ ks, (o.arrays.get? k).isSome) :
    ∃ ms, Yields o' (ks.map .container) ms ∧ ms.Perm (out.flatMap (fun k =>
      heldMsg (contentOf t k) ++ imposters.filter (fun m => m.mid = k))) := by
  induction walk with
  | nil => exact ⟨[],.nil,.refl _⟩
  | @cons k rest inner outer _ _ ihBelow ihAfter =>
    have here := ordered k List.mem_cons_self
    obtain ⟨inMs,inYields,inPerm⟩ := ihBelow (closed k here)
    obtain ⟨outMs,outYields,outPerm⟩ := ihAfter (fun j mem => ordered j (List.mem_cons_of_mem _ mem))
    have array : o'.arrays.get? k = some ((imposters.filter (fun m => m.mid = k)).reverse.map .imposter ++
        (kidsOf o k).map .container) := by
      rw [arrays,(sofar.kids here).1]
      rfl
    have below : Yields o' ((imposters.filter (fun m => m.mid = k)).reverse.map .imposter ++
        (kidsOf o k).map .container) ((imposters.filter (fun m => m.mid = k)).reverse ++ inMs) := by
      generalize (imposters.filter (fun m => m.mid = k)).reverse = imps
      induction imps with
      | nil => exact inYields
      | cons m imps ih => exact .imposter ih
    obtain ⟨ns,got⟩ := Option.isSome_iff_exists.mp here
    obtain ⟨c,found⟩ := Option.isSome_iff_exists.mp (sofar.filled.present.mpr (sofar.array k ns got).1)
    have held : contentOf o.idTable k = some c.content := by simp [contentOf,found]
    have rest : (imposters.filter (fun m => m.mid = k)).reverse ++ inMs ++ outMs |>.Perm
        (imposters.filter (fun m => m.mid = k) ++ ((inner.flatMap (fun k =>
          heldMsg (contentOf t k) ++ imposters.filter (fun m => m.mid = k))) ++ outer.flatMap (fun k =>
          heldMsg (contentOf t k) ++ imposters.filter (fun m => m.mid = k)))) := by
      rw [List.append_assoc]
      exact (List.reverse_perm _).append (inPerm.append outPerm)
    rw [List.flatMap_cons,List.flatMap_append,List.append_assoc,List.map_cons]
    by_cases message : ∃ m, c.content = .message m
    · obtain ⟨m,holds⟩ := message
      refine ⟨_,.message (table ▸ found) holds array below outYields,?_⟩
      have before : contentOf t k = some (.message m) := by
        rcases sofar.filled.content k with same | ⟨_,_,_,filled⟩
        · rw [← same,held,holds]
        · rw [held,holds] at filled
          simp at filled
      rw [before]
      exact rest.cons m
    · refine ⟨_,.ghost (table ▸ found) (fun m holds => message ⟨m,holds⟩) array below outYields,?_⟩
      have none : heldMsg (contentOf t k) = [] := by
        rcases sofar.filled.content k with same | ⟨ghost,_⟩
        · rw [← same,held]
          cases holds : c.content with
          | message m => exact absurd ⟨m,holds⟩ message
          | ghost => rfl
          | filled m => rfl
        · rw [ghost]
          rfl
      rw [none]
      exact rest

theorem heldGrown {base : Containers} (g : Grown base t) (k : String) :
    heldMsg (contentOf t k) = heldMsg (contentOf base k) := by
  rcases g.content k with same | ⟨none,ghost⟩
  · rw [same]
  · rw [none,ghost]
    rfl

theorem messageShows {msgs : List Smsg} (g : Grown (grepped msgs).idTable t) {m : Smsg} (mem : m ∈ msgs) :
    Present t m.mid ∧ shows env t m.mid = true := by
  have sorted := greppedSorted msgs
  have present : Present (grepped msgs).idTable m.mid := by
    have inside := (sorted.all m.mid).mem_iff.mpr (List.mem_filter.mpr ⟨mem,decide_eq_true rfl⟩)
    rcases List.mem_append.mp inside with held | imposter
    · rw [presentContent]
      cases holds : contentOf (grepped msgs).idTable m.mid with
      | none => simp [holds,heldMsg] at held
      | some content => rfl
    · obtain ⟨there,same⟩ := List.mem_filter.mp imposter
      exact of_decide_eq_true same ▸ sorted.imposters m there
  refine ⟨g.present present,?_⟩
  obtain ⟨c,found⟩ := Option.isSome_iff_exists.mp present
  obtain ⟨_,_,first,holds⟩ := sorted.bare _ c found
  have base : contentOf (grepped msgs).idTable m.mid = some (.message first) := by
    simp [contentOf,found,holds]
  rcases g.content m.mid with same | ⟨none,_⟩
  · simp [shows,same,base]
  · rw [base] at none
    contradiction

theorem threadYields (env : Env) (msgs : List Smsg) :
    (∀ t, Building msgs t → Forested t) ∧
    ∃ out ms, thread env msgs = some out ∧
      Yields out.ordered (out.rootset.map .container) ms ∧ ms.Perm msgs := by
  refine ⟨fun t building => buildingForested building,?_⟩
  obtain ⟨t,linked,grown⟩ := linkKids (greppedGrown msgs) (sortedPresent msgs)
  have f := grown.forested
  have nodup : (env.values t.keys).Nodup := (env.valuesPerm _).nodup_iff.mpr t.keysNodup
  obtain ⟨rootsAre,filled⟩ := grepRoots nodup [] (.refl env t) (fun _ _ => rfl)
  obtain ⟨t',roots,grep⟩ : ∃ t' roots, (env.values t.keys).foldl (grepRoot env) (t,[]) = (t',roots) :=
    ⟨_,_,rfl⟩
  rw [grep] at rootsAre filled
  have sortedRoots : (env.ordersub t' roots).Perm
      ((env.values t.keys).filter (fun k => (parentOf t k).isNone && shows env t k)) :=
    (env.ordersubPerm t' roots).trans (by rw [show roots = _ from rootsAre,List.nil_append])
  have areRoots : ∀ r, r ∈ env.ordersub t' roots ↔
      Present t r ∧ parentOf t r = none ∧ shows env t r = true := by
    intro r
    rw [sortedRoots.mem_iff,List.mem_filter,(env.valuesPerm _).mem_iff,← presentKeys]
    simp
  have rootsNodup : (env.ordersub t' roots).Nodup := sortedRoots.nodup_iff.mpr (nodup.filter _)
  have start : Sofar env t [] ⟨t',.empty⟩ := ⟨filled,by simp,by simp⟩
  obtain ⟨o,run,sofar,closed,_,ordered⟩ := orderRoots f rootsNodup
    (fun r mem => ⟨((areRoots r).mp mem).2.1,((areRoots r).mp mem).1,List.not_mem_nil⟩)
    start (by simp [Pending])
  obtain ⟨out,walk,outNodup,all⟩ := walkShown f sofar closed rootsNodup areRoots ordered
  have shown : ∀ m ∈ msgs, m.mid ∈ out ∧ (o.arrays.get? m.mid).isSome := by
    intro m mem
    obtain ⟨present,seen⟩ : Present t m.mid ∧ shows env t m.mid = true := messageShows grown mem
    exact all m.mid present seen
  have sorted := greppedSorted msgs
  have imposters : ∀ m ∈ (grepped msgs).imposters, (o.arrays.get? m.mid).isSome := by
    intro m mem
    have inside := (sorted.all m.mid).mem_iff.mp
      (List.mem_append_right _ (List.mem_filter.mpr ⟨mem,decide_eq_true rfl⟩))
    exact (shown m (List.mem_filter.mp inside).1).2
  obtain ⟨arrays,unshifted,table⟩ := unshiftAll imposters
  have same : (⟨o.idTable,arrays⟩ : Ordered).idTable = o.idTable := rfl
  obtain ⟨ms,yields,perm⟩ := yieldsWalk sofar same table (sofar.into closed) walk ordered
  refine ⟨⟨env.ordersub t' roots,⟨o.idTable,arrays⟩⟩,ms,?_,yields,?_⟩
  · simp [thread,linked,grep,run,unshifted]
  · have groups : (out.flatMap (fun k => heldMsg (contentOf t k) ++
        (grepped msgs).imposters.filter (fun m => m.mid = k))).Perm
        (out.flatMap (fun k => msgs.filter (fun m => m.mid = k))) := by
      refine List.Perm.flatMap_left out (fun k _ => ?_)
      rw [heldGrown grown]
      exact sorted.all k
    exact perm.trans (groups.trans (groupPerm outNodup (fun m mem => (shown m mem).1)))

def plain : Env := ⟨fun _ => none,id,fun l => .refl l,fun _ l => l,fun _ l => .refl l⟩

def loop : List Smsg := [⟨"a",some "<b>",1⟩,⟨"b",some "<gone> <a>",2⟩,⟨"a",some "<b>",3⟩]

theorem loopYields : ∃ out ms, thread plain loop = some out ∧
    Yields out.ordered (out.rootset.map .container) ms ∧ ms.Perm loop :=
  (threadYields plain loop).2

end PublicInbox.SearchThread
