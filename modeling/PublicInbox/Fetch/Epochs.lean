import PublicInbox.Fetch.Keys

/-! Which epochs a fetch of a v2 inbox handles, and which entries of the manifest it keeps. -/
namespace PublicInbox.Fetch
open Decimal

section Purpose
variable (ibx : Inbox) (path : Text)

def Changed (m0 : Option Manifest) (m1 : Manifest) (n : Nat) : Prop := ∃ cur,(keyOf path n,cur) ∈ m1 ∧
  ¬∃ f t,(m0.getD []).lookup (keyOf path n) = some ⟨some f,some t⟩ ∧ cur = ⟨some f,some t⟩

def Handled (cmds : List Cmd) (which : Nat → Prop) : Prop :=
  ∃ ns : List Nat,cmds.map Cmd.nr = ns.map render ∧ ns.Pairwise (· < ·) ∧ ∀ n,n ∈ ns ↔ which n

def Inbox.Newest (n : Nat) : Prop := n ∈ ibx.left ∧ ∀ m ∈ ibx.left,m ≤ n

def Inbox.Oldest (n : Nat) : Prop := n ∈ ibx.left ∧ ∀ m ∈ ibx.left,n ≤ m

def withoutSkipped (m1 : Manifest) : Manifest := m1.filter fun e => decide (∀ n ∈ ibx.skipped,e.1 ≠ keyOf path n)

def Right : Reply → Done → Prop
  | .failed,done => done = ⟨[],none⟩
  | .missing,done => done.kept = none ∧
    Handled done.cmds fun n => n ∈ ibx.left ∨ n ∉ ibx.skipped ∧ ∃ new,ibx.Newest new ∧ n = new + 1
  | .manifest m1,done => Handled done.cmds (fun n => n ∉ ibx.skipped ∧ Changed path ibx.stored m1 n) ∧
    ((∃ n,Changed path ibx.stored m1 n) → done.kept = some (withoutSkipped ibx path m1)) ∧
    ((¬∃ n,Changed path ibx.stored m1 n) → done.kept = none)

def Spared (keys : List Text) : Reply → Prop
  | .failed => True
  | .missing => ∃ old new,ibx.Oldest old ∧ ibx.Newest new ∧
    (old = new ∨ old + 1 ∈ ibx.skipped ∧ new + 1 ∈ ibx.skipped)
  | .manifest m1 => (¬∃ n,Changed path ibx.stored m1 n) ∨
    ∀ n,n ∉ ibx.skipped → keyOf path n ∈ m1.map Prod.fst → ¬Swept keys (keyOf path n)

def Reply.Keyed : Reply → Prop
  | .manifest m1 => Fetch.Keyed path m1
  | _ => True

end Purpose

theorem handledSorted {cmds : List Cmd} {ns : List Nat} {which : Nat → Prop}
    (ran : cmds.map Cmd.nr = (ns.insertionSort (· ≤ ·)).map render) :
    Handled cmds which ↔ ns.Nodup ∧ ∀ n,n ∈ ns ↔ which n := by
  have sorted := List.pairwise_insertionSort (· ≤ ·) ns
  constructor
  · rintro ⟨ms,same,ascending,members⟩
    have equal : ns.insertionSort (· ≤ ·) = ms := List.map_injective_iff.mpr (fun _ _ => renderInj) (ran.symm.trans same)
    have perm := List.perm_insertionSort (· ≤ ·) ns
    rw [equal] at perm
    refine ⟨perm.nodup_iff.mp (ascending.imp fun lt => Nat.ne_of_lt lt),fun n => ?_⟩
    rw [← perm.mem_iff,members]
  · rintro ⟨apart,same⟩
    refine ⟨_,ran,?_,fun n => ?_⟩
    · have once := (List.perm_insertionSort (· ≤ ·) ns).nodup_iff.mpr apart
      exact sorted.imp₂ (fun _ _ le ne => Nat.lt_of_le_of_ne le ne) once
    · rw [List.mem_insertionSort,same]

theorem ranAll {git : Cmd → Bool} {code : Nat} (runs : ∀ cmd,git cmd = true ∨ code ≠ 200 ∧ ∃ nr,cmd = .clone nr)
    (there nrs : List Text) :
    (runCmds git code there nrs).1.map Cmd.nr = nrs ∧ (runCmds git code there nrs).2 = true := by
  induction nrs generalizing there with
  | nil => exact ⟨rfl,rfl⟩
  | cons nr nrs ih =>
    unfold runCmds
    cases known : there.contains nr with
    | true =>
      have fine : git (.fetch nr) = true := by
        rcases runs (.fetch nr) with fine | ⟨_,_,clone⟩
        · exact fine
        · exact absurd clone nofun
      simp [fine,Cmd.nr,(ih _).1,(ih _).2]
    | false =>
      rcases runs (.clone nr) with fine | ⟨other,_⟩
      · simp [fine,Cmd.nr,(ih _).1,(ih _).2]
      · cases cloned : git (.clone nr) <;> simp [cloned,other,Cmd.nr,(ih _).1,(ih _).2]

theorem gitDirsOf (ibx : Inbox) {paths : List Text} {ns : List Nat} (shown : paths.filterMap epochOf = ns.map render) :
    gitDirs ibx paths = ((ns.filter fun n => !ibx.skipped.contains n).insertionSort (· ≤ ·)).map render := by
  have kept : ((ns.map render).filter fun nr => !(ibx.skipped.map render).contains nr) =
      (ns.filter fun n => !ibx.skipped.contains n).map render := by
    rw [List.filter_map]
    congr 1
    apply List.filter_congr
    intro n _
    have same : (ibx.skipped.map render).contains (render n) = ibx.skipped.contains n := by
      rw [Bool.eq_iff_iff]
      simp only [List.contains_iff_mem,List.mem_map]
      exact ⟨fun ⟨m,mem,same⟩ => renderInj same ▸ mem,fun mem => ⟨n,mem,rfl⟩⟩
    simp only [Function.comp_apply,same]
  unfold gitDirs
  rw [shown,kept]
  symm
  apply List.map_insertionSort
  intro a _ b _
  simp

theorem pathsShown (paths : Nat → Text) (shown : ∀ n,epochOf (paths n) = some (render n)) (ns : List Nat) :
    (ns.map paths).filterMap epochOf = ns.map render := by
  rw [List.filterMap_map]
  have same : epochOf ∘ paths = some ∘ render := funext shown
  rw [same,List.filterMap_eq_map]

/-! Without a manifest -/
section Missing
variable (ibx : Inbox)

theorem Inbox.mem_left {n : Nat} : n ∈ ibx.left ↔ n ∈ ibx.epochs ∧ ibx.writable n = true := List.mem_filter

theorem Inbox.leftUnskipped {n : Nat} (mem : n ∈ ibx.left) : n ∉ ibx.skipped := by
  intro skip
  have refused := (List.mem_filter.mp skip).2
  rw [(ibx.mem_left.mp mem).2] at refused
  exact absurd refused (by decide)

theorem Inbox.leftSorted : ibx.left.Pairwise (· ≥ ·) :=
  (List.pairwise_insertionSort (· ≥ ·) ((ibx.readdir.filterMap epochName).map value)).filter _

theorem Inbox.newestOnly {a b : Nat} (newestA : ibx.Newest a) (newestB : ibx.Newest b) : a = b :=
  Nat.le_antisymm (newestB.2 a newestA.1) (newestA.2 b newestB.1)

theorem Inbox.leftEnds (nonempty : ibx.left ≠ []) :
    ∃ old new,ibx.Oldest old ∧ ibx.Newest new ∧ ibx.left.getLast? = some old := by
  have sorted := ibx.leftSorted
  obtain ⟨new,rest,shape⟩ := List.exists_cons_of_ne_nil nonempty
  obtain ⟨most,old,split⟩ := (List.eq_nil_or_concat ibx.left).resolve_left nonempty
  rw [List.concat_eq_append] at split
  refine ⟨old,new,⟨?_,?_⟩,⟨?_,?_⟩,?_⟩
  · simp [split]
  · intro m mem
    rw [split] at mem sorted
    rcases List.mem_append.mp mem with before | last
    · exact (List.pairwise_append.mp sorted).2.2 m before old (List.mem_singleton.mpr rfl)
    · exact Nat.le_of_eq (List.mem_singleton.mp last).symm
  · simp [shape]
  · intro m mem
    rw [shape] at mem sorted
    rcases List.mem_cons.mp mem with same | after
    · exact Nat.le_of_eq same
    · exact (List.pairwise_cons.mp sorted).1 m after
  · rw [split,List.getLast?_concat]

def Inbox.next : List Nat :=
  match ibx.left.getLast? with
  | none => []
  | some nr => if ibx.skipped.contains (nr + 1) then [] else [nr + 1]

theorem noManifestOf : noManifest ibx = (ibx.left ++ ibx.next).map fun n => ibx.gitDir (render n) := by
  unfold noManifest Inbox.next
  rw [List.map_append]
  congr 1
  cases ibx.left.getLast? with
  | none => rfl
  | some nr =>
    dsimp only
    split <;> rfl

theorem gitDirsMissing :
    gitDirs ibx (noManifest ibx) = ((ibx.left ++ ibx.next).insertionSort (· ≤ ·)).map render := by
  have unskipped : (ibx.left ++ ibx.next).filter (fun n => !ibx.skipped.contains n) = ibx.left ++ ibx.next := by
    rw [List.filter_eq_self]
    intro n mem
    suffices n ∉ ibx.skipped by simpa using this
    rcases List.mem_append.mp mem with here | next
    · exact ibx.leftUnskipped here
    · unfold Inbox.next at next
      split at next
      · exact absurd next List.not_mem_nil
      · split at next
        · exact absurd next List.not_mem_nil
        · rename_i free
          rw [List.mem_singleton.mp next]
          simpa using free
  have shown := pathsShown (fun n => ibx.gitDir (render n)) (epochOfKey ibx.dir) (ibx.left ++ ibx.next)
  rw [noManifestOf,gitDirsOf ibx shown,unskipped]

theorem handledMissing {old new : Nat} (apart : ibx.epochs.Nodup) (oldest : ibx.Oldest old) (newest : ibx.Newest new)
    (last : ibx.left.getLast? = some old) :
    ((ibx.left ++ ibx.next).Nodup ∧
      ∀ n,n ∈ ibx.left ++ ibx.next ↔ n ∈ ibx.left ∨ n ∉ ibx.skipped ∧ ∃ new,ibx.Newest new ∧ n = new + 1) ↔
    (old = new ∨ old + 1 ∈ ibx.skipped ∧ new + 1 ∈ ibx.skipped) := by
  have nextIs : ibx.next = if old + 1 ∈ ibx.skipped then [] else [old + 1] := by
    unfold Inbox.next
    rw [last]
    simp
  have once : ibx.left.Nodup := apart.filter _
  have beyond : new + 1 ∉ ibx.left := fun mem => absurd (newest.2 _ mem) (Nat.not_succ_le_self new)
  have after : ∀ n,(∃ new,ibx.Newest new ∧ n = new + 1) ↔ n = new + 1 := fun n =>
    ⟨fun ⟨_,other,same⟩ => ibx.newestOnly other newest ▸ same,fun same => ⟨new,newest,same⟩⟩
  simp only [after,List.mem_append]
  constructor
  · rintro ⟨nodup,same⟩
    rcases Nat.eq_or_lt_of_le (oldest.2 new newest.1) with equal | less
    · exact .inl equal
    right
    constructor
    · apply Classical.byContradiction
      intro free
      rw [if_neg free] at nextIs
      rw [nextIs] at nodup same
      rcases (same (old + 1)).mp (.inr (List.mem_singleton.mpr rfl)) with here | ⟨_,equal⟩
      · exact (List.nodup_append.mp nodup).2.2 _ here _ (List.mem_singleton.mpr rfl) rfl
      · omega
    · apply Classical.byContradiction
      intro free
      rcases (same (new + 1)).mpr (.inr ⟨free,rfl⟩) with here | next
      · exact beyond here
      · rw [nextIs] at next
        split at next
        · exact absurd next List.not_mem_nil
        · have := List.mem_singleton.mp next
          omega
  · intro ends
    rcases ends with rfl | ⟨oldSkipped,newSkipped⟩
    · split at nextIs
      · rename_i skip
        rw [nextIs,List.append_nil]
        refine ⟨once,fun n => ⟨fun mem => mem.elim .inl fun inNil => absurd inNil List.not_mem_nil,?_⟩⟩
        rintro (here | ⟨free,rfl⟩)
        · exact .inl here
        · exact absurd skip free
      · rename_i free
        rw [nextIs]
        refine ⟨once.append (List.nodup_singleton _) (by simpa using beyond),fun n => ?_⟩
        rw [List.mem_singleton]
        exact or_congr_right ⟨fun same => ⟨same ▸ free,same⟩,And.right⟩
    · rw [if_pos oldSkipped] at nextIs
      rw [nextIs,List.append_nil]
      refine ⟨once,fun n => ⟨fun mem => mem.elim .inl fun inNil => absurd inNil List.not_mem_nil,?_⟩⟩
      rintro (here | ⟨free,rfl⟩)
      · exact .inl here
      · exact absurd newSkipped free

end Missing

/-! With a manifest -/
section Manifests
variable (ibx : Inbox) {path : Text} {m1 : Manifest} {keys : List Text}

theorem unchangedIff (m0 : Manifest) (k : Text) (cur : Entry) :
    unchanged m0 k cur = true ↔ ∃ f t,m0.lookup k = some ⟨some f,some t⟩ ∧ cur = ⟨some f,some t⟩ := by
  unfold unchanged
  constructor
  · intro same
    split at same
    · exact absurd same nofun
    · rename_i v0 found
      split at same
      · rename_i f0 f1 t0 t1 isF0 isF1 isT0 isT1
        simp only [Bool.and_eq_true,beq_iff_eq] at same
        obtain ⟨rfl,rfl⟩ := same
        refine ⟨f0,t0,found.trans (congrArg some ?_),?_⟩
        · rw [← isF0,← isT0]
        · rw [← isF1,← isT1]
      · exact absurd same nofun
  · rintro ⟨f,t,found,rfl⟩
    simp [found]

theorem changedIff (n : Nat) :
    Changed path ibx.stored m1 n ↔ keyOf path n ∈ (mdiff ibx.stored m1).map Prod.fst := by
  simp only [Changed,← unchangedIff,mdiff,List.mem_map,List.mem_filter,Bool.not_eq_true',Bool.not_eq_true]
  constructor
  · rintro ⟨cur,mem,differs⟩
    exact ⟨(keyOf path n,cur),⟨mem,differs⟩,rfl⟩
  · rintro ⟨⟨k,cur⟩,⟨mem,differs⟩,rfl⟩
    exact ⟨cur,mem,differs⟩

theorem spareAll (empty : ibx.skipped = []) : withoutSkipped ibx path m1 = m1 := by
  rw [withoutSkipped,List.filter_eq_self]
  simp [empty]

theorem culledRight (keyed : Keyed path m1) (order : keys.Perm (ibx.skipped.map render)) :
    culled ibx keys m1 = withoutSkipped ibx path m1 ↔
      ∀ n,n ∉ ibx.skipped → keyOf path n ∈ m1.map Prod.fst → ¬Swept keys (keyOf path n) := by
  unfold culled
  split
  · rename_i skips
    have joined : keys ≠ [] := by
      rintro rfl
      exact skips (by simpa using order.length_eq.symm)
    have dropped : ∀ n ∈ ibx.skipped,reMatches keys (keyOf path n) = true := fun n skip =>
      sweptSkipped path (order.mem_iff.mpr (List.mem_map.mpr ⟨n,skip,rfl⟩))
    have spared : ∀ n,n ∉ ibx.skipped → (reMatches keys (keyOf path n) = true ↔ Swept keys (keyOf path n)) := by
      intro n free
      refine sweptOther path (fun k mem => ?_) joined
      obtain ⟨m,skip,same⟩ := List.mem_map.mp (order.mem_iff.mp mem)
      exact ⟨m,same.symm,fun equal => free (equal ▸ skip)⟩
    have keeps : ∀ n,(∀ m ∈ ibx.skipped,keyOf path n ≠ keyOf path m) ↔ n ∉ ibx.skipped := fun n =>
      ⟨fun apart skip => apart n skip rfl,fun free m skip same => free (keyInj same ▸ skip)⟩
    constructor
    · intro same n free mem swept
      obtain ⟨e,inside,key⟩ := List.mem_map.mp mem
      have kept : e ∈ withoutSkipped ibx path m1 := by
        rw [withoutSkipped,List.mem_filter,key,decide_eq_true_iff]
        exact ⟨inside,(keeps n).mpr free⟩
      rw [← same,List.mem_filter,key,(spared n free).mpr swept] at kept
      exact absurd kept.2 (by decide)
    · intro free
      apply List.filter_congr
      intro e mem
      obtain ⟨n,key⟩ := keyed.2 e.1 (List.mem_map.mpr ⟨e,mem,rfl⟩)
      rw [key]
      by_cases skip : n ∈ ibx.skipped
      · have gone : ¬∀ m ∈ ibx.skipped,keyOf path n ≠ keyOf path m := fun apart => (keeps n).mp apart skip
        rw [dropped n skip,decide_eq_false gone]
        rfl
      · have unswept : ¬Swept keys (keyOf path n) := free n skip (key ▸ List.mem_map.mpr ⟨e,mem,rfl⟩)
        rw [← spared n skip,Bool.not_eq_true] at unswept
        rw [unswept,decide_eq_true ((keeps n).mpr skip)]
        rfl
  · rename_i nothing
    have empty : ibx.skipped = [] := by simpa using nothing
    have unjoined : keys = [] := by simpa [empty] using order
    rw [spareAll ibx empty]
    refine ⟨fun _ n _ _ => ?_,fun _ => rfl⟩
    rintro ⟨_,_,_,same,_⟩
    simp [unjoined] at same

theorem handledManifest {cmds : List Cmd} {es : Manifest} {uri : Text} (keyed : Keyed (chopSlashes uri) m1)
    (differs : mdiff ibx.stored m1 = es) (nonempty : es ≠ [])
    (ran : cmds.map Cmd.nr = gitDirs ibx (deduceEpochs es uri).2) :
    Handled cmds fun n => n ∉ ibx.skipped ∧ Changed (chopSlashes uri) ibx.stored m1 n := by
  have changedKeys : Keyed (chopSlashes uri) es := differs ▸ keyed.filter _
  obtain ⟨ns,once,shown⟩ := changedKeys.numbers
  rw [deduceKeyed changedKeys nonempty,shown,gitDirsOf ibx (pathsShown _ (epochOfKey _) ns)] at ran
  rw [handledSorted ran]
  refine ⟨once.filter _,fun n => ?_⟩
  rw [changedIff,differs,shown,List.mem_filter,List.mem_map]
  simp only [Bool.not_eq_true',List.contains_eq_mem,decide_eq_false_iff_not]
  exact ⟨fun ⟨mem,free⟩ => ⟨free,n,mem,rfl⟩,fun ⟨free,_,mem,same⟩ => ⟨keyInj same ▸ mem,free⟩⟩

end Manifests

/- `runs`: only a clone of an epoch that no manifest names may fail. -/
theorem fetchRight (ibx : Inbox) (uriPath : Text → Text) (keys : List Text) (git : Cmd → Bool) (reply : Reply) (url : Text)
    (asked : inboxUrl ibx = .ok url) (apart : ibx.epochs.Nodup) (order : keys.Perm (ibx.skipped.map render))
    (runs : ∀ cmd,git cmd = true ∨ (∀ m1,reply ≠ .manifest m1) ∧ ∃ nr,cmd = .clone nr)
    (keyed : reply.Keyed (chopSlashes (uriPath url))) :
    (∃ done,doFetch ibx uriPath keys git reply = .ok done ∧ Right ibx (chopSlashes (uriPath url)) reply done) ↔
      Spared ibx (chopSlashes (uriPath url)) keys reply := by
  unfold doFetch
  rw [asked]
  cases reply with
  | failed => simp [Right,Spared]
  | missing =>
    have nonempty : ibx.left ≠ [] := by
      intro empty
      simp [inboxUrl,empty] at asked
    obtain ⟨old,new,oldest,newest,last⟩ := ibx.leftEnds nonempty
    have tried : ∀ cmd,git cmd = true ∨ 404 ≠ 200 ∧ ∃ nr,cmd = .clone nr := fun cmd =>
      (runs cmd).imp_right fun clone => ⟨by decide,clone.2⟩
    have ran := (ranAll tried (ibx.readdir.filterMap epochName) (gitDirs ibx (noManifest ibx))).1
    rw [gitDirsMissing] at ran
    have ends : Spared ibx (chopSlashes (uriPath url)) keys .missing ↔
        (old = new ∨ old + 1 ∈ ibx.skipped ∧ new + 1 ∈ ibx.skipped) := by
      refine ⟨?_,fun ends => ⟨old,new,oldest,newest,ends⟩⟩
      rintro ⟨o,n,first,top,ends⟩
      rwa [ibx.newestOnly top newest,Nat.le_antisymm (first.2 old oldest.1) (oldest.2 o first.1)] at ends
    simp only [Except.ok.injEq,exists_eq_left',Right,true_and]
    rw [gitDirsMissing,handledSorted ran,handledMissing ibx apart oldest newest last,ends]
  | manifest m1 =>
    dsimp only
    have tried : ∀ cmd,git cmd = true ∨ 200 ≠ 200 ∧ ∃ nr,cmd = .clone nr := fun cmd =>
      (runs cmd).imp_right fun clone => absurd rfl (clone.1 m1)
    cases differs : mdiff ibx.stored m1 with
    | nil =>
      have same : ∀ n,¬Changed (chopSlashes (uriPath url)) ibx.stored m1 n := by
        intro n
        rw [changedIff,differs]
        exact List.not_mem_nil
      refine iff_of_true ⟨⟨[],none⟩,rfl,⟨[],rfl,.nil,fun n => ?_⟩,fun ⟨n,changed⟩ => absurd changed (same n),fun _ => rfl⟩
        (.inl fun ⟨n,changed⟩ => same n changed)
      exact ⟨fun mem => absurd mem List.not_mem_nil,fun both => absurd both.2 (same n)⟩
    | cons e es =>
      have ran := ranAll tried (ibx.readdir.filterMap epochName) (gitDirs ibx (deduceEpochs (e :: es) (uriPath url)).2)
      have changed : ∃ n,Changed (chopSlashes (uriPath url)) ibx.stored m1 n := by
        have mem : e ∈ mdiff ibx.stored m1 := differs ▸ List.mem_cons_self
        obtain ⟨n,key⟩ := keyed.2 e.1 (List.mem_map.mpr ⟨e,(List.mem_filter.mp mem).1,rfl⟩)
        refine ⟨n,(changedIff ibx n).mpr ?_⟩
        rw [← key]
        exact List.mem_map.mpr ⟨e,mem,rfl⟩
      have handled := handledManifest ibx keyed differs (List.cons_ne_nil e es) ran.1
      simp only [Except.ok.injEq,exists_eq_left',Right,ran.2,if_true,handled,true_and,changed,forall_const,not_true,
        false_imp_iff,and_true,Option.some.injEq,Spared,false_or]
      exact culledRight ibx keyed order

def gitName (n : Nat) : Text := render n ++ dotGit

def mirror (writable : Nat → Bool) (ns : List Nat) : Inbox where
  dir := ['/','d']
  readdir := ns.map gitName
  writable := writable
  remoteUrl := fun n => some (['h',':','/','p'] ++ slashGit ++ gitName n)
  stored := none

def remote (ns : List Nat) : Manifest := ns.map fun n => (keyOf ['/','p'] n,⟨some "f",some 1⟩)

def pathOf : Text → Text := (·.drop 2)

theorem fetchOldSkipped : (∃ done,
      doFetch (mirror (· != 0) [0,1,2]) pathOf [['0']] (fun _ => true) (.manifest (remote [0,1,2,3,10])) = .ok done ∧
      Right (mirror (· != 0) [0,1,2]) ['/','p'] (.manifest (remote [0,1,2,3,10])) done) ∧
    ∃ done,doFetch (mirror (· == 2) [0,1,2]) pathOf [['1'],['0']] (· != .clone ['3']) .missing = .ok done ∧
      Right (mirror (· == 2) [0,1,2]) ['/','p'] .missing done := by
  constructor
  · refine (fetchRight (mirror (· != 0) [0,1,2]) pathOf [['0']] (fun _ => true) (.manifest (remote [0,1,2,3,10])) ['h',':','/','p']
      rfl (by decide) (by decide) (fun _ => .inl rfl) ⟨by decide,?_⟩).mpr
      (.inr fun n _ _ ⟨_,_,_,same,_⟩ => by simp at same)
    intro k mem
    obtain ⟨e,inside,rfl⟩ := List.mem_map.mp mem
    obtain ⟨n,_,rfl⟩ := List.mem_map.mp inside
    exact ⟨n,rfl⟩
  · have left : (mirror (· == 2) [0,1,2]).left = [2] := by decide
    have only : (mirror (· == 2) [0,1,2]).Oldest 2 ∧ (mirror (· == 2) [0,1,2]).Newest 2 := by
      rw [Inbox.Oldest,Inbox.Newest,left]
      decide
    refine (fetchRight (mirror (· == 2) [0,1,2]) pathOf [['1'],['0']] (· != .clone ['3']) .missing ['h',':','/','p']
      rfl (by decide) (by decide) ?_ trivial).mpr ⟨2,2,only.1,only.2,.inl rfl⟩
    intro cmd
    by_cases third : cmd = .clone ['3']
    · exact .inr ⟨fun _ same => (by cases same),_,third⟩
    · exact .inl (bne_iff_ne.mpr third)

/- Without a manifest epoch 1 is fetched twice and epoch 3 never; with two skipped epochs the entry of epoch 10 is lost. -/
theorem fetchNotRight :
    (∃ done,doFetch (mirror (fun _ => true) [0,1,2]) pathOf [] (fun _ => true) .missing = .ok done ∧
      done.cmds = [.fetch ['0'],.fetch ['1'],.fetch ['1'],.fetch ['2']] ∧
      ¬Right (mirror (fun _ => true) [0,1,2]) ['/','p'] .missing done) ∧
    ∃ done,doFetch (mirror (· == 2) [0,1,2]) pathOf [['1'],['0']] (fun _ => true) (.manifest (remote [0,1,2,10])) = .ok done ∧
      done.kept = some (remote [2]) ∧
      ¬Right (mirror (· == 2) [0,1,2]) ['/','p'] (.manifest (remote [0,1,2,10])) done := by
  refine ⟨⟨⟨[.fetch ['0'],.fetch ['1'],.fetch ['1'],.fetch ['2']],none⟩,rfl,rfl,?_⟩,
    ⟨⟨[.fetch ['2'],.clone ['1','0']],some (remote [2])⟩,rfl,rfl,?_⟩⟩
  · rintro ⟨_,ns,same,ascending,_⟩
    have twice : ¬(ns.map render).Nodup := by
      rw [← same]
      decide
    exact twice ((ascending.imp fun less => Nat.ne_of_lt less).map render fun _ _ apart equal => apart (renderInj equal))
  · intro right
    have whole := right.2.1 ⟨2,⟨some "f",some 1⟩,by decide,fun ⟨_,_,found,_⟩ => by simp [mirror] at found⟩
    exact absurd whole (by decide)

end PublicInbox.Fetch
