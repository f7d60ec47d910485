import PublicInbox.Library.Stepwise
import PublicInbox.Library.Txn
import Mathlib.Data.List.Dedup
import Mathlib.Logic.Function.Basic

/-! CodeSearchIdx.pm: commits and repositories in the shards of a code search index. Each shard has a worker that
serves the requests of the parent in order; the parent indexes one repository at a time ($REPO_CTX). -/
namespace PublicInbox.CodeSearchIdx

/- The document of a GIT_DIR, and what partition_refs selected for it: that is nowhere in the index. -/
structure Doc (C F : Type) where
  fp : F
  selected : List C
  deriving DecidableEq

structure Db (C R F : Type) where
  commits : List C
  repos : R → Option (Doc C F)

inductive Req (C R F : Type) where
  | shardIndex (commits : List C)
  | storeRepo (gitDir : R) (doc : Doc C F)
  | shardCommit
  deriving DecidableEq

structure Shard (C R F : Type) where
  xdb : Txn (Db C R F)
  log : List C
  queue : List (Req C R F)

structure RepoCtx (C R F : Type) where
  gitDir : R
  doc : Doc C F
  active : List Nat

/- The round of messages that $repo_ctx is in, and the shards that {shard_ok} does not have yet -/
inductive Round (C R F : Type) where
  | idle
  | indexing (ctx : RepoCtx C R F) (waiting : List Nat)
  | storing (ctx : RepoCtx C R F)
  | committing (ctx : RepoCtx C R F) (waiting : List Nat)

structure Git (C R F : Type) where
  gitDir : R
  fp : F
  revList : List C
  deriving DecidableEq

structure World (C R F : Type) where
  shards : Nat → Shard C R F
  round : Round C R F
  idxq : List (Git C R F)
  reindex : Option (List C)

structure Cfg (C R : Type) where
  nshard : Nat
  oidHash : C → Nat
  gitDirHash : R → Nat
  seenMax : Nat

inductive Event (C R F : Type) where
  | cidxRun (reindex : Bool)
  | fpDone (git : Git C R F)
  | indexRepo (git : Git C R F)
  | serve (shard : Nat)
  | readLog (shard : Nat) (cmt : C)
  | ckpoint (shard : Nat)
  | shardDone (shard : Nat)
  | indexDone
  | repoStored
  | nextRepos

namespace Req
variable {C R F : Type}

def isIndex : Req C R F → Bool
  | .shardIndex _ => true
  | _ => false

def isStore : Req C R F → Bool
  | .storeRepo _ _ => true
  | _ => false

def isCommit : Req C R F → Bool
  | .shardCommit => true
  | _ => false

end Req

namespace Cfg
variable {C R : Type} (cfg : Cfg C R)

def shardOf (cmt : C) : Nat := cfg.oidHash cmt % cfg.nshard

def repoShard (gitDir : R) : Nat := cfg.gitDirHash gitDir % cfg.nshard

/- $REINDEX->set_maybe is true of a commit that was not yet set. It leaves $seen as it is. -/
def partitionRefs [DecidableEq C] (known : C → Bool) : Option (List C) → Nat → List C → List C × Option (List C)
  | reindex,_,[] => ([],reindex)
  | reindex,seen,cmt :: rest =>
    if reindex.any (cmt ∉ ·) then
      let (selected,after) := partitionRefs known (reindex.map (cmt :: ·)) seen rest
      (cmt :: selected,after)
    else if known cmt then
      if cfg.seenMax < seen+1 then ([],reindex) else partitionRefs known reindex (seen+1) rest
    else
      let (selected,after) := partitionRefs known reindex 0 rest
      (cmt :: selected,after)

end Cfg

namespace Shard
variable {C R F : Type} [DecidableEq C] [DecidableEq R] (s : Shard C R F)

def send (req : Req C R F) : Shard C R F := { s with queue := s.queue ++ [req] }

def serve : Shard C R F := match s.queue with
  | [] => s
  | .shardIndex commits :: queue => { s with log := s.log ++ commits,queue := queue }
  | .storeRepo gitDir doc :: queue =>
    { s with xdb := s.xdb.write fun db => { db with repos := Function.update db.repos gitDir (some doc) },queue := queue }
  | .shardCommit :: queue => { s with xdb := s.xdb.commit,queue := queue }

def readLog (cmt : C) : Shard C R F :=
  if cmt ∈ s.log then
    { s with xdb := s.xdb.write fun db => { db with commits := db.commits.insert cmt },log := s.log.erase cmt }
  else s

def ckpoint : Shard C R F := { s with xdb := s.xdb.commit }

def crash : Shard C R F := ⟨s.xdb.rollback,[],[]⟩

end Shard

namespace World
variable {C R F : Type} [DecidableEq C] [DecidableEq R] [DecidableEq F] (cfg : Cfg C R) (w : World C R F)

def update (i : Nat) (f : Shard C R F → Shard C R F) : World C R F :=
  { w with shards := Function.update w.shards i (f (w.shards i)) }

def known (cmt : C) : Bool := cmt ∈ (w.shards (cfg.shardOf cmt)).xdb.stored.commits

def fpDone (git : Git C R F) : World C R F :=
  let old := ((w.shards (cfg.repoShard git.gitDir)).xdb.stored.repos git.gitDir).map Doc.fp
  if w.reindex = none ∧ old = some git.fp then w else { w with idxq := w.idxq ++ [git] }

def indexRepo (git : Git C R F) : World C R F := match w.round with
  | .idle =>
    if git ∉ w.idxq then w
    else if git.revList = [] then { w with idxq := w.idxq.erase git }
    else
      let (selected,reindex) := cfg.partitionRefs (w.known cfg) w.reindex 0 git.revList
      let shardIn := fun i => selected.filter fun cmt => cfg.shardOf cmt = i
      let active := (selected.map cfg.shardOf).dedup
      { shards := fun i => if i ∈ active then (w.shards i).send (.shardIndex (shardIn i)) else w.shards i,
        round := .indexing ⟨git.gitDir,⟨git.fp,selected⟩,active⟩ active,
        idxq := w.idxq.erase git,
        reindex := reindex }
  | _ => w

/- cidx_reap_log and shard_commit answer with shard_done: the one as git log exits, that is after the request was
served and before or after its output is read. -/
def shardDone (i : Nat) : World C R F := match w.round with
  | .indexing ctx waiting =>
    if (w.shards i).queue.any Req.isIndex then w
    else { w with round := .indexing ctx (waiting.filter (· ≠ i)) }
  | .committing ctx waiting =>
    if (w.shards i).queue.any Req.isCommit then w
    else { w with round := .committing ctx (waiting.filter (· ≠ i)) }
  | _ => w

def indexDone : World C R F := match w.round with
  | .indexing ctx [] =>
    let n := cfg.repoShard ctx.gitDir
    { w.update n (Shard.send · (.storeRepo ctx.gitDir ctx.doc)) with
      round := .storing { ctx with active := ctx.active.insert n } }
  | _ => w

def repoStored : World C R F := match w.round with
  | .storing ctx =>
    if (w.shards (cfg.repoShard ctx.gitDir)).queue.any Req.isStore then w
    else
      { w with
        shards := fun i => if i ∈ ctx.active then (w.shards i).send .shardCommit else w.shards i,
        round := .committing ctx ctx.active }
  | _ => w

def nextRepos : World C R F := match w.round with
  | .committing _ [] => { w with round := .idle }
  | _ => w

def cidxRun (reindex : Bool) : World C R F where
  shards := fun i => (w.shards i).crash
  round := .idle
  idxq := []
  reindex := if reindex then some [] else none

def step (w : World C R F) : Event C R F → World C R F
  | .cidxRun reindex => w.cidxRun reindex
  | .fpDone git => w.fpDone cfg git
  | .indexRepo git => w.indexRepo cfg git
  | .serve i => w.update i Shard.serve
  | .readLog i cmt => w.update i (Shard.readLog · cmt)
  | .ckpoint i => w.update i Shard.ckpoint
  | .shardDone i => w.shardDone i
  | .indexDone => w.indexDone cfg
  | .repoStored => w.repoStored cfg
  | .nextRepos => w.nextRepos

def start : World C R F := ⟨fun _ => ⟨⟨⟨[],fun _ => none⟩,⟨[],fun _ => none⟩⟩,[],[]⟩,.idle,[],none⟩

def FingerprintsCover : Prop := ∀ (refs : R → F) i gitDir doc,
  (w.shards i).xdb.stored.repos gitDir = some doc → doc.fp = refs gitDir →
    ∀ cmt ∈ doc.selected,cmt ∈ (w.shards (cfg.shardOf cmt)).xdb.stored.commits

end World

def Shard.Outstanding {C R F : Type} (s : Shard C R F) (cmt : C) : Prop :=
  cmt ∉ s.xdb.stored.commits ∧ (cmt ∈ s.log ∨ cmt ∈ s.xdb.shown.commits)

namespace World
variable {C R F : Type} [DecidableEq C] [DecidableEq R] [DecidableEq F] (cfg : Cfg C R) (w : World C R F)

def CommitsLast (i : Nat) : Prop := ∀ gitDir doc,
  (w.shards i).xdb.shown.repos gitDir = some doc → (w.shards i).xdb.stored.repos gitDir ≠ some doc →
    ∀ cmt ∈ doc.selected,(w.shards (cfg.shardOf cmt)).Outstanding cmt →
      cfg.shardOf cmt = i ∧ cmt ∈ (w.shards i).xdb.shown.commits

def Allowed : Event C R F → Prop
  | .serve i => (w.shards i).queue.head? = some .shardCommit → w.CommitsLast cfg i
  | .ckpoint i => w.CommitsLast cfg i
  | _ => True

end World

namespace Shard
variable {C R F : Type} [DecidableEq C] [DecidableEq R] {s s' : Shard C R F}

def Holds (s : Shard C R F) (cmt : C) : Prop := cmt ∈ s.xdb.shown.commits ∨ cmt ∈ s.log

structure Works (s s' : Shard C R F) : Prop where
  holds : ∀ {cmt},s.Holds cmt → s'.Holds cmt
  stored : s'.xdb.stored = s.xdb.stored ∨ s'.xdb.stored = s.xdb.shown ∧ s'.xdb.shown = s.xdb.shown
  shown : ∀ {cmt},cmt ∈ s.xdb.shown.commits → cmt ∈ s'.xdb.shown.commits
  repos : ∀ {gitDir doc},s'.xdb.shown.repos gitDir = some doc →
    s.xdb.shown.repos gitDir = some doc ∨ .storeRepo gitDir doc ∈ s.queue
  queue : ∀ {req},req ∈ s'.queue → req ∈ s.queue
  indexed : ∀ {commits cmt},.shardIndex commits ∈ s.queue → cmt ∈ commits → .shardIndex commits ∈ s'.queue ∨ s'.Holds cmt

omit [DecidableEq C] [DecidableEq R] in
theorem worksRefl : s.Works s :=
  ⟨id,.inl rfl,id,.inl,id,fun queued _ => .inl queued⟩

omit [DecidableEq C] in
theorem serveWorks : s.Works s.serve := by
  unfold serve
  split
  · exact worksRefl
  · rename_i commits queue is
    refine ⟨?_,.inl rfl,id,.inl,fun mem => is ▸ List.mem_cons_of_mem _ mem,?_⟩
    · intro cmt held
      exact held.imp id (List.mem_append_left _)
    · intro cs cmt queued mem
      rcases List.mem_cons.mp (is ▸ queued) with same | later
      · cases same
        exact .inr (.inr (List.mem_append_right _ mem))
      · exact .inl later
  · rename_i gitDir doc queue is
    refine ⟨id,.inl rfl,id,?_,fun mem => is ▸ List.mem_cons_of_mem _ mem,?_⟩
    · intro r d found
      simp only [Txn.write,Function.update_apply] at found
      split at found
      · rename_i same
        cases found
        exact .inr (by rw [is,same]; exact List.mem_cons_self)
      · exact .inl found
    · intro cs cmt queued mem
      rcases List.mem_cons.mp (is ▸ queued) with same | later
      · cases same
      · exact .inl later
  · rename_i queue is
    refine ⟨id,.inr ⟨rfl,rfl⟩,id,.inl,fun mem => is ▸ List.mem_cons_of_mem _ mem,?_⟩
    intro cs cmt queued mem
    rcases List.mem_cons.mp (is ▸ queued) with same | later
    · cases same
    · exact .inl later

omit [DecidableEq R] in
theorem readLogWorks (cmt : C) : s.Works (s.readLog cmt) := by
  unfold readLog
  split
  · refine ⟨?_,.inl rfl,fun mem => List.mem_insert_of_mem mem,.inl,id,fun queued _ => .inl queued⟩
    intro c held
    rcases held with shown | unread
    · exact .inl (List.mem_insert_of_mem shown)
    · by_cases same : c = cmt
      · exact .inl (same ▸ List.mem_insert_self)
      · exact .inr ((List.mem_erase_of_ne same).mpr unread)
  · exact worksRefl

omit [DecidableEq C] [DecidableEq R] in
theorem ckpointWorks : s.Works s.ckpoint :=
  ⟨id,.inr ⟨rfl,rfl⟩,id,.inl,id,fun queued _ => .inl queued⟩

omit [DecidableEq C] in
theorem serveStored (other : s.queue.head? ≠ some .shardCommit) : s.serve.xdb.stored = s.xdb.stored := by
  unfold serve
  split
  · rfl
  · rfl
  · rfl
  · rename_i queue is
    exact absurd (by rw [is]; rfl) other

omit [DecidableEq C] in
theorem serveCommits (commit : s.queue.head? = some .shardCommit) : s.serve.xdb.stored = s.xdb.shown := by
  cases is : s.queue with
  | nil =>
    rw [is] at commit
    cases commit
  | cons req queue =>
    rw [is] at commit
    cases Option.some.inj commit
    simp only [serve,is]
    rfl

end Shard

namespace World
variable {C R F : Type} {cfg : Cfg C R} {w w' : World C R F}

structure Inv (cfg : Cfg C R) (w : World C R F) : Prop where
  kept : ∀ {i cmt},cmt ∈ (w.shards i).xdb.stored.commits → cmt ∈ (w.shards i).xdb.shown.commits
  sound : ∀ {i gitDir doc},(w.shards i).xdb.stored.repos gitDir = some doc →
    ∀ cmt ∈ doc.selected,cmt ∈ (w.shards (cfg.shardOf cmt)).xdb.stored.commits
  docs : ∀ {i gitDir doc},(w.shards i).xdb.shown.repos gitDir = some doc →
    ∀ cmt ∈ doc.selected,(w.shards (cfg.shardOf cmt)).Holds cmt
  reqs : ∀ {i gitDir doc},.storeRepo gitDir doc ∈ (w.shards i).queue →
    ∀ cmt ∈ doc.selected,(w.shards (cfg.shardOf cmt)).Holds cmt
  indexing : ∀ {ctx waiting},w.round = .indexing ctx waiting → ∀ cmt ∈ ctx.doc.selected,
    (w.shards (cfg.shardOf cmt)).Holds cmt ∨ cfg.shardOf cmt ∈ waiting ∧
      ∃ commits,.shardIndex commits ∈ (w.shards (cfg.shardOf cmt)).queue ∧ cmt ∈ commits

theorem coverAll : w.FingerprintsCover cfg ↔ ∀ i gitDir doc,(w.shards i).xdb.stored.repos gitDir = some doc →
    ∀ cmt ∈ doc.selected,cmt ∈ (w.shards (cfg.shardOf cmt)).xdb.stored.commits :=
  ⟨fun cover i r doc found => cover (fun _ => doc.fp) i r doc found rfl,fun all _ i r doc found _ => all i r doc found⟩

theorem atShard (w : World C R F) (i : Nat) (f : Shard C R F → Shard C R F) : (w.update i f).shards i = f (w.shards i) :=
  Function.update_self ..

theorem apart (w : World C R F) {i j : Nat} (f : Shard C R F → Shard C R F) (ne : j ≠ i) :
    (w.update i f).shards j = w.shards j :=
  Function.update_of_ne ne ..

theorem updateWorks {i : Nat} {f : Shard C R F → Shard C R F} (works : (w.shards i).Works (f (w.shards i))) (j : Nat) :
    (w.shards j).Works ((w.update i f).shards j) := by
  by_cases same : j = i
  · subst same
    rw [atShard]
    exact works
  · rw [apart w f same]
    exact Shard.worksRefl

theorem worksInv {i : Nat} {f : Shard C R F → Shard C R F} (inv : w.Inv cfg) (works : (w.shards i).Works (f (w.shards i)))
    (cover : (w.update i f).FingerprintsCover cfg) : (w.update i f).Inv cfg := by
  have at_ := fun j => updateWorks works j
  constructor
  · intro j cmt there
    rcases (at_ j).stored with same | ⟨same,shown⟩
    · rw [same] at there
      exact (at_ j).shown (inv.kept there)
    · rw [same] at there
      rw [shown]
      exact there
  · intro j r doc found
    exact coverAll.mp cover j r doc found
  · intro j r doc found cmt mem
    rcases (at_ j).repos found with before | queued
    · exact (at_ _).holds (inv.docs before cmt mem)
    · exact (at_ _).holds (inv.reqs queued cmt mem)
  · intro j r doc queued cmt mem
    exact (at_ _).holds (inv.reqs ((at_ j).queue queued) cmt mem)
  · intro ctx waiting is cmt mem
    rcases inv.indexing is cmt mem with held | ⟨waits,commits,queued,listed⟩
    · exact .inl ((at_ _).holds held)
    · rcases (at_ _).indexed queued listed with still | held
      · exact .inr ⟨waits,commits,still,listed⟩
      · exact .inl held

theorem sameCover (inv : w.Inv cfg) (same : ∀ i,(w'.shards i).xdb.stored = (w.shards i).xdb.stored) :
    w'.FingerprintsCover cfg := by
  refine coverAll.mpr fun i r doc found cmt mem => ?_
  rw [same] at found ⊢
  exact inv.sound found cmt mem

theorem commitCovers {i : Nat} {f : Shard C R F → Shard C R F} (inv : w.Inv cfg)
    (commits : (f (w.shards i)).xdb.stored = (w.shards i).xdb.shown) :
    (w.update i f).FingerprintsCover cfg ↔ w.CommitsLast cfg i := by
  rw [coverAll]
  constructor
  · intro cover r doc shown new cmt mem outstanding
    have stored : cmt ∈ ((w.update i f).shards (cfg.shardOf cmt)).xdb.stored.commits :=
      cover i r doc (by rw [atShard,commits]; exact shown) cmt mem
    by_cases same : cfg.shardOf cmt = i
    · rw [same,atShard,commits] at stored
      exact ⟨same,stored⟩
    · rw [apart w f same] at stored
      exact absurd stored outstanding.1
  · intro last j r doc found cmt mem
    have grows : cmt ∈ (w.shards (cfg.shardOf cmt)).xdb.stored.commits →
        cmt ∈ ((w.update i f).shards (cfg.shardOf cmt)).xdb.stored.commits := by
      intro there
      by_cases same : cfg.shardOf cmt = i
      · rw [same] at there ⊢
        rw [atShard,commits]
        exact inv.kept there
      · rw [apart w f same]
        exact there
    by_cases same : j = i
    · rw [same,atShard,commits] at found
      by_cases old : (w.shards i).xdb.stored.repos r = some doc
      · exact grows (inv.sound old cmt mem)
      · by_cases there : cmt ∈ (w.shards (cfg.shardOf cmt)).xdb.stored.commits
        · exact grows there
        · obtain ⟨own,shown⟩ := last r doc found old cmt mem ⟨there,(inv.docs found cmt mem).symm⟩
          rw [own,atShard,commits]
          exact shown
    · rw [apart w f same] at found
      exact grows (inv.sound found cmt mem)

theorem parentInv (inv : w.Inv cfg) (xdb : ∀ i,(w'.shards i).xdb = (w.shards i).xdb) (log : ∀ i,(w'.shards i).log = (w.shards i).log)
    (reqs : ∀ {i gitDir doc},.storeRepo gitDir doc ∈ (w'.shards i).queue → .storeRepo gitDir doc ∈ (w.shards i).queue ∨
      ∀ cmt ∈ doc.selected,(w.shards (cfg.shardOf cmt)).Holds cmt)
    (indexing : ∀ {ctx waiting},w'.round = .indexing ctx waiting → ∀ cmt ∈ ctx.doc.selected,
      (w.shards (cfg.shardOf cmt)).Holds cmt ∨ cfg.shardOf cmt ∈ waiting ∧
        ∃ commits,.shardIndex commits ∈ (w'.shards (cfg.shardOf cmt)).queue ∧ cmt ∈ commits) : w'.Inv cfg := by
  have holds : ∀ {i cmt},(w.shards i).Holds cmt → (w'.shards i).Holds cmt := by
    intro i cmt held
    rw [Shard.Holds,xdb,log]
    exact held
  constructor
  · intro i cmt there
    rw [xdb] at there ⊢
    exact inv.kept there
  · intro i r doc found cmt mem
    rw [xdb] at found ⊢
    exact inv.sound found cmt mem
  · intro i r doc found cmt mem
    rw [xdb] at found
    exact holds (inv.docs found cmt mem)
  · intro i r doc queued cmt mem
    rcases reqs queued with before | held
    · exact holds (inv.reqs before cmt mem)
    · exact holds (held cmt mem)
  · intro ctx waiting is cmt mem
    exact (indexing is cmt mem).imp_left holds

theorem cidxRunInv (inv : w.Inv cfg) (reindex : Bool) : (w.cidxRun reindex).Inv cfg where
  kept := id
  sound := inv.sound
  docs := fun found cmt mem => .inl (inv.sound found cmt mem)
  reqs := fun queued => absurd queued (List.not_mem_nil)
  indexing := fun is => by cases is

theorem shardDoneInv (inv : w.Inv cfg) (i : Nat) : (w.shardDone i).Inv cfg := by
  unfold shardDone
  split
  · rename_i ctx waiting round
    split
    · exact inv
    · rename_i served
      refine parentInv inv (fun _ => rfl) (fun _ => rfl) .inl (fun {ctx' waiting'} is cmt mem => ?_)
      cases is
      rcases inv.indexing round cmt mem with held | ⟨waits,commits,queued,listed⟩
      · exact .inl held
      · refine .inr ⟨List.mem_filter.mpr ⟨waits,decide_eq_true fun same => served ?_⟩,commits,queued,listed⟩
        exact List.any_eq_true.mpr ⟨_,same ▸ queued,rfl⟩
  · split
    · exact inv
    · exact parentInv inv (fun _ => rfl) (fun _ => rfl) .inl (fun is => by cases is)
  · exact inv

theorem indexDoneInv (inv : w.Inv cfg) : (w.indexDone cfg).Inv cfg := by
  unfold indexDone
  split
  · rename_i ctx round
    have sent : ∀ j,((w.update (cfg.repoShard ctx.gitDir) (Shard.send · (.storeRepo ctx.gitDir ctx.doc))).shards j).xdb = (w.shards j).xdb ∧
        ((w.update (cfg.repoShard ctx.gitDir) (Shard.send · (.storeRepo ctx.gitDir ctx.doc))).shards j).log = (w.shards j).log := by
      intro j
      by_cases same : j = cfg.repoShard ctx.gitDir
      · rw [same,atShard]
        exact ⟨rfl,rfl⟩
      · rw [apart w _ same]
        exact ⟨rfl,rfl⟩
    refine parentInv inv (fun j => (sent j).1) (fun j => (sent j).2) (fun {j r doc} queued => ?_) (fun is => by cases is)
    by_cases same : j = cfg.repoShard ctx.gitDir
    · simp only [same,atShard,Shard.send] at queued
      rcases List.mem_append.mp queued with before | new
      · exact .inl (same ▸ before)
      · cases List.mem_singleton.mp new
        refine .inr fun cmt mem => ?_
        rcases inv.indexing round cmt mem with held | ⟨waits,-⟩
        · exact held
        · exact absurd waits List.not_mem_nil
    · simp only [apart w _ same] at queued
      exact .inl queued
  · exact inv

theorem repoStoredInv (inv : w.Inv cfg) : (w.repoStored cfg).Inv cfg := by
  unfold repoStored
  split
  · split
    · exact inv
    · refine parentInv inv (fun i => ?_) (fun i => ?_) (fun {i r doc} queued => .inl ?_) (fun is => by cases is)
      · simp only
        split <;> rfl
      · simp only
        split <;> rfl
      · simp only at queued
        split at queued
        · simpa [Shard.send] using queued
        · exact queued
  · exact inv

theorem nextReposInv (inv : w.Inv cfg) : w.nextRepos.Inv cfg := by
  unfold nextRepos
  split
  · exact parentInv inv (fun _ => rfl) (fun _ => rfl) .inl (fun is => by cases is)
  · exact inv

theorem invCovers (inv : w.Inv cfg) : w.FingerprintsCover cfg := coverAll.mpr fun _ _ _ => inv.sound

theorem storedSame {i : Nat} {f : Shard C R F → Shard C R F} (same : (f (w.shards i)).xdb.stored = (w.shards i).xdb.stored) (j : Nat) :
    ((w.update i f).shards j).xdb.stored = (w.shards j).xdb.stored := by
  by_cases is : j = i
  · rw [is,atShard,same]
  · rw [apart w f is]

theorem startInv : (start : World C R F).Inv cfg where
  kept := id
  sound := fun found => by cases found
  docs := fun found => by cases found
  reqs := fun queued => absurd queued List.not_mem_nil
  indexing := fun is => by cases is

variable [DecidableEq F]

theorem fpDoneInv (inv : w.Inv cfg) (git : Git C R F) : (w.fpDone cfg git).Inv cfg := by
  simp only [fpDone]
  split
  · exact inv
  · exact parentInv inv (fun _ => rfl) (fun _ => rfl) .inl inv.indexing

variable [DecidableEq C] [DecidableEq R]

theorem indexRepoInv (inv : w.Inv cfg) (git : Git C R F) : (w.indexRepo cfg git).Inv cfg := by
  unfold indexRepo
  split
  · rename_i idle
    split
    · exact inv
    · split
      · exact parentInv inv (fun _ => rfl) (fun _ => rfl) .inl inv.indexing
      · obtain ⟨⟨selected,reindex⟩,is⟩ : ∃ t,cfg.partitionRefs (w.known cfg) w.reindex 0 git.revList = t := ⟨_,rfl⟩
        simp only [is]
        refine parentInv inv (fun i => ?_) (fun i => ?_) (fun {i r doc} queued => .inl ?_) (fun {ctx waiting} round cmt mem => .inr ?_)
        · simp only
          split <;> rfl
        · simp only
          split <;> rfl
        · simp only at queued
          split at queued
          · simpa [Shard.send] using queued
          · exact queued
        · cases round
          have active : cfg.shardOf cmt ∈ (selected.map cfg.shardOf).dedup := List.mem_dedup.mpr (List.mem_map_of_mem mem)
          refine ⟨active,selected.filter (fun c => cfg.shardOf c = cfg.shardOf cmt),?_,List.mem_filter.mpr ⟨mem,decide_eq_true rfl⟩⟩
          simp only [if_pos active]
          exact List.mem_append_right _ List.mem_cons_self
  · exact inv

theorem stepCovers (inv : w.Inv cfg) (e : Event C R F) : (w.step cfg e).FingerprintsCover cfg ↔ w.Allowed cfg e := by
  cases e with
  | cidxRun reindex => exact iff_of_true (invCovers (cidxRunInv inv reindex)) trivial
  | fpDone git => exact iff_of_true (invCovers (fpDoneInv inv git)) trivial
  | indexRepo git => exact iff_of_true (invCovers (indexRepoInv inv git)) trivial
  | serve i =>
    by_cases commit : (w.shards i).queue.head? = some .shardCommit
    · exact (commitCovers inv (Shard.serveCommits commit)).trans ⟨fun last _ => last,fun last => last commit⟩
    · exact iff_of_true (sameCover inv (storedSame (Shard.serveStored commit))) fun is => absurd is commit
  | readLog i cmt =>
    refine iff_of_true (sameCover inv (storedSame ?_)) trivial
    split <;> rfl
  | ckpoint i => exact commitCovers inv rfl
  | shardDone i => exact iff_of_true (invCovers (shardDoneInv inv i)) trivial
  | indexDone => exact iff_of_true (invCovers (indexDoneInv inv)) trivial
  | repoStored => exact iff_of_true (invCovers (repoStoredInv inv)) trivial
  | nextRepos => exact iff_of_true (invCovers (nextReposInv inv)) trivial

theorem stepInv (inv : w.Inv cfg) (e : Event C R F) (cover : (w.step cfg e).FingerprintsCover cfg) : (w.step cfg e).Inv cfg := by
  cases e with
  | cidxRun reindex => exact cidxRunInv inv reindex
  | fpDone git => exact fpDoneInv inv git
  | indexRepo git => exact indexRepoInv inv git
  | serve i => exact worksInv inv Shard.serveWorks cover
  | readLog i cmt => exact worksInv inv (Shard.readLogWorks cmt) cover
  | ckpoint i => exact worksInv inv Shard.ckpointWorks cover
  | shardDone i => exact shardDoneInv inv i
  | indexDone => exact indexDoneInv inv
  | repoStored => exact repoStoredInv inv
  | nextRepos => exact nextReposInv inv

/- Over any runs, crashes and relative speeds of the shards: the fingerprints cover no commit that is not committed
if and only if each shard that commits a document is the last one with any of the commits selected for it. -/
theorem fingerprintsCover (cfg : Cfg C R) (run : List (Event C R F)) :
    Stepwise.Along (step cfg) (fun w e => (w.step cfg e).FingerprintsCover cfg) start run ↔
      Stepwise.Along (step cfg) (Allowed cfg) start run :=
  Stepwise.alongIff (Inv cfg) (fun _ e inv => stepCovers inv e) (fun _ e inv cover => stepInv inv e cover) startInv

/- Two shards: the one with the repository document serves shard_commit before the one with the commit; then there is
a crash, and the next run skips the repository. -/
theorem unindexedCommitHidden :
    let cfg : Cfg Nat Nat := ⟨2,id,id,100000⟩
    let git : Git Nat Nat Nat := ⟨1,7,[0]⟩
    let run := [.cidxRun false,.fpDone git,.indexRepo git,.serve 0,.readLog 0 0,.shardDone 0,.indexDone,.serve 1,.repoStored,
      .serve 1,.cidxRun false,.fpDone git]
    ¬ Stepwise.Along (step cfg) (fun w e => (w.step cfg e).FingerprintsCover cfg) start run ∧
      (run.foldl (step cfg) start).idxq = [] ∧ ((run.foldl (step cfg) start).shards 0).xdb.stored.commits = [] := by
  refine ⟨fun along => ?_,rfl,rfl⟩
  have cover := along.2.2.2.2.2.2.2.2.2.1
  exact absurd (coverAll.mp cover 1 1 ⟨7,[0]⟩ rfl 0 List.mem_cons_self) List.not_mem_nil

end World
end PublicInbox.CodeSearchIdx
