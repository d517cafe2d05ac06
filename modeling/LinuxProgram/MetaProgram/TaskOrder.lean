import LinuxProgram.Lib.Loops
import LinuxProgram.MetaProgram.TaskDsl

/-!
# The order of a task

The links are the edges of a graph, and what has to come first is above in it.  `JobCmp`
compares by what is below, so `Sort` puts the jobs in a topological order, although it only ever
compares neighbours.  Where the graph has a cycle, the instantiations of `FindAllDescendants` do not
come to an end, and there is no such task.

* `findAllDescendants_succ` — one instantiation.
* `mem_findAllDescendants` — it finds what is below.
* `isSome_findAllDescendants` — its instantiations are nested as deep as the longest path is long.
* `sortedJobs_runs` — every job is called once, behind all that are above it.
* `exists_sortedJobs_iff` — the tasks that have an order are those without cycles.
-/

namespace LinuxProgram.MetaProgram.Task

open Lib TypeList Relation

variable {J : Type*} [DecidableEq J] {links : List (Connection J)} {a b x : J} {depth : ℕ}
  {jobs DECENDS result : List J}

/-- **A link** from one job to another. -/
def Edge (links : List (Connection J)) (a b : J) : Prop := ⟨a, b⟩ ∈ links

/-- **A path** along the links. -/
structure IsPath (links : List (Connection J)) (path : List J) : Prop where
  chain : path.IsChain (Edge links)
  jobs : ∀ j ∈ path, j ∈ allJobs links

/-- **What a task is for**: to call every job of its links, once, and no job before one that leads
to it. -/
structure Runs (links : List (Connection J)) (jobs : List J) : Prop where
  /-- No job is called twice. -/
  once : jobs.Nodup
  /-- The jobs of the links are called, and no others. -/
  all : ∀ j, j ∈ jobs ↔ ∃ link ∈ links, link.FROM = j ∨ link.DST = j
  /-- A job is called behind all that lead to it. -/
  ordered : ∀ a b, TransGen (Edge links) a b → jobs.idxOf a < jobs.idxOf b

/-! ### The graph -/

omit [DecidableEq J] in
theorem mem_of_transGen (h : TransGen (Edge links) a b) :
    (∃ link ∈ links, link.FROM = a) ∧ ∃ link ∈ links, link.DST = b := by
  refine ⟨?_, ?_⟩
  · obtain ⟨c, hac, -⟩ := TransGen.head'_iff.mp h
    exact ⟨_, hac, rfl⟩
  · obtain ⟨c, -, hcb⟩ := TransGen.tail'_iff.mp h
    exact ⟨_, hcb, rfl⟩

theorem mem_allJobs : x ∈ allJobs links ↔ ∃ link ∈ links, link.FROM = x ∨ link.DST = x := by
  rw [allJobs, mem_unique, List.mem_append, List.mem_map, List.mem_map, ← exists_or]
  refine exists_congr fun link => ?_
  rw [connections, mem_unique, and_or_left]

theorem mem_descendants : b ∈ (findJobDescendants links a).Descendants ↔ Edge links a b := by
  rw [findJobDescendants, List.mem_map]
  constructor
  · rintro ⟨link, hlink, rfl⟩
    obtain ⟨hmem, hfrom⟩ := List.mem_filter.mp hlink
    rw [decide_eq_true_eq] at hfrom
    rw [connections, mem_unique] at hmem
    rw [← hfrom]
    exact hmem
  · intro h
    refine ⟨⟨a, b⟩, List.mem_filter.mpr ⟨?_, decide_eq_true rfl⟩, rfl⟩
    rw [connections, mem_unique]
    exact h

theorem descendants_subset (links : List (Connection J)) (a : J) :
    ∀ j ∈ (findJobDescendants links a).Descendants, j ∈ allJobs links := fun _ hj =>
  mem_allJobs.mpr ⟨_, mem_descendants.mp hj, .inr rfl⟩

/-- **The look-up** of a job does not give `Nil`. -/
theorem findBy_jobDescendantsMap (h : a ∈ allJobs links) :
    findBy (fun DEP => DEP.Job = a) (jobDescendantsMap links) =
      some (findJobDescendants links a) := by
  rw [findBy_eq, jobDescendantsMap, List.find?_map]
  cases hfind : (allJobs links).find? ((fun DEP : JobDescendants J => decide (DEP.Job = a)) ∘
      findJobDescendants links) with
  | none => exact absurd (decide_eq_true rfl) (List.find?_eq_none.mp hfind a h)
  | some j =>
      have hj := List.find?_some hfind
      rw [Function.comp_apply, decide_eq_true_eq] at hj
      rw [Option.map_some, ← hj]
      rfl

/-! ### FindAllDescendants -/

/-- **One instantiation.** -/
theorem findAllDescendants_succ (hsub : ∀ j ∈ DECENDS, j ∈ allJobs links) :
    findAllDescendants links (depth + 1) DECENDS =
      (DECENDS.mapM fun job =>
        (findAllDescendants links depth (findJobDescendants links job).Descendants).map
          (job :: ·)).map List.flatten := by
  rw [findAllDescendants, foldlM_append (f := fun job =>
    (findAllDescendants links depth (findJobDescendants links job).Descendants).map (job :: ·))]
  · simp only [List.nil_append]
  · intro job hjob ACC
    rw [findBy_jobDescendantsMap (hsub job hjob), Option.bind_eq_bind, Option.bind_some]
    cases findAllDescendants links depth (findJobDescendants links job).Descendants with
    | none => rfl
    | some below => exact congrArg some (List.append_assoc _ _ _)

/-- **What is found** are the jobs and all that are below them. -/
theorem mem_findAllDescendants (hsub : ∀ j ∈ DECENDS, j ∈ allJobs links)
    (h : findAllDescendants links depth DECENDS = some result) :
    x ∈ result ↔ ∃ j ∈ DECENDS, ReflTransGen (Edge links) j x := by
  induction depth generalizing DECENDS result x with
  | zero => nomatch h
  | succ depth ih =>
      rw [findAllDescendants_succ hsub] at h
      obtain ⟨parts, hparts, rfl⟩ := Option.map_eq_some_iff.mp h
      rw [mapM_eq_some_iff] at hparts
      have hpart : ∀ j part, (findAllDescendants links depth
          (findJobDescendants links j).Descendants).map (j :: ·) = some part →
          (x ∈ part ↔ ReflTransGen (Edge links) j x) := by
        intro j part hpart
        obtain ⟨below, hbelow, rfl⟩ := Option.map_eq_some_iff.mp hpart
        rw [List.mem_cons, ih (descendants_subset links j) hbelow, ReflTransGen.cases_head_iff]
        simp only [mem_descendants, eq_comm]
      clear h
      induction hparts with
      | nil => simp
      | cons hj _ ihparts =>
          rw [List.forall_mem_cons] at hsub
          rw [List.flatten_cons, List.mem_append, List.exists_mem_cons_iff, hpart _ _ hj]
          exact or_congr_right (ihparts hsub.2)

/-- **How deep it is nested**: below a job, as deep as the longest path that begins there. -/
theorem isSome_findAllDescendants (a : J) :
    (findAllDescendants links depth (findJobDescendants links a).Descendants).isSome ↔
      ∀ path, (a :: path).IsChain (Edge links) → (a :: path).length ≤ depth := by
  induction depth generalizing a with
  | zero =>
      refine iff_of_false (fun h => nomatch h) fun h => ?_
      nomatch h [] (List.isChain_singleton _)
  | succ depth ih =>
      rw [findAllDescendants_succ (descendants_subset links a), Option.isSome_map, isSome_mapM]
      simp only [Option.isSome_map, ih, mem_descendants]
      constructor
      · intro h path hpath
        cases path with
        | nil => exact Nat.succ_le_succ (Nat.zero_le _)
        | cons b path =>
            obtain ⟨hab, hb⟩ := List.isChain_cons_cons.mp hpath
            exact Nat.succ_le_succ (h b hab path hb)
      · intro h b hab path hpath
        exact Nat.le_of_succ_le_succ (h (b :: path) (List.isChain_cons_cons.mpr ⟨hab, hpath⟩))

/-! ### The order -/

/-- What comes behind a job, as `JobAllDescendantsMap` has it. -/
theorem mem_allDescendants {map : List (JobAllDescendants J)}
    (h : jobAllDescendantsMap links depth = some map) :
    map.map JobAllDescendants.Job = allJobs links ∧
      ∀ e ∈ map, ∀ x, x ∈ e.AllDescendants ↔ TransGen (Edge links) e.Job x := by
  rw [jobAllDescendantsMap, mapM_eq_some_iff] at h
  have hjob : List.Forall₂ (fun DEP e => DEP = findJobDescendants links DEP.Job →
      DEP.Job = e.Job ∧ ∀ x, x ∈ e.AllDescendants ↔ TransGen (Edge links) e.Job x)
      (jobDescendantsMap links) map := by
    refine h.imp fun DEP e he hDEP => ?_
    obtain ⟨result, hresult, rfl⟩ := Option.map_eq_some_iff.mp he
    rw [hDEP] at hresult
    refine ⟨rfl, fun x => ?_⟩
    rw [mem_findAllDescendants (descendants_subset links _) hresult, TransGen.head'_iff]
    exact exists_congr fun j => and_congr_left' mem_descendants
  have hmap : ∀ DEP ∈ jobDescendantsMap links, DEP = findJobDescendants links DEP.Job := by
    intro DEP hDEP
    obtain ⟨j, -, rfl⟩ := List.mem_map.mp hDEP
    rfl
  have hjobs : (jobDescendantsMap links).map JobDescendants.Job = allJobs links := by
    rw [jobDescendantsMap, List.map_map]
    exact List.map_id _
  rw [← hjobs]
  clear h hjobs
  generalize jobDescendantsMap links = DEPs at hjob hmap ⊢
  induction hjob with
  | nil => exact ⟨rfl, fun e he => nomatch he⟩
  | cons he _ ih =>
      rw [List.forall_mem_cons] at hmap
      obtain ⟨heq, hbelow⟩ := he hmap.1
      obtain ⟨ihjobs, ihbelow⟩ := ih hmap.2
      refine ⟨?_, List.forall_mem_cons.mpr ⟨hbelow, ihbelow⟩⟩
      rw [List.map_cons, List.map_cons, ihjobs, heq]

/-- **Acyclic**: along the links no job is behind itself. -/
def Acyclic (links : List (Connection J)) : Prop := ∀ j, ¬ TransGen (Edge links) j j

/-- A job with a finite depth below it is on no cycle. -/
theorem acc_of_isSome (h : (findAllDescendants links depth
    (findJobDescendants links a).Descendants).isSome) : Acc (fun y x => Edge links x y) a := by
  induction depth generalizing a with
  | zero => nomatch h
  | succ depth ih =>
      rw [findAllDescendants_succ (descendants_subset links a), Option.isSome_map,
        isSome_mapM] at h
      refine Acc.intro a fun b hab => ih ?_
      have hb := h b (mem_descendants.mpr hab)
      rwa [Option.isSome_map] at hb

theorem isSome_sortedJobs : (sortedJobs depth links).isSome ↔
    ∀ j ∈ allJobs links,
      (findAllDescendants links depth (findJobDescendants links j).Descendants).isSome := by
  rw [sortedJobs, Option.isSome_map, jobAllDescendantsMap, isSome_mapM, jobDescendantsMap,
    List.forall_mem_map]
  exact forall₂_congr fun j _ => by rw [Option.isSome_map]

/-- What compiles has no cycles. -/
theorem acyclic_of_isSome (h : (sortedJobs depth links).isSome) : Acyclic links := by
  intro j hj
  obtain ⟨⟨link, hlink, rfl⟩, -⟩ := mem_of_transGen hj
  have hacc := acc_of_isSome (isSome_sortedJobs.mp h link.FROM
    (mem_allJobs.mpr ⟨link, hlink, .inl rfl⟩))
  have hcycle : TransGen (fun y x => Edge links x y) link.FROM link.FROM := transGen_swap.mpr hj
  have hirrefl : ∀ a, Acc (TransGen fun y x => Edge links x y) a →
      ¬ TransGen (fun y x => Edge links x y) a a := by
    intro a ha
    induction ha with
    | intro a _ ih => exact fun haa => ih a haa haa
  exact hirrefl _ hacc.transGen hcycle

/-- **The order of a task** that is computed: each job of the links is called once, and behind all
jobs that lead to it.  `Sort` compares by what is below a job, which is a strict order because there
are no cycles. -/
theorem sortedJobs_runs (h : sortedJobs depth links = some jobs) : Runs links jobs := by
  have hacyclic : Acyclic links := acyclic_of_isSome (by rw [h]; rfl)
  obtain ⟨map, hmap, rfl⟩ := Option.map_eq_some_iff.mp h
  obtain ⟨hjobs, hbelow⟩ := mem_allDescendants hmap
  have hperm : ((sort jobCmp map).map JobAllDescendants.Job).Perm (allJobs links) := by
    rw [← hjobs]
    exact (sort_perm jobCmp map).map _
  have hnodup : ((sort jobCmp map).map JobAllDescendants.Job).Nodup :=
    hperm.nodup_iff.mpr (nodup_unique _)
  refine ⟨hnodup, fun j => by rw [hperm.mem_iff, mem_allJobs], fun a b hab => ?_⟩
  -- a strict order of the entries, of which `jobCmp` decides
  let above : JobAllDescendants J → JobAllDescendants J → Prop := fun E H =>
    TransGen (Edge links) E.Job H.Job
  have : IsTrans (JobAllDescendants J) above := ⟨fun _ _ _ => TransGen.trans⟩
  have : Std.Irrefl above := ⟨fun E => hacyclic E.Job⟩
  have hsorted : Respects above (sort jobCmp map) :=
    sort_respects fun E hE H _ => elem_iff.trans (hbelow E hE H.Job)
  have hrespects : Respects (TransGen (Edge links))
      ((sort jobCmp map).map JobAllDescendants.Job) := List.pairwise_map.mpr hsorted
  have : Std.Irrefl (TransGen (Edge links)) := ⟨hacyclic⟩
  obtain ⟨⟨link, hlink, rfl⟩, ⟨link', hlink', rfl⟩⟩ := mem_of_transGen hab
  have hmem : ∀ link ∈ links, ∀ j, link.FROM = j ∨ link.DST = j →
      j ∈ (sort jobCmp map).map JobAllDescendants.Job := fun link hlink j hj =>
    hperm.mem_iff.mpr (mem_allJobs.mpr ⟨link, hlink, hj⟩)
  exact hrespects.idxOf_lt (hmem link' hlink' _ (.inr rfl)) hab (hmem link hlink _ (.inl rfl))

/-- The links of `TaskDSL.cpp`, with numbers for its functions. -/
def serving : List (Connection ℕ) := [⟨2, 3⟩, ⟨2, 4⟩, ⟨0, 2⟩, ⟨1, 2⟩]

/-- Source, garnish, plating and the two services. -/
theorem sortedJobs_runs_serving : Runs serving [0, 1, 2, 3, 4] :=
  sortedJobs_runs (show sortedJobs 3 serving = some [0, 1, 2, 3, 4] by decide +kernel)

/-! ### What compiles -/

theorem IsPath.of_cons {path : List J} (ha : a ∈ allJobs links)
    (h : (a :: path).IsChain (Edge links)) : IsPath links (a :: path) := by
  refine ⟨h, ?_⟩
  induction path generalizing a with
  | nil => exact List.forall_mem_singleton.mpr ha
  | cons b path ih =>
      obtain ⟨hab, hb⟩ := List.isChain_cons_cons.mp h
      exact List.forall_mem_cons.mpr ⟨ha, ih (mem_allJobs.mpr ⟨_, hab, .inr rfl⟩) hb⟩

/-- All instantiations of `FindAllDescendants` are nested as deep as the longest path is long. -/
theorem sortedJobs_isSome_iff (depth : ℕ) (links : List (Connection J)) :
    (sortedJobs depth links).isSome ↔ ∀ path, IsPath links path → path.length ≤ depth := by
  rw [isSome_sortedJobs]
  simp only [isSome_findAllDescendants]
  constructor
  · intro h path hpath
    cases path with
    | nil => exact Nat.zero_le _
    | cons a path => exact h a (hpath.jobs a (.head _)) path hpath.chain
  · intro h a ha path hpath
    exact h (a :: path) (.of_cons ha hpath)

/-- Without cycles a path has no job twice. -/
theorem IsPath.length_le {path : List J} (hacyclic : Acyclic links) (h : IsPath links path) :
    path.length ≤ (allJobs links).length := by
  have hpair : path.Pairwise (TransGen (Edge links)) :=
    (h.chain.imp fun _ _ => TransGen.single).pairwise
  have hnodup : path.Nodup := by
    refine hpair.imp ?_
    rintro a b hab rfl
    exact hacyclic a hab
  exact (hnodup.subperm h.jobs).length_le

/-- **The tasks without cycles are those that have an order**: the nested instantiations of
`FindAllDescendants` come to an end at some depth exactly if no job is behind itself.  Without
cycles no path has a job twice, so that the number of jobs limits the depth; with one, every
instantiation that begins on it has another one in it. -/
theorem exists_sortedJobs_iff (links : List (Connection J)) :
    (∃ depth, (sortedJobs depth links).isSome) ↔ Acyclic links := by
  constructor
  · rintro ⟨depth, h⟩
    exact acyclic_of_isSome h
  · intro hacyclic
    refine ⟨(allJobs links).length, (sortedJobs_isSome_iff _ links).mpr fun path hpath => ?_⟩
    exact hpath.length_le hacyclic

end LinuxProgram.MetaProgram.Task
