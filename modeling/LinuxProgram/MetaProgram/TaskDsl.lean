import LinuxProgram.MetaProgram.Typelist

/-!
# The task DSL

`Task<LINKS...>` of `TaskDSL.cpp` takes links from one job to another.  When it is
instantiated it puts the jobs in an order, and `Run` calls them.  All of this happens while the
program is compiled: the functions below are templates, and what they return are types.

* `connections`, `allJobs`, `jobDescendantsMap` — what `JobDescendantsMap` makes of the links.
* `findAllDescendants` — the jobs below some others.  It is instantiated again for the
  descendants of each of them, so the links alone decide whether that comes to an end.
* `sortedJobs` — the jobs in the order in which `Run` calls them.  `none` is a program that
  does not compile.

The types `JobWrapper<J>` of two jobs are the same if the jobs are.  The parameter `depth` limits
how deep instantiations of `FindAllDescendants` are nested in each other, and nothing else.  The
other templates (`FoldL`, `Unique`, `Filter`, `FindBy`, `Sort`) are instantiated once more for each
element of a list that is there already; they come to an end on all lists, and the depth that they
add to a program is not counted.
-/

namespace LinuxProgram.MetaProgram.Task

open TypeList

/-- **`Connection`** of a link. -/
structure Connection (J : Type*) where
  FROM : J
  DST : J
  deriving DecidableEq, Repr

/-- A job with those that it has links to. -/
structure JobDescendants (J : Type*) where
  Job : J
  Descendants : List J

/-- A job with those that come behind it. -/
structure JobAllDescendants (J : Type*) where
  Job : J
  AllDescendants : List J

variable {J : Type*} [DecidableEq J]

/-- **`Connections`**: the same edge is there once. -/
def connections (links : List (Connection J)) : List (Connection J) := unique links

/-- **`AllJobs`.** -/
def allJobs (links : List (Connection J)) : List J :=
  unique ((connections links).map Connection.FROM ++ (connections links).map Connection.DST)

/-- **`FindJobDescendants`.** -/
def findJobDescendants (links : List (Connection J)) (job : J) : JobDescendants J where
  Job := job
  Descendants := ((connections links).filter fun C => C.FROM = job).map Connection.DST

/-- **`JobDescendantsMap_t`.** -/
def jobDescendantsMap (links : List (Connection J)) : List (JobDescendants J) :=
  (allJobs links).map (findJobDescendants links)

/-- **`FindAllDescendants`**, with the number of instantiations of it that may still be nested in
each other.  `AppendDes` is the function of the loop.  It instantiates `FindAllDescendants` for the
descendants of one job, and those of that job are in the depth below. -/
def findAllDescendants (links : List (Connection J)) : ℕ → List J → Option (List J)
  | 0, _ => none
  | depth + 1, DECENDS =>
      DECENDS.foldlM (fun ACC Job => do
        let DepsResult ← findBy (fun DEP => DEP.Job = Job) (jobDescendantsMap links)
        let below ← findAllDescendants links depth DepsResult.Descendants
        return (ACC ++ [Job]) ++ below) []

/-- **`JobAllDescendantsMap`**: each job with the jobs that come behind it, if the nested
instantiations come to an end for all of them. -/
def jobAllDescendantsMap (links : List (Connection J)) (depth : ℕ) :
    Option (List (JobAllDescendants J)) :=
  (jobDescendantsMap links).mapM fun DEP =>
    (findAllDescendants links depth DEP.Descendants).map (⟨DEP.Job, ·⟩)

/-- **`JobCmp`.** -/
def jobCmp (LHS RHS : JobAllDescendants J) : Bool := elem LHS.AllDescendants RHS.Job

/-- **`SortedJobs`**: what `Run` calls, in order.  It is there if no more than `depth`
instantiations of `FindAllDescendants` are nested in each other. -/
def sortedJobs (depth : ℕ) (links : List (Connection J)) : Option (List J) :=
  (jobAllDescendantsMap links depth).map fun map => (sort jobCmp map).map JobAllDescendants.Job

end LinuxProgram.MetaProgram.Task
