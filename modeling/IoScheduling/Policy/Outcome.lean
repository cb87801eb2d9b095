import IoScheduling.Host

/-!
# Outcomes of scheduling

A policy is called to select and dispatch until nothing is pending, nothing can go out before a
cooldown ends, its time is over, or the scheduler is told to stop. Its loop need not end by itself,
since the caller's code may submit for ever; so it runs under a limit on its rounds, and the result
says whether it has finished within the limit. A larger limit does not change a finished run.
-/
namespace IoScheduling

structure Outcome where
  dispatched : Nat
  wait : Option Nat
  deriving DecidableEq, Repr

def Outcome.zero : Outcome := ⟨0, none⟩

structure Scheduled (ω : Type) where
  outcome : Outcome
  session : Session ω
  /-- Whether the policy came to an end within the limit. -/
  finished : Bool

/-- Rounds that a loop may need in the course of so many calls from outside: a dispatch or an
arrival can be followed by as many fruitless rounds as it takes a factor to stop growing. -/
def roundLimit (calls : Nat) : Nat := 50 * (calls + 2)

def firstLeast (f : α → Nat) : List α → Option α
  | [] => none
  | a :: rest => some (rest.foldl (fun best b => if f b < f best then b else best) a)

def shorterWait (a b : Option Nat) : Option Nat := a.merge min b

def Index.activeFiles (x : Index) : List FileState :=
  (x.buckets.filter fun (_, b) => b.pending != 0).flatMap fun (_, b) => b.files

def lanesOf (files : List FileState) : List (FileState × Direction) :=
  files.flatMap fun f => Direction.all.map fun d => (f, d)

def Index.stepOf (x : Index) (first i : Nat) : Nat := (i + x.size - first) % x.size

/-- The bucket in which something is pending to which such a round comes next, from the given step
on. -/
def Index.nextActive? (x : Index) (first step : Nat) : Option Nat :=
  let ahead := x.buckets.filter fun (i, b) => b.pending != 0 && step ≤ x.stepOf first i
  firstLeast (x.stepOf first) (ahead.map (·.1))

def visitFrom {ω α : Type} (first : Nat) (visit : Nat → α × Session ω → α × Session ω) :
    (left step : Nat) → α × Session ω → α × Session ω
  | 0, _, acc => acc
  | left + 1, step, (a, s) =>
    match s.core.index.nextActive? first step with
    | none => (a, s)
    | some i => visitFrom first visit left (s.core.index.stepOf first i + 1) (visit i (a, s))

/-- One round over the buckets in which something is pending, beginning with bucket `first`. A
bucket is passed over if nothing is pending in it when its turn comes. -/
def visitBuckets {ω α : Type} (first : Nat) (visit : Nat → α × Session ω → α × Session ω)
    (acc : α × Session ω) : α × Session ω :=
  visitFrom first visit acc.2.core.index.size 0 acc

end IoScheduling
