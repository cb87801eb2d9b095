import IoScheduling.Pending.Timeline
import IoScheduling.Text.Blank

/-!
# Policy kinds

Every policy has a profile: which index it works on, whether it waits for acknowledgments, how far
it merges, and whether it is a meta-policy that picks among the others.
-/
namespace IoScheduling

inductive PolicyKind where
  | aioli
  | feedback
  | shortestJob
  | shortestRemaining
  | timeOrder
  | timeOrderMerging
  | timeWindow
  | passThrough
  | armedBandit
  | decisionTree
  deriving DecidableEq, Repr, Inhabited

structure PolicyProfile where
  name : String
  /-- It works on the bucketed index, otherwise on the timeline. -/
  bucketed : Bool
  /-- It waits for acknowledgment after every delivery. -/
  synchronous : Bool
  /-- Most requests in one entry; 1 turns merging off. -/
  maxAggregation : Nat
  selectable : Bool
  isMeta : Bool
  deriving DecidableEq, Repr

def aggregationCeiling : Nat := 16

namespace PolicyKind

def all : List PolicyKind :=
  [aioli, feedback, shortestJob, shortestRemaining, timeOrder, timeOrderMerging, timeWindow,
    passThrough, armedBandit, decisionTree]

def profile : PolicyKind → PolicyProfile
  | aioli => ⟨"AIOLI", true, true, aggregationCeiling, true, false⟩
  | feedback => ⟨"MLF", true, false, aggregationCeiling, true, false⟩
  | shortestJob => ⟨"SJF", true, false, aggregationCeiling, true, false⟩
  | shortestRemaining => ⟨"SRTF", true, false, aggregationCeiling, true, false⟩
  | timeOrder => ⟨"TO", false, false, 1, true, false⟩
  | timeOrderMerging => ⟨"TO_AGG", false, false, aggregationCeiling, true, false⟩
  | timeWindow => ⟨"TW", false, false, 1, false, false⟩
  | passThrough => ⟨"NOOP", true, false, 1, true, false⟩
  | armedBandit => ⟨"ARMED_BANDIT", true, false, 1, false, true⟩
  | decisionTree => ⟨"DYN_TREE", true, false, 1, false, true⟩

def name (k : PolicyKind) : String := k.profile.name

def index : PolicyKind → Nat
  | aioli => 0
  | feedback => 1
  | shortestJob => 2
  | shortestRemaining => 3
  | timeOrder => 4
  | timeOrderMerging => 5
  | timeWindow => 6
  | passThrough => 7
  | armedBandit => 8
  | decisionTree => 9

def ofIndex? (i : Nat) : Option PolicyKind := all[i]?

def ofName? (name : String) : Option PolicyKind := all.find? (·.name == name)

/-- The kind a user means: blanks around the name and the case of ASCII letters do not count. -/
def lookup? (text : String) : Option PolicyKind :=
  ofName? ((Text.trimBlank text).map Char.toUpper)

def candidates : List PolicyKind := all.filter fun k => k.profile.selectable && !k.profile.isMeta

theorem ofIndex?_index (k : PolicyKind) : ofIndex? k.index = some k := by cases k <;> rfl

end PolicyKind

structure PerPolicy (α : Type) where
  cells : Vector α 10
  deriving Repr

namespace PerPolicy

theorem index_lt (k : PolicyKind) : k.index < 10 := by cases k <;> decide

def replicate (a : α) : PerPolicy α := ⟨.replicate 10 a⟩

def get (t : PerPolicy α) (k : PolicyKind) : α :=
  have := index_lt k
  t.cells[k.index]

def modify (t : PerPolicy α) (k : PolicyKind) (f : α → α) : PerPolicy α :=
  ⟨t.cells.set k.index (f (t.get k)) (index_lt k)⟩

theorem index_injective {j k : PolicyKind} (h : j.index = k.index) : j = k := by
  have := PolicyKind.ofIndex?_index j
  rw [h, PolicyKind.ofIndex?_index k] at this
  exact (Option.some.inj this).symm

theorem get_replicate (a : α) (k : PolicyKind) : (replicate a).get k = a := by
  simp [replicate, get]

theorem get_modify (t : PerPolicy α) (j k : PolicyKind) (f : α → α) :
    (t.modify j f).get k = if j = k then f (t.get k) else t.get k := by
  by_cases h : j = k
  · subst h
    simp [modify, get]
  · have hi : j.index ≠ k.index := fun e => h (index_injective e)
    simp [modify, get, h, hi]

end PerPolicy

end IoScheduling
