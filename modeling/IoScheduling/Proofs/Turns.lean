import IoScheduling.Proofs.Alterations
import IoScheduling.Proofs.Notes
import IoScheduling.Proofs.ScanOutcomes

/-! # Turns and grants

A turn of a burst decides on the head of a lane. The first one opens the grant if the head goes out,
and the one that ends the burst sets the next grant; no other turn touches it. So wherever all turns
are taken under the same bounds, every grant is within them. -/
namespace IoScheduling

theorem scaledQuantum_near {granted : Nat} (word : granted ≤ maxWord) (used : Nat) :
    granted / 2 ≤ scaledQuantum granted used ∧ scaledQuantum granted used ≤ 2 * granted := by
  have half : granted / 2 ≤ granted := Nat.div_le_self granted 2
  unfold scaledQuantum satMul satAdd
  dsimp only
  split
  · omega
  split
  · omega
  split
  · omega
  · omega

variable {q : QuantumBounds}

structure QuantumBounds.Ordered (q : QuantumBounds) : Prop where
  pos : 0 < q.least
  le : q.least ≤ q.greatest
  word : q.greatest ≤ maxWord

/-- A grant within the bounds, or none so far. -/
def QuantumBounds.Allows (q : QuantumBounds) (granted : Nat) : Prop :=
  granted = 0 ∨ q.least ≤ granted ∧ granted ≤ q.greatest

theorem QuantumBounds.ordered_of (config : Config) {time : AccessTime}
    (word : ∀ bytes d, time bytes d ≤ maxWord) : (QuantumBounds.of config time).Ordered where
  pos := Nat.le_max_right _ 1
  le := Nat.le_max_right _ _
  word := max_le (word _ _) (max_le (word _ _) (by decide))

theorem QuantumBounds.least_le_of (config : Config) (time : AccessTime) :
    (QuantumBounds.of config time).least ≤ (QuantumBounds.of config time).greatest :=
  Nat.le_max_right _ _

theorem QuantumBounds.Allows.opened {next : Nat} (h : q.Allows next) (ordered : q.Ordered) :
    q.least ≤ (if next = 0 then q.least else next) ∧
      (if next = 0 then q.least else next) ≤ q.greatest := by
  split
  · exact ⟨le_rfl, ordered.le⟩
  · rename_i some_next
    exact h.resolve_left some_next

theorem nextQuantum_within (h : q.least ≤ q.greatest) (granted used : Nat) :
    q.least ≤ nextQuantum granted used q.least q.greatest ∧
      nextQuantum granted used q.least q.greatest ≤ q.greatest := by
  unfold nextQuantum
  dsimp only
  split <;> omega

/-- The next grant is at most twice the last one and no less than half of it, as far as the bounds
allow. -/
theorem nextQuantum_near (h : q.Ordered) {granted : Nat} (low : q.least ≤ granted)
    (high : granted ≤ q.greatest) (used : Nat) :
    max q.least (granted / 2) ≤ nextQuantum granted used q.least q.greatest ∧
      nextQuantum granted used q.least q.greatest ≤ min q.greatest (2 * granted) := by
  obtain ⟨half, double⟩ := scaledQuantum_near (high.trans h.word) used
  have le := h.le
  have some_granted : granted ≠ 0 := (h.pos.trans_le low).ne'
  unfold nextQuantum
  dsimp only
  rw [if_neg some_granted]
  omega

namespace Burst

/-- How the turn before the first dispatch of a burst ends, and what becomes of the file. -/
inductive FirstTurn (setup : Setup) (q : QuantumBounds) (d : Direction) (now : Nat)
    (f : FileState) : Turn → FileState → Prop where
  | held {e : Entry} {wait : Nat} : f.holdback? setup d 0 now = some (e, wait) →
      FirstTurn setup q d now f (.stop (some wait)) (f.arm e wait now)
  | opens : f.holdback? setup d 0 now = none →
      FirstTurn setup q d now f .dispatch (f.modifyLane d (openGrant q now))

/-- How a turn after a dispatch ends, and what becomes of the file. -/
inductive LaterTurn (setup : Setup) (q : QuantumBounds) (d : Direction) (now consumed : Nat)
    (f : FileState) : Turn → FileState → Prop where
  | emptied : (f.lane d).entries = [] →
      LaterTurn setup q d now consumed f (.stop none) (f.modifyLane d (closeGrant q))
  | spent : (f.lane d).entries ≠ [] → (f.lane d).grant.granted ≤ consumed →
      LaterTurn setup q d now consumed f (.stop none)
        ((f.modifyLane d promoteHead).modifyLane d (closeGrant q))
  | early {e : Entry} : (f.lane d).entries.head? = some e → ¬ e.promote.eligible q.quantumBytes →
      LaterTurn setup q d now consumed f (.stop none)
        ((f.modifyLane d promoteHead).modifyLane d (closeGrant q))
  | held {e : Entry} {wait : Nat} : (f.lane d).entries ≠ [] →
      (f.modifyLane d promoteHead).holdback? setup d 0 now = some (e, wait) →
      LaterTurn setup q d now consumed f (.stop (some wait))
        (((f.modifyLane d promoteHead).arm e wait now).modifyLane d (closeGrant q))
  | sends {e : Entry} : (f.lane d).entries.head? = some e → e.promote.eligible q.quantumBytes →
      consumed < (f.lane d).grant.granted →
      (f.modifyLane d promoteHead).holdback? setup d 0 now = none →
      LaterTurn setup q d now consumed f .dispatch (f.modifyLane d promoteHead)

variable {c : Core} {k : Candidate} {f g : FileState} {setup : Setup} {d : Direction}
  {now consumed : Nat} {t : Turn}

theorem turn_unknown (unknown : c.index.file? k.file = none) (q : QuantumBounds)
    (now dispatched consumed : Nat) :
    turn q k now dispatched consumed c = (.stop none, c) := by
  rw [turn, unknown]

theorem turn_nothing (hf : c.index.file? k.file = some f)
    (empty : (f.lane k.direction).entries = []) (q : QuantumBounds) (now consumed : Nat) :
    turn q k now 0 consumed c = (.stop none, c) := by
  rw [turn, hf]
  dsimp only
  rw [empty]
  rfl

theorem turn_first (hf : c.index.file? k.file = some f)
    (used : (f.lane k.direction).entries ≠ []) (q : QuantumBounds) (now consumed : Nat) :
    ∃ t g c', turn q k now 0 consumed c = (t, c') ∧ FirstTurn c.setup q k.direction now f t g ∧
      Core.Alters c c' k.file g := by
  have form : turn q k now 0 consumed c = firstTurn q k now c := by
    rw [turn, hf]
    dsimp only
    rw [if_neg (mt List.isEmpty_iff.mp used), if_pos rfl]
  rw [form, firstTurn]
  rcases Core.holdBack_alters hf k.direction 0 now with
    ⟨no_reason, same⟩ | ⟨e, wait, c', reason, same, arms⟩
  · rw [same]
    exact ⟨_, _, _, rfl, .opens no_reason, Core.modifyLane_alters hf _⟩
  · rw [same]
    exact ⟨_, _, _, rfl, .held reason, arms⟩

theorem turn_later (hf : c.index.file? k.file = some f) (q : QuantumBounds)
    (now consumed : Nat) {dispatched : Nat} (later : dispatched ≠ 0) :
    ∃ t g c', turn q k now dispatched consumed c = (t, c') ∧
      LaterTurn c.setup q k.direction now consumed f t g ∧ Core.Alters c c' k.file g := by
  cases queue : (f.lane k.direction).entries with
  | nil =>
    have form : turn q k now dispatched consumed c =
        (.stop none, modifyLane c k (closeGrant q)) := by
      rw [turn, hf]
      dsimp only
      rw [queue, if_neg later]
      rfl
    exact ⟨_, _, _, form, .emptied queue, Core.modifyLane_alters hf _⟩
  | cons e rest =>
    have used : (f.lane k.direction).entries ≠ [] := by
      rw [queue]
      exact List.cons_ne_nil e rest
    have head : (f.lane k.direction).entries.head? = some e := by rw [queue, List.head?_cons]
    have form : turn q k now dispatched consumed c =
        laterTurn q k now consumed (f.lane k.direction) c := by
      rw [turn, hf]
      dsimp only
      rw [if_neg (mt List.isEmpty_iff.mp used), if_neg later]
    have eligible : (promoteHead (f.lane k.direction)).entries.head?.any
        (·.eligible q.quantumBytes) = e.promote.eligible q.quantumBytes := by
      rw [promoteHead, queue]
      rfl
    have passed : Core.Alters c (modifyLane c k fun _ => promoteHead (f.lane k.direction)) k.file
        (f.modifyLane k.direction promoteHead) := Core.modifyLane_alters hf _
    rw [form, laterTurn, eligible]
    by_cases overspent : (f.lane k.direction).grant.granted ≤ consumed
    · rw [if_pos (by rw [decide_eq_true overspent, Bool.true_or])]
      exact ⟨_, _, _, rfl, .spent used overspent, passed.trans (Core.modifyLane_alters passed.here _)⟩
    cases ripe : e.promote.eligible q.quantumBytes with
    | false =>
      rw [if_pos (by rw [Bool.not_false, Bool.or_true])]
      refine ⟨_, _, _, rfl, .early head ?_, passed.trans (Core.modifyLane_alters passed.here _)⟩
      rw [ripe]
      exact Bool.false_ne_true
    | true =>
      rw [if_neg (by rw [decide_eq_false overspent]; exact Bool.false_ne_true)]
      rcases Core.holdBack_alters passed.here k.direction 0 now with
        ⟨no_reason, same⟩ | ⟨e', wait, c', reason, same, arms⟩
      · rw [same]
        rw [passed.setup] at no_reason
        exact ⟨_, _, _, rfl, .sends head ripe (Nat.lt_of_not_le overspent) no_reason, passed⟩
      · rw [same]
        rw [passed.setup] at reason
        exact ⟨_, _, _, rfl, .held used reason,
          (passed.trans arms).trans (Core.modifyLane_alters arms.here _)⟩

end Burst

def Lane.nextGrant (l : Lane) : Nat := l.grant.next

theorem FileState.steady_nextGrant : Steady (through Lane.nextGrant) where
  toUnpending := unpending_through fun _ _ _ _ => rfl
  unreleased := fun _ _ _ => through_setLane_eq rfl
  unrecorded := fun _ _ _ => through_setLane_eq rfl
  sent := fun _ _ _ _ _ => through_setLane_eq rfl
  reset := by
    intro f
    funext d
    cases d <;> rfl

namespace Index

/-- Every lane has been given no grant yet, or its next one is within the bounds. -/
def Granted (q : QuantumBounds) (x : Index) : Prop :=
  ∀ name d, q.Allows ((x.fileOf name).lane d).nextGrant

variable {x y : Index}

theorem Granted.keeps (h : x.Granted q) (keeps : Keeps Lane.nextGrant x y) : y.Granted q := by
  intro n d
  rw [keeps n d]
  exact h n d

end Index

/-- The file's next grants are allowed in `g` if they are in `f`. -/
def FileState.Sanctions (q : QuantumBounds) (f g : FileState) : Prop :=
  ∀ d, q.Allows (f.lane d).nextGrant → q.Allows (g.lane d).nextGrant

namespace FileState

variable {f g g' : FileState} {d : Direction}

theorem sanctions_of_eq (same : ∀ d, (g.lane d).nextGrant = (f.lane d).nextGrant) :
    Sanctions q f g := by
  intro d allowed
  rwa [same d]

theorem Sanctions.trans (h : Sanctions q f g) (k : Sanctions q g g') : Sanctions q f g' :=
  fun d allowed => k d (h d allowed)

theorem sanctions_modifyLane (change : Lane → Lane)
    (next : ∀ l, q.Allows l.nextGrant → q.Allows (change l).nextGrant) :
    Sanctions q f (f.modifyLane d change) := by
  intro d' allowed
  by_cases here : d' = d
  · rw [here] at allowed ⊢
    rw [lane_modifyLane]
    exact next _ allowed
  · rwa [lane_modifyLane_of_ne f change here]

theorem sanctions_closeGrant (h : q.least ≤ q.greatest) :
    Sanctions q f (f.modifyLane d (Burst.closeGrant q)) :=
  sanctions_modifyLane _ fun _ _ => .inr (nextQuantum_within h _ _)

theorem sanctions_promoteHead : Sanctions q f (f.modifyLane d Burst.promoteHead) :=
  sanctions_modifyLane _ fun _ allowed => allowed

theorem sanctions_arm (e : Entry) (wait now : Nat) : Sanctions q f (f.arm e wait now) :=
  sanctions_of_eq fun d => congrArg Lane.nextGrant (f.lane_arm e wait now d)

end FileState

namespace Burst

variable {setup : Setup} {d : Direction} {now consumed : Nat} {f g : FileState} {t : Turn}

theorem FirstTurn.sanctions (h : FirstTurn setup q d now f t g) : f.Sanctions q g := by
  cases h with
  | held => exact FileState.sanctions_arm _ _ _
  | opens => exact FileState.sanctions_modifyLane _ fun _ allowed => allowed

theorem LaterTurn.sanctions (le : q.least ≤ q.greatest)
    (h : LaterTurn setup q d now consumed f t g) : f.Sanctions q g := by
  cases h with
  | emptied => exact FileState.sanctions_closeGrant le
  | spent | early =>
    exact FileState.sanctions_promoteHead.trans (FileState.sanctions_closeGrant le)
  | held =>
    exact (FileState.sanctions_promoteHead.trans (FileState.sanctions_arm _ _ _)).trans
      (FileState.sanctions_closeGrant le)
  | sends => exact FileState.sanctions_promoteHead

end Burst

theorem Scanned.nextGrant {setup : Setup} {quantum now : Nat} {d : Direction} {f g : FileState}
    {ready : List (List Request)} {waits : List Nat}
    (h : Scanned setup quantum now d f g ready waits) (d' : Direction) :
    (g.lane d').nextGrant = (f.lane d').nextGrant := by
  have passed : ((f.passed now d).lane d').nextGrant = (f.lane d').nextGrant := by
    cases d <;> cases d' <;> rfl
  rw [← passed]
  cases h with
  | empty | cooling => exact passed.symm
  | early => rfl
  | held => exact congrArg Lane.nextGrant (FileState.lane_arm _ _ _ _ d')
  | dispatched => cases d <;> cases d' <;> rfl

namespace Core

variable {c c' : Core} {name : String} {f g : FileState}

theorem Alters.granted (h : Alters c c' name g) (hf : c.index.file? name = some f)
    (sanctions : f.Sanctions q g) (granted : c.index.Granted q) : c'.index.Granted q := by
  intro n d
  rw [h.fileOf]
  split
  · refine sanctions d ?_
    rw [← Index.fileOf_eq hf]
    exact granted name d
  · exact granted n d

theorem turn_granted (le : q.least ≤ q.greatest) (k : Burst.Candidate)
    (now dispatched consumed : Nat) (granted : c.index.Granted q) :
    (Burst.turn q k now dispatched consumed c).2.index.Granted q := by
  cases hf : c.index.file? k.file with
  | none =>
    rw [Burst.turn_unknown hf]
    exact granted
  | some f =>
    by_cases first : dispatched = 0
    · subst first
      by_cases empty : (f.lane k.direction).entries = []
      · rw [Burst.turn_nothing hf empty]
        exact granted
      · obtain ⟨t, g, c', form, turned, alters⟩ := Burst.turn_first hf empty q now consumed
        rw [form]
        exact alters.granted hf turned.sanctions granted
    · obtain ⟨t, g, c', form, turned, alters⟩ := Burst.turn_later hf q now consumed first
      rw [form]
      exact alters.granted hf (turned.sanctions le) granted

end Core

def Operation.Sanctioned (setup : Setup) : Operation → Prop
  | .act (.steer _ (.grant _ _)) => False
  | .turn q _ _ _ _ => q = .of setup.config setup.accessTime
  | _ => True

namespace System

open FileState (steady_nextGrant)

variable {s : System} {setup : Setup}

theorem select_nextGrant (h : s.core.InStep) (quantumBytes now : Nat) :
    Index.Keeps Lane.nextGrant s.core.index
      (s.perform (.select quantumBytes now)).core.index := by
  change Index.Keeps _ _ (Burst.scanIndex now s.core.index)
  rw [Burst.scanIndex_eq h.index]
  refine (Index.mapAll_reads (ρ := FileState.through Lane.nextGrant) s.core.index
    (fun f => (Burst.alike_scanFile now f).file) (fun n => rfl) fun f => ?_).keeps
  funext d
  unfold Burst.scanFile
  split
  · cases d <;> rfl
  · rfl

theorem perform_granted (h : s.core.InStep) {op : Operation} (sanctioned : op.Sanctioned setup)
    (granted : s.core.index.Granted (.of setup.config setup.accessTime)) :
    (s.perform op).core.index.Granted (.of setup.config setup.accessTime) := by
  have le := QuantumBounds.least_le_of setup.config setup.accessTime
  cases op with
  | act a =>
    refine granted.keeps (act_reads steady_nextGrant h a fun file t same f => ?_).keeps
    subst same
    cases t with
    | promote d i => exact FileState.through_setLane_eq rfl
    | cool waitingUntil waitedSeq =>
      funext d
      cases d <;> rfl
    | grant d g => exact sanctioned.elim
  | visit host world quantum now file d =>
    let scan : Feedback.Scan _ := ⟨⟨s.core, world⟩, [], none⟩
    rw [perform, core_foldl_handOut]
    cases hf : s.core.index.file? file with
    | none =>
      have empty : s.core.lane file d = [] := Core.lane_unknown hf
      rw [show Feedback.visit host quantum now scan (file, d) = scan from
        Feedback.visit_empty empty]
      exact granted
    | some f =>
      obtain ⟨g, ready, waits, scanned, advances⟩ :=
        Feedback.visit_scanned host quantum now scan h hf d
      exact advances.alters.granted hf (FileState.sanctions_of_eq scanned.nextGrant) granted
  | select quantumBytes now => exact granted.keeps (select_nextGrant h quantumBytes now)
  | turn q k now dispatched consumed =>
    rw [show q = .of setup.config setup.accessTime from sanctioned]
    exact Core.turn_granted le k now dispatched consumed granted

theorem granted_start (setup : Setup) (q : QuantumBounds) : (start setup).core.index.Granted q := by
  intro n d
  refine .inl ?_
  cases d <;> rfl

theorem performAll_granted (h : s.Kept setup) {ops : List Operation}
    (sanctioned : ∀ op ∈ ops, op.Sanctioned setup)
    (granted : s.core.index.Granted (.of setup.config setup.accessTime)) :
    (s.performAll ops).core.index.Granted (.of setup.config setup.accessTime) := by
  induction ops generalizing s with
  | nil => exact granted
  | cons op ops ih =>
    have first := perform_granted h.inStep (sanctioned op List.mem_cons_self) granted
    exact ih (perform_kept h op) (fun o ho => sanctioned o (List.mem_cons_of_mem op ho)) first

end System

end IoScheduling
