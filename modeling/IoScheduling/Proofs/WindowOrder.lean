import IoScheduling.Proofs.Priorities
import IoScheduling.Proofs.Runs
import IoScheduling.Service.Checksum

/-! # Time windows keep their order

A migration sets the timeline up for its order and puts it in order. From then on arrivals go to
their place and departures leave the rest as it is. Only a withdrawal can break the order: it may
take apart an entry that spans several windows, and the runs stay where the entry stood. -/
namespace IoScheduling

theorem Setup.isPriority_order (s : Setup) (k : PolicyKind) :
    (s.order k).isPriority ↔ k = .timeWindow := by
  cases k <;> simp [order, Config.timelineOrder, TimelineOrder.isPriority]

namespace Timeline

def Ordered (t : Timeline) : Prop := t.order.isPriority → t.InOrder

variable {t : Timeline}

theorem ordered_nil (h : t.entries = []) : t.Ordered := by
  intro _
  rw [InOrder, slots_eq_nil h]
  exact .nil

theorem foldl_add (es : List Entry) (h : t.Priced) (ordered : t.Ordered) :
    let t' := es.foldl (fun t e => (t.add e).1) t
    t'.order = t.order ∧ t'.Priced ∧ t'.Ordered := by
  induction es generalizing t with
  | nil => exact ⟨rfl, h, ordered⟩
  | cons e es ih =>
    have order := order_add t e
    obtain ⟨same, priced, sorted⟩ := ih (priced_add h e) fun windows => by
      rw [order] at windows
      exact inOrder_add (ordered windows) windows e
    exact ⟨same.trans order, priced, sorted⟩

end Timeline

namespace Core

/-- The timeline is set up for the active policy, and no stored priority is stale. -/
structure Priced (c : Core) : Prop where
  order : c.timeline.order = c.setup.order c.active
  stored : c.timeline.Priced

variable {c c' : Core}

theorem timeline_foldl_shelve (es : List Entry) (c : Core) :
    (es.foldl shelve c).timeline = es.foldl (fun t e => (t.add e).1) c.timeline := by
  induction es generalizing c with
  | nil => rfl
  | cons e es ih => exact ih (c.shelve e)

theorem timeline_foldl_adopt (limit : Nat) (es : List Entry) (c : Core) :
    (es.foldl (adopt limit) c).timeline = c.timeline := by
  induction es generalizing c with
  | nil => rfl
  | cons e es ih => exact ih (c.adopt limit e)

theorem timeline_empty (h : c.InStep) (bucketed : c.active.profile.bucketed) :
    c.timeline.entries = [] := by
  have unused := h.unused
  rw [if_pos bucketed] at unused
  exact entries_eq_nil unused

theorem transfer_ordered (h : c.InStep) (priced : c.Priced) (k : PolicyKind) :
    (c.transfer k).timeline.order = c.setup.order k ∧ (c.transfer k).timeline.Priced ∧
      (c.transfer k).timeline.Ordered := by
  let t := c.timeline.configure (c.setup.order k) (c.setup.limit k)
  unfold transfer
  dsimp only
  split
  · rename_i old new
    have empty : t.entries = [] := timeline_empty h old
    exact ⟨rfl, Timeline.priced_nil empty, Timeline.ordered_nil empty⟩
  · rename_i old new
    have empty : t.entries = [] := timeline_empty h old
    rw [moveToTimeline, timeline_foldl_shelve]
    exact Timeline.foldl_add c.index.drain.1 (Timeline.priced_nil empty) (Timeline.ordered_nil empty)
  · rw [moveToIndex, timeline_foldl_adopt]
    have empty : t.drain.2.entries = [] := rfl
    exact ⟨rfl, Timeline.priced_nil empty, Timeline.ordered_nil empty⟩
  · split
    · exact ⟨rfl, t.priced_reorder, fun _ => t.inOrder_reorder⟩
    · rename_i plain
      rw [Bool.or_eq_true, not_or, ← priced.order] at plain
      obtain ⟨before, after⟩ := plain
      refine ⟨rfl, ?_, fun windows => absurd windows after⟩
      -- Neither order looks at windows, so the stored priorities are the numbers of the entries.
      intro s hs
      have stored := priced.stored s hs
      rw [Timeline.slotOf, TimelineOrder.priority_eq before] at stored
      change s = ⟨s.entry, (c.setup.order k).priority s.entry⟩
      rw [TimelineOrder.priority_eq after]
      exact stored

/-- The ways in which an action can change the timeline. -/
inductive Touched (c : Core) (x : Action) : Core → Prop where
  | still {c' : Core} : c'.setup = c.setup → c'.active = c.active → c'.timeline = c.timeline →
      Touched c x c'
  | added {c' : Core} (now : Nat) (call : Submission) : c'.setup = c.setup →
      c'.active = c.active →
      c'.timeline = (c.timeline.add (.single (c.stamp now call))).1 → Touched c x c'
  | popped {c' : Core} (e : Entry) : c'.setup = c.setup → c'.active = c.active →
      c.timeline.pop? = some (e, c'.timeline) → Touched c x c'
  | withdrawn {c' : Core} (a : Address) (r : Request) : x = .cancel a → c'.setup = c.setup →
      c'.active = c.active → c.timeline.withdraw a = some (r, c'.timeline) → Touched c x c'
  | migrated (k : PolicyKind) : x = .migrate k → Touched c x (c.migrate k)

theorem submit_touched (c : Core) (now : Nat) (call : Submission) (x : Action) :
    Touched c x (c.submit now call).1 := by
  obtain refused | ⟨l, passed⟩ | ⟨l, queued⟩ := c.submit_cases now call
  · rw [refused]
    exact .still rfl rfl rfl
  · rw [passed]
    exact .still rfl rfl rfl
  · rw [queued]
    unfold enqueue
    dsimp only
    split
    · exact .still rfl rfl rfl
    · exact .added now call rfl rfl rfl

theorem cancel_touched (c : Core) (a : Address) : Touched c (.cancel a) (c.cancel a).1 := by
  unfold cancel
  split
  · rename_i r c' hd
    obtain ⟨-, x, -, rfl⟩ | ⟨-, t, hw, rfl⟩ := dequeue_ok hd
    · exact .still rfl rfl rfl
    · exact .withdrawn a r rfl rfl rfl hw
  · exact .still rfl rfl rfl

end Core

namespace System

variable {s : System}

theorem act_touched (h : s.core.InStep) (x : Action) : Core.Touched s.core x (s.act x).core := by
  cases x with
  | submit now call =>
    rw [act, core_submit]
    exact s.core.submit_touched now call _
  | settle i =>
    change Core.Touched s.core _ (s.settle i).core
    unfold settle
    split <;> exact .still rfl rfl rfl
  | complete now a =>
    have step := Core.complete_effect h now a
    change Core.Touched s.core _ (s.core.complete now a).1
    generalize (s.core.complete now a).1 = c at step
    cases step with
    | released signal form =>
      subst form
      exact .still rfl rfl rfl
    | unknown ledger => exact .still rfl rfl rfl
  | cancel a =>
    rw [act, core_cancel]
    exact s.core.cancel_touched a
  | migrate k => exact .migrated k rfl
  | dispatch now file d i k inQuantum =>
    change Core.Touched s.core _ (s.dispatched (s.core.dispatch? now file d i k inQuantum)).core
    cases hd : s.core.dispatch? now file d i k inQuantum with
    | none => exact .still rfl rfl rfl
    | some result =>
      obtain ⟨⟨e, index⟩, -, rfl⟩ := Option.map_eq_some_iff.mp hd
      exact .still rfl rfl rfl
  | dispatchHead now k =>
    change Core.Touched s.core _ (s.dispatched (s.core.dispatchHead? now k)).core
    cases hd : s.core.dispatchHead? now k with
    | none => exact .still rfl rfl rfl
    | some result =>
      obtain ⟨⟨e, timeline⟩, popped, rfl⟩ := Option.map_eq_some_iff.mp hd
      exact .popped e rfl rfl popped
  | handOver i =>
    change Core.Touched s.core _ (s.handOver i).core
    unfold handOver
    split <;> exact .still rfl rfl rfl
  | steer file t =>
    obtain ⟨x, form, -, -, -⟩ := Core.steer_effect h file t
    change Core.Touched s.core _ (s.core.steer file t)
    rw [form]
    exact .still rfl rfl rfl
  | stop => exact .still rfl rfl rfl
  | reset => exact .still rfl rfl rfl

/-- Whether the action withdraws a request in such a way that the order of the windows may break. -/
def displaces (s : System) : Action → Bool
  | .cancel a => s.core.active = .timeWindow && s.core.timeline.displaces a
  | _ => false

theorem act_priced (h : s.core.InStep) (priced : s.core.Priced) (x : Action) :
    (s.act x).core.Priced := by
  have step := act_touched h x
  generalize (s.act x).core = c at step
  cases step with
  | still setup active timeline =>
    constructor
    · rw [timeline, setup, active, priced.order]
    · rw [timeline]
      exact priced.stored
  | added now call setup active timeline =>
    constructor
    · rw [timeline, setup, active, Timeline.order_add, priced.order]
    · rw [timeline]
      exact Timeline.priced_add priced.stored _
  | popped e setup active popped =>
    obtain ⟨-, -, -, form⟩ := Timeline.pop?_slots popped
    constructor
    · rw [form, setup, active]
      exact priced.order
    · exact Timeline.priced_pop? priced.stored popped
  | withdrawn a r is setup active withdrawn =>
    obtain ⟨-, -, -, -, -, -, -, -, -, form⟩ := Timeline.withdraw_slots withdrawn
    constructor
    · rw [form, setup, active]
      exact priced.order
    · exact Timeline.priced_withdraw priced.stored withdrawn
  | migrated k is =>
    obtain ⟨order, stored, -⟩ := Core.transfer_ordered h priced k
    obtain ⟨⟨_, _, form⟩, -⟩ := Core.migrate_effect h k
    have setup : (s.core.migrate k).setup = s.core.setup := by rw [form]
    constructor
    · rw [setup]
      exact order
    · exact stored

theorem run_priced (setup : Setup) (actions : List Action) : (run setup actions).core.Priced := by
  have both : (run setup actions).core.InStep ∧ (run setup actions).core.Priced := by
    refine run_invariant (P := fun s => s.core.InStep ∧ s.core.Priced) setup ?_ ?_ actions
    · exact ⟨Core.inStep_start setup, rfl, Timeline.priced_nil rfl⟩
    · intro s x h
      exact ⟨act_inStep h.1 x, act_priced h.1 h.2 x⟩
  exact both.2

theorem act_ordered (h : s.core.InStep) (priced : s.core.Priced) (ordered : s.core.timeline.Ordered)
    (x : Action) (calm : s.displaces x = false) : (s.act x).core.timeline.Ordered := by
  have step := act_touched h x
  generalize (s.act x).core = c at step
  cases step with
  | still setup active timeline =>
    rw [timeline]
    exact ordered
  | added now call setup active timeline =>
    intro windows
    rw [timeline] at windows ⊢
    rw [Timeline.order_add] at windows
    exact Timeline.inOrder_add (ordered windows) windows _
  | popped e setup active popped =>
    obtain ⟨-, -, -, form⟩ := Timeline.pop?_slots popped
    intro windows
    rw [form] at windows
    exact Timeline.inOrder_pop? (ordered windows) popped
  | withdrawn a r same setup active withdrawn =>
    obtain ⟨-, -, -, -, -, -, -, -, -, form⟩ := Timeline.withdraw_slots withdrawn
    intro windows
    rw [form] at windows
    change s.core.timeline.order.isPriority at windows
    refine Timeline.inOrder_withdraw (ordered windows) priced.stored withdrawn ?_
    rw [priced.order, Setup.isPriority_order] at windows
    subst same
    simpa [displaces, windows] using calm
  | migrated k same => exact (Core.transfer_ordered h priced k).2.2

end System

def Action.isMigration : Action → Bool
  | .migrate _ => true
  | _ => false

namespace System

/-- Every withdrawal that may break the order of the windows is followed by a migration. -/
def Repaired (setup : Setup) (actions : List Action) : Prop :=
  ∀ i < actions.length, actions[i]?.any (run setup (actions.take i)).displaces →
    (actions.drop (i + 1)).any Action.isMigration

instance (setup : Setup) (actions : List Action) : Decidable (Repaired setup actions) :=
  inferInstanceAs (Decidable (∀ i < actions.length, _ → _))

variable {setup : Setup} {actions : List Action} {x : Action}

theorem Repaired.of_concat (h : Repaired setup (actions ++ [x])) (hx : ¬ x.isMigration) :
    Repaired setup actions ∧ (run setup actions).displaces x = false := by
  constructor
  · intro i hi breaks
    have whole := h i (by rw [List.length_append]; omega)
    rw [List.getElem?_append_left hi, List.take_append_of_le_length hi.le,
      List.drop_append_of_le_length hi, List.any_append] at whole
    simpa [hx] using whole breaks
  · have last := h actions.length (by simp)
    simpa using last

theorem run_ordered (h : Repaired setup actions) : (run setup actions).core.timeline.Ordered := by
  induction actions using List.reverseRecOn with
  | nil => exact Timeline.ordered_nil rfl
  | append_singleton actions x ih =>
    have inStep := run_inStep setup actions
    have priced := run_priced setup actions
    rw [run_concat]
    by_cases hx : x.isMigration
    · cases x with
      | migrate k => exact (Core.transfer_ordered inStep priced k).2.2
      | _ => cases hx
    · obtain ⟨before, calm⟩ := h.of_concat hx
      exact act_ordered inStep priced (ih before) x calm

end System

/-- The entries wait in the order of their windows, so an entry of least priority leaves first, and
an arrival finds its place behind all entries of no larger priority. -/
structure Core.InWindowOrder (c : Core) : Prop where
  sorted : c.timeline.entries.Pairwise fun a b =>
    (c.setup.order .timeWindow).priority a ≤ (c.setup.order .timeWindow).priority b
  stored : c.timeline.slots.map Slot.priority =
    c.timeline.entries.map (c.setup.order .timeWindow).priority
  head : c.timeline.entries ≠ [] → ∀ now k, ∃ e ∈ c.timeline.entries, ∃ c',
    c.dispatchHead? now k = some (e.requests, c') ∧ ∀ o ∈ c.timeline.entries,
      (c.setup.order .timeWindow).priority e ≤ (c.setup.order .timeWindow).priority o
  place : ∀ node : Entry,
    c.timeline.store.boundary (fun s => s.priority ≤ (c.setup.order .timeWindow).priority node) =
      c.timeline.entries.countP fun e =>
        (c.setup.order .timeWindow).priority e ≤ (c.setup.order .timeWindow).priority node

theorem Core.Priced.inWindowOrder {c : Core} (h : c.Priced) (ordered : c.timeline.Ordered)
    (active : c.active = .timeWindow) : c.InWindowOrder := by
  have order : c.timeline.order = c.setup.order .timeWindow := active ▸ h.order
  have windows : c.timeline.order.isPriority := order ▸ (c.setup.isPriority_order _).mpr rfl
  have inOrder := ordered windows
  have stored : ∀ s ∈ c.timeline.slots,
      s.priority = (c.setup.order .timeWindow).priority s.entry := fun s hs =>
    order ▸ congrArg Slot.priority (h.stored s hs)
  have sorted : c.timeline.entries.Pairwise fun a b =>
      (c.setup.order .timeWindow).priority a ≤ (c.setup.order .timeWindow).priority b := by
    refine List.pairwise_map.mpr (inOrder.imp_of_mem ?_)
    intro s o hs ho le
    rwa [stored s hs, stored o ho] at le
  constructor
  case sorted => exact sorted
  case stored =>
    rw [Timeline.entries, List.map_map]
    exact List.map_congr_left stored
  case head =>
    intro some_entry now k
    cases split : c.timeline.slots with
    | nil => exact absurd (List.map_eq_nil_iff.mpr split) some_entry
    | cons first rest =>
      have entries : c.timeline.entries = first.entry :: rest.map Slot.entry :=
        congrArg (List.map Slot.entry) split
      rw [entries] at sorted ⊢
      obtain ⟨least, -⟩ := List.pairwise_cons.mp sorted
      refine ⟨first.entry, List.mem_cons_self, ?_⟩
      rw [dispatchHead?, Timeline.pop?, split]
      exact ⟨_, rfl, List.forall_mem_cons.mpr ⟨le_rfl, least⟩⟩
  case place =>
    intro node
    obtain ⟨seam, count⟩ := Timeline.boundary_eq inOrder ((c.setup.order .timeWindow).priority node)
    rw [seam, count, Timeline.entries, List.countP_map]
    refine List.countP_congr fun s hs => ?_
    rw [Function.comp_apply, stored s hs]

namespace System

/-- While time windows are served the timeline is in their order, unless a withdrawal since the last
migration has taken an entry apart whose runs belong to other windows. -/
theorem run_keeps_window_order (setup : Setup) (actions : List Action)
    (h : Repaired setup actions) (active : (run setup actions).core.active = .timeWindow) :
    (run setup actions).core.InWindowOrder :=
  (run_priced setup actions).inWindowOrder (run_ordered h) active

/-- The order is broken, restored by migrations and kept from then on. -/
theorem window_order_restored :
    let setup : Setup := .of .defaults .one 1
    let actions : List Action :=
      [.submit 0 ⟨"f", .read, 0, 8, 0, 0⟩, .submit 1000000 ⟨"g", .read, 0, 8, 0, 0⟩,
        .submit 2000000 ⟨"f", .read, 8, 8, 0, 0⟩, .migrate .timeWindow, .cancel ⟨"f", .read, 0, 8⟩,
        .migrate .shortestJob, .migrate .timeWindow, .submit 2000000 ⟨"h", .read, 0, 8, 0, 0⟩,
        .dispatchHead 2000000 .timeWindow]
    Repaired setup actions ∧ (run setup actions).core.active = .timeWindow ∧
      (run setup actions).core.InWindowOrder :=
  ⟨by decide +kernel, by decide +kernel,
    run_keeps_window_order _ _ (by decide +kernel) (by decide +kernel)⟩

/-- An aggregate of the first and the third window stands before an entry of the second; without its
first request it belongs behind. -/
theorem window_order_lost :
    let s := run (.of .defaults .one 1)
      [.submit 0 ⟨"f", .read, 0, 8, 0, 0⟩, .submit 1000000 ⟨"g", .read, 0, 8, 0, 0⟩,
        .submit 2000000 ⟨"f", .read, 8, 8, 0, 0⟩, .migrate .timeWindow, .cancel ⟨"f", .read, 0, 8⟩]
    s.core.active = .timeWindow ∧ ¬ s.core.InWindowOrder := by
  refine ⟨by decide +kernel, fun h => ?_⟩
  have sorted := h.sorted
  revert sorted
  decide +kernel

end System

end IoScheduling
