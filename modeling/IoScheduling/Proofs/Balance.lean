import IoScheduling.Proofs.Runs
import IoScheduling.Service.Checksum

/-! # The ledger balances

What was received is pending, dispatched or withdrawn, and what was dispatched is released or still
handed out. A reset forgets the one side only, so the balance holds as long as there is none. The
number of acknowledgments that are waited for is no part of the ledger and survives a reset. -/
namespace IoScheduling

def Index.records (x : Index) : List HandedOut :=
  x.files.flatMap fun f => f.reads.handedOut ++ f.writes.handedOut

theorem Index.held_eq_records (x : Index) : x.held = (x.records : Multiset HandedOut) := by
  unfold held total records
  induction x.files with
  | nil => rfl
  | cons f fs ih =>
    rw [List.map_cons, List.sum_cons, ih, List.flatMap_cons, ← Multiset.coe_add,
      ← Multiset.coe_add]
    rfl

theorem card_records (requests : List Request) (now : Nat) (inQuantum synchronous : Bool) :
    (records requests now inQuantum synchronous).card = requests.length := by
  simp [records]

theorem countP_records (requests : List Request) (now : Nat) (inQuantum synchronous : Bool) :
    (records requests now inQuantum synchronous).countP (·.synchronous) =
      if synchronous then requests.length else 0 := by
  cases synchronous <;> simp [records, List.countP_map, Function.comp_def]

namespace System

structure Balanced (s : System) : Prop where
  received : s.core.ledger.received =
    s.core.counts.requests + s.core.ledger.dispatchedRequests + s.core.ledger.cancelled
  /-- A request passed through counts as released once its call has returned. -/
  dispatched : s.core.ledger.dispatchedRequests =
    s.core.ledger.released + s.core.index.records.length + s.passing.length

/-- The acknowledgments that are waited for are those of the synchronous records, so there is one
to strike off whenever a synchronous record is released. -/
structure Awaited (s : System) : Prop where
  outstanding : s.core.outstanding = s.core.index.records.countP (·.synchronous)
  positive : ∀ a h x, s.core.index.release a = .ok (h, x) → h.synchronous → 0 < s.core.outstanding

structure Accounted (s : System) : Prop where
  inStep : s.core.InStep
  received : s.core.ledger.received =
    s.core.pending.card + s.core.ledger.dispatchedRequests + s.core.ledger.cancelled
  dispatched : s.core.ledger.dispatchedRequests =
    s.core.ledger.released + s.core.held.card + s.passing.length

structure Counting (s : System) : Prop where
  inStep : s.core.InStep
  outstanding : s.core.outstanding = s.core.held.countP (·.synchronous)

variable {s s' : System}

theorem change_accounted (h : s.Accounted) (step : Change s s') : s'.Accounted := by
  obtain ⟨inStep', received, dispatched⟩ := h
  cases step with
  | quiet inStep same pending held books =>
    dsimp only [Core.books] at books
    obtain ⟨-, r, d, e, c, -⟩ := Books.mk.inj books
    refine ⟨inStep, ?_, ?_⟩
    · dsimp only
      rw [pending]
      omega
    · dsimp only
      rw [held]
      omega
  | queued now call inStep same pending held books =>
    dsimp only [Core.books] at books
    obtain ⟨-, r, d, e, c, -⟩ := Books.mk.inj books
    refine ⟨inStep, ?_, ?_⟩
    · dsimp only
      rw [pending, Multiset.card_cons]
      omega
    · dsimp only
      rw [held]
      omega
  | passed now call inStep same pending held books =>
    dsimp only [Core.books] at books
    obtain ⟨-, r, d, e, c, -⟩ := Books.mk.inj books
    refine ⟨inStep, ?_, ?_⟩
    · dsimp only [handOut]
      rw [pending]
      omega
    · dsimp only [handOut]
      rw [held, List.length_append, List.length_singleton]
      omega
  | settled found inStep same pending held books =>
    dsimp only [Core.books] at books
    obtain ⟨-, r, d, e, c, -⟩ := Books.mk.inj books
    obtain ⟨hi, -⟩ := List.getElem?_eq_some_iff.mp found
    refine ⟨inStep, ?_, ?_⟩
    · dsimp only
      rw [pending]
      omega
    · dsimp only
      rw [held, List.length_eraseIdx_of_lt hi]
      omega
  | released inStep same pending held books =>
    dsimp only [Core.books] at books
    obtain ⟨-, r, d, e, c, -⟩ := Books.mk.inj books
    rw [held, Multiset.card_cons] at dispatched
    refine ⟨inStep, ?_, ?_⟩
    · dsimp only
      rw [pending]
      omega
    · dsimp only
      omega
  | withdrawn inStep same pending held books =>
    dsimp only [Core.books] at books
    obtain ⟨-, r, d, e, c, -⟩ := Books.mk.inj books
    rw [pending, Multiset.card_cons] at received
    refine ⟨inStep, ?_, ?_⟩
    · dsimp only
      omega
    · dsimp only
      rw [held]
      omega
  | dispatched now inQuantum synchronous inStep same pending held books =>
    dsimp only [Core.books] at books
    obtain ⟨-, r, d, e, c, -⟩ := Books.mk.inj books
    rw [pending, Multiset.card_add, card_bareBag] at received
    refine ⟨inStep, ?_, ?_⟩
    · dsimp only [handOut]
      omega
    · dsimp only [handOut]
      rw [held, Multiset.card_add, card_records]
      omega
  | handedOver found => exact ⟨inStep', received, dispatched⟩

theorem Counting.congr (h : s.Counting) (inStep : s'.core.InStep)
    (held : s'.core.held = s.core.held) (books : s'.core.outstanding = s.core.outstanding) :
    s'.Counting :=
  ⟨inStep, by rw [held, books, h.outstanding]⟩

theorem change_counting (h : s.Counting) (step : Change s s') : s'.Counting := by
  cases step with
  | quiet inStep same pending held books =>
    exact h.congr inStep held (congrArg Books.outstanding books)
  | queued now call inStep same pending held books =>
    exact h.congr inStep held (congrArg Books.outstanding books)
  | passed now call inStep same pending held books =>
    exact h.congr inStep held (congrArg Books.outstanding books)
  | settled found inStep same pending held books =>
    exact h.congr inStep held (congrArg Books.outstanding books)
  | @released c r inStep same pending held books =>
    have outstanding := h.outstanding
    rw [held, Multiset.countP_cons] at outstanding
    refine ⟨inStep, (congrArg Books.outstanding books).trans ?_⟩
    by_cases sync : r.synchronous
    · rw [if_pos sync] at outstanding ⊢
      dsimp only
      omega
    · rw [if_neg sync] at outstanding ⊢
      exact outstanding
  | withdrawn inStep same pending held books =>
    exact h.congr inStep held (congrArg Books.outstanding books)
  | dispatched now inQuantum synchronous inStep same pending held books =>
    refine ⟨inStep, (congrArg Books.outstanding books).trans ?_⟩
    dsimp only [handOut]
    rw [held, Multiset.countP_add, countP_records, ← h.outstanding]
    split
    · rfl
    · exact (Nat.add_zero _).symm
  | handedOver found => exact h.congr h.inStep rfl rfl

theorem act_counting (h : s.Counting) (a : Action) : (s.act a).Counting := by
  by_cases ha : a = .reset
  · subst ha
    obtain ⟨inStep, -, held⟩ := Core.resetStatistics_effect h.inStep
    exact h.congr inStep held rfl
  · exact change_counting h (act_change h.inStep ha)

theorem run_counting (setup : Setup) (actions : List Action) : (run setup actions).Counting :=
  run_invariant (P := Counting) setup ⟨Core.inStep_start setup, rfl⟩
    (fun _ a h => act_counting h a) actions

theorem run_accounted (setup : Setup) (actions : List Action) (h : .reset ∉ actions) :
    (run setup actions).Accounted := by
  -- A reset breaks the balance, so the induction has to carry that there is none to come.
  have whole : ∀ s : System, s.Accounted → (actions.foldl act s).Accounted := by
    induction actions with
    | nil => exact fun s hs => hs
    | cons a actions ih =>
      have ha : a ≠ .reset := fun same => h (same ▸ List.mem_cons_self)
      have rest : .reset ∉ actions := fun there => h (List.mem_cons_of_mem a there)
      exact fun s hs => ih rest _ (change_accounted hs (act_change hs.inStep ha))
  exact whole _ ⟨Core.inStep_start setup, rfl, rfl⟩

theorem Counting.awaited (h : s.Counting) : s.Awaited := by
  have outstanding : s.core.outstanding = s.core.index.records.countP (·.synchronous) := by
    rw [h.outstanding, Core.held, Index.held_eq_records, Multiset.coe_countP]
    simp only [Bool.decide_eq_true]
  refine ⟨outstanding, fun a r x hr sync => ?_⟩
  obtain ⟨-, -, -, -, held, -⟩ := Index.release_effect h.inStep.index hr
  have member : r ∈ s.core.index.records := by
    rw [← Multiset.mem_coe, ← Index.held_eq_records, held]
    exact Multiset.mem_cons_self r _
  rw [outstanding]
  exact List.countP_pos_iff.mpr ⟨r, member, sync⟩

theorem Accounted.balanced (h : s.Accounted) : s.Balanced where
  received := by
    have pending : s.core.counts.requests = s.core.pending.card := h.inStep.requests_eq
    rw [pending]
    exact h.received
  dispatched := by
    have held := congrArg Multiset.card s.core.index.held_eq_records
    rw [Multiset.coe_card] at held
    rw [← held]
    exact h.dispatched

/-- After each action the call that has passed a request through returns, if there is one. -/
def settling (actions : List Action) : List Action := actions.flatMap fun a => [a, .settle 0]

theorem reset_not_mem_settling {actions : List Action} (h : .reset ∉ actions) :
    .reset ∉ settling actions := by
  intro hm
  obtain ⟨a, ha, hr⟩ := List.mem_flatMap.mp hm
  rcases List.mem_cons.mp hr with rfl | hr
  · exact h ha
  · exact absurd (List.mem_singleton.mp hr) (by decide)

theorem length_passing_act (h : s.passing = []) (a : Action) : (s.act a).passing.length ≤ 1 := by
  have none : s.passing.length ≤ 1 := by rw [h]; exact Nat.zero_le 1
  cases a with
  | submit now call =>
    change (s.submit now call).passing.length ≤ 1
    unfold submit
    dsimp only
    split
    · exact none
    · exact none
    · change (s.passing ++ [_]).length ≤ 1
      rw [h]
      exact Nat.le_refl 1
  | settle i =>
    change (s.settle i).passing.length ≤ 1
    unfold settle
    rw [h]
    exact none
  | cancel a =>
    change (s.cancel a).passing.length ≤ 1
    unfold cancel
    dsimp only
    split <;> exact none
  | dispatch now file d i k inQuantum =>
    change (s.dispatched (s.core.dispatch? now file d i k inQuantum)).passing.length ≤ 1
    cases s.core.dispatch? now file d i k inQuantum <;> exact none
  | dispatchHead now k =>
    change (s.dispatched (s.core.dispatchHead? now k)).passing.length ≤ 1
    cases s.core.dispatchHead? now k <;> exact none
  | handOver i =>
    change (s.handOver i).passing.length ≤ 1
    unfold handOver
    split <;> exact none
  | complete | migrate | steer | stop | reset => exact none

theorem passing_settle (h : s.passing.length ≤ 1) : (s.settle 0).passing = [] := by
  unfold settle
  match hp : s.passing with
  | [] => exact hp
  | [r] => rfl
  | r :: q :: rest =>
    rw [hp] at h
    exact absurd h (by simp)

theorem passing_run_settling (setup : Setup) (actions : List Action) :
    (run setup (settling actions)).passing = [] := by
  have whole : ∀ s : System, s.passing = [] →
      ((settling actions).foldl act s).passing = [] := by
    induction actions with
    | nil => exact fun s h => h
    | cons a actions ih => exact fun s h => ih _ (passing_settle (length_passing_act h a))
  exact whole _ rfl

/-- The ledger balances after every run without a reset, and the acknowledgments that are waited for
are exact after every run. Where calls do not overlap, nothing is being passed through between them,
so what was dispatched is released or held. -/
theorem run_balances_ledger (setup : Setup) (actions : List Action) :
    (run setup actions).Awaited ∧ (.reset ∉ actions →
      (run setup actions).Balanced ∧ (run setup (settling actions)).Balanced ∧
        (run setup (settling actions)).passing = []) := by
  refine ⟨(run_counting setup actions).awaited, fun h => ⟨?_, ?_, ?_⟩⟩
  · exact (run_accounted setup actions h).balanced
  · exact (run_accounted setup (settling actions) (reset_not_mem_settling h)).balanced
  · exact passing_run_settling setup actions

/-- A request that is dispatched synchronously and acknowledged. -/
theorem balanced_after_acknowledgment :
    let actions : List Action :=
      [.submit 0 ⟨"a", .read, 0, 8, 0, 0⟩, .dispatch 1 "a" .read 0 .aioli true, .handOver 0,
        .complete 2 ⟨"a", .read, 0, 8⟩]
    .reset ∉ actions ∧ (run (.of .defaults .one 1) actions).Balanced :=
  ⟨by decide, ((run_balances_ledger _ _).2 (by decide)).1⟩

end System

end IoScheduling
