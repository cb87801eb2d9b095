import IoScheduling.Proofs.Runs

/-! # No request is lost, doubled or changed

An accepted request is pending, handed out or withdrawn, and it is so once. The invariant behind it
is an equation of multisets that has the accepted requests on one side and the three places on the
other. -/
namespace IoScheduling

/-- The request that stands for an accepted submission, of which the time is known. -/
def Setup.request (setup : Setup) (seq : Nat) (accepted : Nat × Submission) : Request where
  file := accepted.2.file
  direction := accepted.2.direction
  offset := accepted.2.offset
  length := accepted.2.length
  arrival := accepted.1
  seq := seq
  token := accepted.2.token
  stream := min accepted.2.stream (setup.maxStream - 1)
  factor := 0

/-- How often a request of the given number occurs. -/
def times (seq : Nat) (requests : List Request) : Nat := requests.countP fun r => r.seq = seq

theorem handovers_requests (c : Callbacks) (requests : List Request) :
    (c.handovers requests).flatMap Handover.requests = requests := by
  have singly : (requests.map Handover.one).flatMap Handover.requests = requests := by
    rw [List.flatMap_map]
    exact List.flatMap_singleton' requests
  have together : [Handover.many requests].flatMap Handover.requests = requests :=
    List.flatMap_singleton _ _
  cases c with
  | one => exact singly
  | many => exact together
  | both =>
    by_cases h : 1 < requests.length
    · rw [Callbacks.handovers, if_pos h]
      exact together
    · rw [Callbacks.handovers, if_neg h]
      exact singly

namespace System

def out (s : System) : List Request := s.handedOut.flatten

def given (s : System) : List Request := s.made.flatMap Handover.requests

def owed (s : System) : List Request := s.due.flatMap Handover.requests

/-- Every accepted request is in one place and occurs there once. What was handed out is given to the
caller's code as often, unless a call for it is still due. Nothing is anywhere but what was accepted,
as it was accepted. -/
structure Conserved (setup : Setup) (s : System) : Prop where
  once : ∀ seq < s.accepted.length, times seq s.core.inLanes + times seq s.core.onTimeline +
    times seq s.out + times seq s.withdrawn = 1
  delivered : ∀ seq, times seq s.out = times seq s.given + times seq s.owed
  genuine : ∀ r, r ∈ s.core.inLanes ∨ r ∈ s.core.onTimeline ∨ r ∈ s.out ∨ r ∈ s.withdrawn ∨ r ∈ s.given →
    ∃ a, s.accepted[r.seq]? = some a ∧ r.bare = setup.request r.seq a

def issued (setup : Setup) (s : System) : Multiset Request :=
  (s.accepted.mapIdx setup.request : List Request)

structure Kept (setup : Setup) (s : System) : Prop where
  inStep : s.core.InStep
  setup_eq : s.core.setup = setup
  numbered : s.core.nextSeq = s.accepted.length
  places : s.issued setup = s.core.pending + bareBag s.out + bareBag s.withdrawn
  delivery : s.out.Perm (s.given ++ s.owed)

variable {setup : Setup} {s s' : System}

theorem kept_start (setup : Setup) : (start setup).Kept setup :=
  ⟨Core.inStep_start setup, rfl, rfl, rfl, List.Perm.refl _⟩

theorem issued_append (h : s.Kept setup) (now : Nat) (call : Submission) :
    (((s.accepted ++ [(now, call)]).mapIdx setup.request : List Request) : Multiset Request) =
      s.core.stamp now call ::ₘ s.issued setup := by
  have last : setup.request s.accepted.length (now, call) = s.core.stamp now call := by
    rw [← h.numbered, ← h.setup_eq]
    rfl
  rw [List.mapIdx_concat, last, ← Multiset.coe_add, add_comm]
  rfl

theorem out_handOut (s : System) (requests : List Request) :
    (s.handOut requests).out = s.out ++ requests := by
  simp [out, handOut]

theorem owed_handOut (s : System) (requests : List Request) :
    (s.handOut requests).owed = s.owed ++ requests := by
  simp [owed, handOut, handovers_requests]

theorem delivery_handOut (h : s.out.Perm (s.given ++ s.owed)) (requests : List Request) :
    (s.handOut requests).out.Perm ((s.handOut requests).given ++ (s.handOut requests).owed) := by
  rw [out_handOut, owed_handOut, ← List.append_assoc]
  exact h.append_right requests

theorem Kept.replace (h : s.Kept setup) {c : Core} (inStep : c.InStep)
    (same : c.setup = s.core.setup) (pending : c.pending = s.core.pending)
    (numbered : c.nextSeq = s.core.nextSeq) (passing : List Request) :
    ({ s with core := c, passing := passing } : System).Kept setup :=
  ⟨inStep, same.trans h.setup_eq, numbered.trans h.numbered,
    h.places.trans (by rw [← pending]; rfl), h.delivery⟩

theorem change_kept (h : s.Kept setup) (step : Change s s') : s'.Kept setup := by
  cases step with
  | quiet inStep same pending held books =>
    exact h.replace inStep same pending (congrArg Books.nextSeq books) _
  | queued now call inStep same pending held books =>
    have numbered := congrArg Books.nextSeq books
    refine ⟨inStep, same.trans h.setup_eq, numbered.trans ?_, ?_, h.delivery⟩
    · rw [List.length_append, ← h.numbered]
      rfl
    · refine (issued_append h now call).trans ?_
      rw [h.places, pending, Multiset.cons_add, Multiset.cons_add]
      rfl
  | @passed c now call inStep same pending held books =>
    have numbered := congrArg Books.nextSeq books
    refine ⟨inStep, same.trans h.setup_eq, numbered.trans ?_, ?_, ?_⟩
    · change _ = (s.accepted ++ [(now, call)]).length
      rw [List.length_append, ← h.numbered]
      rfl
    · refine (issued_append h now call).trans ?_
      have one : bareBag [s.core.stamp now call] = {s.core.stamp now call} := rfl
      rw [out_handOut, bareBag_append, h.places, one, ← pending, ← Multiset.singleton_add]
      change _ = c.pending + (bareBag s.out + _) + bareBag s.withdrawn
      abel
    · exact delivery_handOut (s := { s with core := c, accepted := _, passing := _ }) h.delivery _
  | settled found inStep same pending held books =>
    exact h.replace inStep same pending (congrArg Books.nextSeq books) _
  | released inStep same pending held books =>
    exact h.replace inStep same pending (congrArg Books.nextSeq books) _
  | @withdrawn c r inStep same pending held books =>
    have numbered := congrArg Books.nextSeq books
    refine ⟨inStep, same.trans h.setup_eq, numbered.trans h.numbered, ?_, h.delivery⟩
    refine h.places.trans ?_
    have one : bareBag [r] = {r.bare} := rfl
    rw [pending, bareBag_append, one, ← Multiset.singleton_add]
    change _ = c.pending + bareBag s.out + _
    abel
  | @dispatched c requests now inQuantum synchronous inStep same pending held books =>
    have numbered := congrArg Books.nextSeq books
    refine ⟨inStep, same.trans h.setup_eq, numbered.trans h.numbered, ?_, ?_⟩
    · refine h.places.trans ?_
      rw [out_handOut, bareBag_append, pending]
      change _ = c.pending + (bareBag s.out + _) + bareBag s.withdrawn
      abel
    · exact delivery_handOut (s := { s with core := c }) h.delivery _
  | handedOver found =>
    obtain ⟨hi, rfl⟩ := List.getElem?_eq_some_iff.mp found
    have rest := (List.getElem_cons_eraseIdx_perm hi).symm.flatMap_right Handover.requests
    refine ⟨h.inStep, h.setup_eq, h.numbered, h.places, h.delivery.trans ?_⟩
    unfold given owed
    rw [List.flatMap_append, List.append_assoc, List.flatMap_singleton]
    exact rest.append_left _

theorem act_kept (h : s.Kept setup) (a : Action) : (s.act a).Kept setup := by
  by_cases ha : a = .reset
  · subst ha
    obtain ⟨inStep, pending, -⟩ := Core.resetStatistics_effect h.inStep
    exact h.replace inStep rfl pending rfl _
  · exact change_kept h (act_change h.inStep ha)

theorem run_kept (setup : Setup) (actions : List Action) : (run setup actions).Kept setup :=
  run_invariant setup (kept_start setup) (fun _ a h => act_kept h a) actions

theorem countP_issued (setup : Setup) (s : System) {seq : Nat} (h : seq < s.accepted.length) :
    (s.issued setup).countP (fun r => r.seq = seq) = 1 := by
  have numbers : (s.accepted.mapIdx setup.request).map Request.seq =
      List.range s.accepted.length := by
    refine List.ext_getElem (by simp) fun i _ _ => ?_
    simp [Setup.request]
  have counted : (s.issued setup).countP (fun r => r.seq = seq) =
      ((s.accepted.mapIdx setup.request).map Request.seq).count seq := by
    rw [issued, Multiset.coe_countP, List.count, List.countP_map]
    congr 1
  rw [counted, numbers]
  exact List.count_eq_one_of_mem List.nodup_range (List.mem_range.mpr h)

theorem pending_eq_places (c : Core) : c.pending = bareBag c.inLanes + bareBag c.onTimeline := by
  rw [Core.bareBag_inLanes, Core.bareBag_onTimeline]
  rfl

theorem Kept.conserved (h : s.Kept setup) : s.Conserved setup where
  once := by
    intro seq hseq
    have one := countP_issued setup s hseq
    rw [h.places, pending_eq_places, Multiset.countP_add, Multiset.countP_add,
      Multiset.countP_add] at one
    have counts : ∀ rs, (bareBag rs).countP (fun r => r.seq = seq) = times seq rs :=
      countP_bareBag fun _ => Iff.rfl
    rwa [counts, counts, counts, counts] at one
  delivered := by
    intro seq
    unfold times
    rw [h.delivery.countP_eq, List.countP_append]
  genuine := by
    intro r hr
    have out_of_given : r ∈ s.given → r ∈ s.out := fun hg =>
      h.delivery.mem_iff.mpr (List.mem_append_left _ hg)
    have bare : ∀ rs : List Request, r ∈ rs → r.bare ∈ bareBag rs := fun rs hrs =>
      List.mem_map_of_mem hrs
    have somewhere : r.bare ∈ s.issued setup := by
      rw [h.places, pending_eq_places]
      simp only [Multiset.mem_add]
      rcases hr with hr | hr | hr | hr | hr
      · exact Or.inl (Or.inl (Or.inl (bare _ hr)))
      · exact Or.inl (Or.inl (Or.inr (bare _ hr)))
      · exact Or.inl (Or.inr (bare _ hr))
      · exact Or.inr (bare _ hr)
      · exact Or.inl (Or.inr (bare _ (out_of_given hr)))
    obtain ⟨i, hi, same⟩ := List.mem_mapIdx.mp (Multiset.mem_coe.mp somewhere)
    have number : r.seq = i := (congrArg Request.seq same).symm
    subst number
    exact ⟨_, List.getElem?_eq_getElem hi, same.symm⟩

/-- Once no call is due, what was handed out is what the caller's code was given. -/
theorem Conserved.out_eq_given (h : s.Conserved setup) (made : s.due = []) (seq : Nat) :
    times seq s.out = times seq s.given := by
  have none : s.owed = [] := by simp [owed, made]
  rw [h.delivered, none]
  rfl

theorem Conserved.given_once (h : s.Conserved setup) (made : s.due = []) :
    ∀ seq < s.accepted.length, times seq s.core.inLanes + times seq s.core.onTimeline +
      times seq s.given + times seq s.withdrawn = 1 := by
  intro seq accepted
  rw [← h.out_eq_given made]
  exact h.once seq accepted

/-- No run of a core loses a request, serves one twice or changes one. -/
theorem run_conserves_requests (setup : Setup) (actions : List Action) :
    (run setup actions).Conserved setup :=
  (run_kept setup actions).conserved

end System

end IoScheduling
