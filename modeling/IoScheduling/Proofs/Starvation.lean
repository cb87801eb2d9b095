import IoScheduling.Proofs.Conservation
import IoScheduling.Proofs.Relocation
import IoScheduling.Proofs.Scans
import Mathlib.Algebra.Order.Floor.Div
import Mathlib.Data.Nat.Log

/-! # No request starves

A large entry becomes eligible because every scan that passes it doubles its factor. A request
changes entry while it waits: entries merge, move and are taken apart. Its factor goes with it, so a
request that was passed `k` times waits in an entry whose factor has doubled as often. -/
namespace IoScheduling

/-- What callers and policies do: the actions of a run, and the steps of the two policies that
promote entries. -/
inductive Operation : Type 1 where
  | act (a : Action)
  | visit {ω : Type} (host : Host ω) (world : ω) (quantum now : Nat) (file : String) (d : Direction)
  | select (quantumBytes now : Nat)
  | turn (q : QuantumBounds) (k : Burst.Candidate) (now dispatched consumed : Nat)

def Core.promotedBy (c : Core) : Operation → List Entry
  | .act (.steer file s) => c.steered file s
  | .act _ => []
  | .visit _ _ _ now file d => c.visited now file d
  | .select _ now => Burst.scannedHeads now c.index.files
  | .turn _ k _ dispatched _ => c.turned k dispatched

namespace System

def perform (s : System) : Operation → System
  | .act a => s.act a
  | .visit host world quantum now file d =>
    let scan := Feedback.visit host quantum now ⟨⟨s.core, world⟩, [], none⟩ (file, d)
    scan.ready.foldl handOut { s with core := scan.session.core }
  | .select quantumBytes now =>
    { s with core := { s.core with
      index := (Burst.select quantumBytes now s.core.index).2.2 } }
  | .turn q k now dispatched consumed =>
    { s with core := (Burst.turn q k now dispatched consumed s.core).2 }

def performAll (s : System) (ops : List Operation) : System := ops.foldl perform s

/-- How often, in the course of `ops`, the entry in which request `seq` waited was promoted. -/
def bumps (seq : Nat) (s : System) : List Operation → Nat
  | [] => 0
  | op :: ops =>
    times seq ((s.core.promotedBy op).flatMap Entry.requests) + bumps seq (s.perform op) ops

theorem core_foldl_handOut (s : System) (ready : List (List Request)) :
    (ready.foldl handOut s).core = s.core := by
  induction ready generalizing s with
  | nil => rfl
  | cons requests ready ih => exact ih (s.handOut requests)

end System

namespace Feedback

variable {ω : Type}

theorem scanBucket_performs (host : Host ω) (quantum now i : Nat) (s : Session ω) (t : System)
    (same : t.core = s.core) : ∃ ops : List Operation,
      (∀ op ∈ ops, ∃ world file d, op = .visit host world quantum now file d) ∧
      (t.performAll ops).core = (scanBucket host quantum now i s).session.core := by
  have visits (lanes : List (String × Direction)) : ∀ (scan : Scan ω) (t : System),
      t.core = scan.session.core → ∃ ops : List Operation,
        (∀ op ∈ ops, ∃ world file d, op = .visit host world quantum now file d) ∧
        (t.performAll ops).core = (lanes.foldl (visit host quantum now) scan).session.core := by
    induction lanes with
    | nil => exact fun scan t same => ⟨[], by simp, same⟩
    | cons lane lanes ih =>
      intro scan t same
      let op : Operation := .visit host scan.session.world quantum now lane.1 lane.2
      have next : (t.perform op).core = (visit host quantum now scan lane).session.core := by
        rw [(visit_first host quantum now scan lane).1, System.perform, System.core_foldl_handOut,
          same]
      obtain ⟨ops, only, reached⟩ := ih _ _ next
      refine ⟨op :: ops, ?_, reached⟩
      intro o ho
      rcases List.mem_cons.mp ho with rfl | ho
      · exact ⟨_, _, _, rfl⟩
      · exact only o ho
  unfold scanBucket
  dsimp only
  split
  · exact ⟨[], by simp, same⟩
  · exact visits _ ⟨s, [], none⟩ t same

end Feedback

/-- The factor that a lone request has after so many promotions. -/
def earned : Nat → Nat
  | 0 => 0
  | k + 1 => Entry.nextFactor (earned k)

namespace Entry

theorem nextFactor_mono {m n : Nat} (h : m ≤ n) : nextFactor m ≤ nextFactor n := by
  have room : 1 ≤ maxFactor := by decide
  unfold nextFactor satMul
  have word : 2 ≤ maxWord := by decide
  split <;> split <;> omega

theorem le_nextFactor {n : Nat} (h : n ≤ maxFactor) : n ≤ nextFactor n := by
  have word : maxFactor ≤ maxWord := by decide
  unfold nextFactor satMul
  split <;> omega

end Entry

theorem earned_succ (k : Nat) : earned (k + 1) = min (2 ^ k) maxFactor := by
  induction k with
  | zero => decide
  | succ k ih =>
    have word : maxFactor * 2 ≤ maxWord := by decide
    have room : 1 ≤ maxFactor := by decide
    have pos : 1 ≤ 2 ^ k := Nat.one_le_two_pow
    rw [earned, ih, Entry.nextFactor, if_neg (by omega), satMul, pow_succ]
    omega

theorem eligible_of_earned {e : Entry} {quantum k : Nat} (word : e.length ≤ maxWord)
    (reach : e.length ≤ maxFactor * quantum) (enough : Nat.clog 2 (e.length ⌈/⌉ quantum) + 1 ≤ k)
    (factor : min (2 ^ (k - 1)) maxFactor ≤ e.factor) : e.eligible quantum := by
  have covered : e.length ≤ e.factor * quantum := by
    rcases min_le_iff.mp factor with power | full
    · have steps : e.length ⌈/⌉ quantum ≤ 2 ^ (k - 1) :=
        (Nat.le_pow_clog (by decide) _).trans (Nat.pow_le_pow_right (by decide) (by omega))
      rcases Nat.eq_zero_or_pos quantum with rfl | pos
      · exact reach.trans (Nat.zero_le _)
      · rw [mul_comm]
        exact ((ceilDiv_le_iff_le_mul pos).mp steps).trans (Nat.mul_le_mul_left quantum power)
    · exact reach.trans (Nat.mul_le_mul_right quantum full)
  exact decide_eq_true (le_min covered word)

/-- How an operation changes the pending entries. A new request has the number `next`, and the
entries of `ps` are promoted. -/
inductive Turnover (next : Nat) : List Entry → Multiset Entry → Multiset Entry → Prop where
  | fused {A B : Multiset Entry} : Fuses A B → Turnover next [] A B
  | arrived {A B : Multiset Entry} {r : Request} : r.seq = next → r.factor = 0 →
      Fuses (.single r ::ₘ A) B → Turnover next [] A B
  | split {e : Entry} {k : Nat} {r : Request} {runs : List Entry} {rest : Multiset Entry} :
      e.extract k = some (r, runs) → Turnover next [] (e ::ₘ rest) (↑runs + rest)
  | promoted {ps : List Entry} {A B : Multiset Entry} (gone : Multiset Entry) :
      Promoted ps A (gone + B) → Turnover next ps A B

variable {next : Nat} {ps : List Entry} {A B : Multiset Entry} {e : Entry} {r : Request}

/-- Numbers are given out once, in order. -/
structure Numbered (next : Nat) (A : Multiset Entry) : Prop where
  once : ∀ n, (requestBag A).countP (fun r => r.seq = n) ≤ 1
  below : ∀ r ∈ requestBag A, r.seq < next

theorem Numbered.unique (h : Numbered next A) {o : Entry} {q : Request} (he : e ∈ A) (ho : o ∈ A)
    (hr : r ∈ e.requests) (hq : q ∈ o.requests) (same : r.seq = q.seq) : e = o := by
  by_contra other
  obtain ⟨rest, rfl⟩ := Multiset.exists_cons_of_mem he
  have there := (Multiset.mem_cons.mp ho).resolve_left (Ne.symm other)
  have once := h.once r.seq
  rw [requestBag_cons, Multiset.countP_add] at once
  have first : 0 < (e.requests : Multiset Request).countP fun s => s.seq = r.seq :=
    Multiset.countP_pos.mpr ⟨r, hr, rfl⟩
  have second : 0 < (requestBag rest).countP fun s => s.seq = r.seq :=
    Multiset.countP_pos.mpr ⟨q, mem_requestBag.mpr ⟨o, there, hq⟩, same.symm⟩
  omega

theorem extract_keeps {k : Nat} {q : Request} {runs : List Entry} {o : Entry}
    (hx : o.extract k = some (q, runs)) (he : e ∈ runs) :
    e.factor = o.factor ∧ ∀ r ∈ e.requests, ∃ p ∈ o.requests, p.seq = r.seq := by
  constructor
  · obtain ⟨-, -, -, rfl⟩ := extract_some hx
    exact factor_regroup he
  · intro r hr
    have there : r.bare ∈ contents runs := mem_contents.mpr ⟨e, he, r, hr, rfl⟩
    have before : r.bare ∈ o.contents := by
      rw [contents_extract hx]
      exact Multiset.mem_cons_of_mem there
    obtain ⟨p, hp, same⟩ := List.mem_map.mp (Multiset.mem_coe.mp before)
    have seq := congrArg Request.seq same
    exact ⟨p, hp, seq⟩

theorem mem_requests_promote (h : r ∈ e.promote.requests) : ∃ q ∈ e.requests, q.seq = r.seq := by
  cases e with
  | single q =>
    rw [List.mem_singleton.mp h]
    exact ⟨q, List.mem_singleton_self q, rfl⟩
  | aggregate head m => exact ⟨r, h, rfl⟩

/-- A request that waits afterwards is new, or it waited before, in an entry with no larger factor.
If that entry was promoted, the factor has grown accordingly. -/
theorem Turnover.origin (h : Turnover next ps A B) (numbered : Numbered next A)
    (capped : ∀ e ∈ A, e.factor ≤ maxFactor) (he : e ∈ B) (hr : r ∈ e.requests) :
    r.seq = next ∨ ∃ o ∈ A, ∃ q ∈ o.requests, q.seq = r.seq ∧ o.factor ≤ e.factor ∧
      (times r.seq (ps.flatMap Entry.requests) = 0 ∨
        times r.seq (ps.flatMap Entry.requests) = 1 ∧ Entry.nextFactor o.factor ≤ e.factor) := by
  cases h with
  | fused fuses =>
    obtain ⟨o, ho, mem, le⟩ := fuses.origin he hr
    exact Or.inr ⟨o, ho, r, mem, rfl, le, Or.inl rfl⟩
  | arrived seq factor fuses =>
    obtain ⟨o, ho, mem, le⟩ := fuses.origin he hr
    rcases Multiset.mem_cons.mp ho with rfl | ho
    · rw [List.mem_singleton.mp mem]
      exact Or.inl seq
    · exact Or.inr ⟨o, ho, r, mem, rfl, le, Or.inl rfl⟩
  | @split o k q runs rest hx =>
    rcases Multiset.mem_add.mp he with he | he
    · obtain ⟨factor, keeps⟩ := extract_keeps hx (Multiset.mem_coe.mp he)
      obtain ⟨p, hp, same⟩ := keeps r hr
      exact Or.inr ⟨o, Multiset.mem_cons_self _ _, p, hp, same, factor.ge, Or.inl rfl⟩
    · exact Or.inr ⟨e, Multiset.mem_cons_of_mem he, r, hr, rfl, le_refl _, Or.inl rfl⟩
  | promoted gone promoted =>
    obtain ⟨rest, rfl, after⟩ := promoted
    have he := Multiset.mem_add.mp (after ▸ Multiset.mem_add.mpr (Or.inr he))
    have once := numbered.once r.seq
    rw [requestBag_add, requestBag_coe, Multiset.countP_add, Multiset.coe_countP] at once
    change times r.seq (ps.flatMap Entry.requests) + _ ≤ 1 at once
    rcases he with he | he
    · obtain ⟨p, hp, rfl⟩ := List.mem_map.mp (Multiset.mem_coe.mp he)
      obtain ⟨q, hq, same⟩ := mem_requests_promote hr
      have one : 0 < times r.seq (ps.flatMap Entry.requests) := by
        apply List.countP_pos_iff.mpr
        exact ⟨q, List.mem_flatMap.mpr ⟨p, hp, hq⟩, decide_eq_true same⟩
      have mem : p ∈ (ps : Multiset Entry) + rest := Multiset.mem_add.mpr (Or.inl hp)
      refine Or.inr ⟨p, mem, q, hq, same, ?_, Or.inr ⟨by omega, ?_⟩⟩
      · rw [Entry.factor_promote]
        exact Entry.le_nextFactor (capped p mem)
      · rw [Entry.factor_promote]
    · have one : 0 < (requestBag rest).countP fun s => s.seq = r.seq := by
        apply Multiset.countP_pos.mpr
        exact ⟨r, mem_requestBag.mpr ⟨e, he, hr⟩, rfl⟩
      refine Or.inr ⟨e, Multiset.mem_add.mpr (Or.inr he), r, hr, rfl, le_refl _, Or.inl ?_⟩
      omega

theorem Turnover.capped (h : Turnover next ps A B) (capped : ∀ e ∈ A, e.factor ≤ maxFactor)
    (he : e ∈ B) : e.factor ≤ maxFactor := by
  cases h with
  | fused fuses =>
    obtain ⟨o, ho, same⟩ := fuses.factor_origin he
    exact same ▸ capped o ho
  | arrived seq factor fuses =>
    obtain ⟨o, ho, same⟩ := fuses.factor_origin he
    rw [same]
    rcases Multiset.mem_cons.mp ho with rfl | ho
    · exact factor.le.trans (Nat.zero_le _)
    · exact capped o ho
  | @split o k q runs rest hx =>
    rcases Multiset.mem_add.mp he with he | he
    · rw [(extract_keeps hx (Multiset.mem_coe.mp he)).1]
      exact capped o (Multiset.mem_cons_self _ _)
    · exact capped e (Multiset.mem_cons_of_mem he)
  | promoted gone promoted =>
    obtain ⟨rest, rfl, after⟩ := promoted
    rcases Multiset.mem_add.mp (after ▸ Multiset.mem_add.mpr (Or.inr he)) with he | he
    · obtain ⟨p, -, rfl⟩ := List.mem_map.mp (Multiset.mem_coe.mp he)
      rw [Entry.factor_promote]
      exact Entry.nextFactor_le _
    · exact capped e (Multiset.mem_add.mpr (Or.inr he))

theorem Turnover.times_fresh (h : Turnover next ps A B) (numbered : Numbered next A) {n : Nat}
    (hn : next ≤ n) : times n (ps.flatMap Entry.requests) = 0 := by
  cases h with
  | fused | arrived | split => rfl
  | promoted gone promoted =>
    obtain ⟨rest, rfl, -⟩ := promoted
    apply List.countP_eq_zero.mpr
    intro r hr same
    obtain ⟨p, hp, mem⟩ := List.mem_flatMap.mp hr
    have below := numbered.below r
      (mem_requestBag.mpr ⟨p, Multiset.mem_add.mpr (Or.inl hp), mem⟩)
    have seq := of_decide_eq_true same
    omega

namespace Core

variable {c c' : Core}

theorem turnover_of_eq (same : B = A) : Turnover next [] A B := same ▸ .fused .refl

theorem submit_turnover (h : c.InStep) (now : Nat) (call : Submission) :
    Turnover c.nextSeq [] c.entryBag (c.submit now call).1.entryBag := by
  unfold submit
  split
  · exact .fused .refl
  · dsimp only
    split
    · exact .fused .refl
    · have arrived := enqueue_fuses (c := { c with nextSeq := c.nextSeq + 1 }) h now (c.stamp now call)
      exact .arrived (r := c.stamp now call) rfl rfl arrived

theorem cancel_turnover (h : c.InStep) (a : Address) :
    Turnover next [] c.entryBag (c.cancel a).1.entryBag := by
  unfold cancel
  split
  · rename_i r c' hd
    obtain ⟨k, o, runs, rest, hx, before, after⟩ := dequeue_entryBag h hd
    have split : Turnover next [] c.entryBag c'.entryBag := by
      rw [before, after]
      exact .split hx
    exact split
  · exact .fused .refl

theorem turnover_of_left (left : A = e ::ₘ B) : Turnover next [] A B := by
  refine .promoted {e} ?_
  rw [Multiset.singleton_add, ← left]
  exact .refl A

theorem Promotes.turnover (h : Promotes ps c c') : Turnover next ps c.entryBag c'.entryBag :=
  .promoted 0 ((zero_add c'.entryBag).symm ▸ h.entries)

end Core

namespace System

variable {s : System} {setup : Setup}

theorem act_turnover (h : s.core.InStep) (a : Action) :
    Turnover s.core.nextSeq (s.core.promotedBy (.act a)) s.core.entryBag (s.act a).core.entryBag := by
  cases a with
  | submit now call =>
    rw [act, core_submit]
    exact Core.submit_turnover h now call
  | settle i =>
    refine Core.turnover_of_eq ?_
    change (s.settle i).core.entryBag = _
    unfold settle
    split <;> rfl
  | complete now a => exact Core.turnover_of_eq (Core.complete_entryBag h now a)
  | cancel a =>
    rw [act, core_cancel]
    exact Core.cancel_turnover h a
  | migrate k => exact .fused (Core.migrate_fuses h k)
  | dispatch now file d i k inQuantum =>
    rw [act]
    cases hd : s.core.dispatch? now file d i k inQuantum with
    | none => exact .fused .refl
    | some result =>
      obtain ⟨e, -, left⟩ := Core.dispatch?_entryBag h hd
      exact Core.turnover_of_left left
  | dispatchHead now k =>
    rw [act]
    cases hd : s.core.dispatchHead? now k with
    | none => exact .fused .refl
    | some result =>
      obtain ⟨e, -, left⟩ := Core.dispatchHead?_entryBag h hd
      exact Core.turnover_of_left left
  | handOver i =>
    refine Core.turnover_of_eq ?_
    change (s.handOver i).core.entryBag = _
    unfold handOver
    split <;> rfl
  | steer file t => exact (Core.steer_promotes h file t).turnover
  | stop => exact .fused .refl
  | reset => exact Core.turnover_of_eq (congrArg (· + _) (Index.resetTallies_entryBag _))

theorem visit_turnover {now : Nat} {file : String} {d : Direction} {c : Core}
    {ready : List (List Request)} (visit : Core.Visit s.core now file d c ready) :
    Turnover next (s.core.visited now file d) s.core.entryBag c.entryBag := by
  cases visit with
  | kept promotes => exact promotes.turnover
  | dispatched promotes went =>
    obtain ⟨e, -, left⟩ := Core.dispatch?_entryBag promotes.inStep went
    refine .promoted {e} ?_
    rw [Multiset.singleton_add, ← left]
    exact promotes.entries

theorem promotes_change {c : Core} (h : Core.Promotes ps s.core c) :
    Change s { s with core := c } := .quiet h.inStep h.setup h.pending h.held h.books

theorem visit_kept (h : s.Kept setup) {now : Nat} {file : String} {d : Direction} {c : Core}
    {ready : List (List Request)} (visit : Core.Visit s.core now file d c ready) :
    (ready.foldl handOut { s with core := c }).Kept setup := by
  cases visit with
  | kept promotes => exact change_kept h (promotes_change promotes)
  | @dispatched c₁ _ t i requests promotes went =>
    have first := change_kept h (promotes_change promotes)
    exact change_kept first (Change.of_dispatched (s := { s with core := c₁ })
      (Core.dispatch?_effect promotes.inStep went))

theorem perform_turnover (h : s.core.InStep) (op : Operation) :
    Turnover s.core.nextSeq (s.core.promotedBy op) s.core.entryBag (s.perform op).core.entryBag := by
  cases op with
  | act a => exact act_turnover h a
  | visit host world quantum now file d =>
    obtain ⟨ready, -, visit⟩ := Core.visit_ends host quantum now ⟨⟨s.core, world⟩, [], none⟩ h file d
    rw [perform, core_foldl_handOut]
    exact visit_turnover visit
  | select quantumBytes now => exact (Core.select_promotes h quantumBytes now).turnover
  | turn q k now dispatched consumed =>
    exact (Core.turn_promotes h q k now dispatched consumed).turnover

theorem perform_kept (h : s.Kept setup) (op : Operation) : (s.perform op).Kept setup := by
  cases op with
  | act a => exact act_kept h a
  | visit host world quantum now file d =>
    obtain ⟨ready, same, visit⟩ :=
      Core.visit_ends host quantum now ⟨⟨s.core, world⟩, [], none⟩ h.inStep file d
    rw [perform, same]
    exact visit_kept h visit
  | select quantumBytes now =>
    exact change_kept h (promotes_change (Core.select_promotes h.inStep quantumBytes now))
  | turn q k now dispatched consumed =>
    exact change_kept h (promotes_change (Core.turn_promotes h.inStep q k now dispatched consumed))

theorem Change.nextSeq_le {s' : System} (h : Change s s') : s.core.nextSeq ≤ s'.core.nextSeq := by
  cases h with
  | handedOver => exact le_refl _
  | queued _ _ _ _ _ _ books => exact (Nat.le_succ _).trans (congrArg Books.nextSeq books).ge
  | passed _ _ _ _ _ _ books => exact (Nat.le_succ _).trans (congrArg Books.nextSeq books).ge
  | quiet _ _ _ _ books => exact (congrArg Books.nextSeq books).ge
  | settled _ _ _ _ _ books => exact (congrArg Books.nextSeq books).ge
  | released _ _ _ _ books => exact (congrArg Books.nextSeq books).ge
  | withdrawn _ _ _ _ books => exact (congrArg Books.nextSeq books).ge
  | dispatched _ _ _ _ _ _ _ books => exact (congrArg Books.nextSeq books).ge

theorem perform_nextSeq_le (h : s.core.InStep) (op : Operation) :
    s.core.nextSeq ≤ (s.perform op).core.nextSeq := by
  cases op with
  | act a =>
    by_cases reset : a = .reset
    · subst reset
      exact le_refl _
    · exact (act_change h reset).nextSeq_le
  | visit host world quantum now file d =>
    obtain ⟨ready, -, visit⟩ := Core.visit_ends host quantum now ⟨⟨s.core, world⟩, [], none⟩ h file d
    rw [perform, core_foldl_handOut]
    cases visit with
    | kept promotes => exact (promotes_change promotes).nextSeq_le
    | @dispatched c₁ _ t i requests promotes went =>
      have first := (promotes_change promotes).nextSeq_le
      exact first.trans (Change.of_dispatched (s := { s with core := c₁ })
        (Core.dispatch?_effect promotes.inStep went)).nextSeq_le
  | select quantumBytes now =>
    exact (promotes_change (Core.select_promotes h quantumBytes now)).nextSeq_le
  | turn q k now dispatched consumed =>
    exact (promotes_change (Core.turn_promotes h q k now dispatched consumed)).nextSeq_le

theorem Kept.numbered_entries (h : s.Kept setup) : Numbered s.core.nextSeq s.core.entryBag := by
  have conserved := h.conserved
  have below : ∀ r ∈ requestBag s.core.entryBag, r.seq < s.core.nextSeq := by
    intro r hr
    rw [Core.requestBag_entryBag] at hr
    have place := List.mem_append.mp (Multiset.mem_coe.mp hr)
    obtain ⟨a, found, -⟩ := conserved.genuine r (by tauto)
    rw [h.numbered]
    exact (List.getElem?_eq_some_iff.mp found).1
  refine ⟨fun n => ?_, below⟩
  by_cases old : n < s.core.nextSeq
  · have once := conserved.once n (h.numbered ▸ old)
    rw [Core.requestBag_entryBag, Multiset.coe_countP, List.countP_append]
    unfold times at once
    omega
  · have none : (requestBag s.core.entryBag).countP (fun r => r.seq = n) = 0 :=
      Multiset.countP_eq_zero.mpr fun r hr same => old (same ▸ below r hr)
    omega

/-- The entry in which request `n` waits has at least the factor for `b n` promotions. -/
structure Aging (setup : Setup) (b : Nat → Nat) (s : System) : Prop where
  kept : s.Kept setup
  capped : ∀ e ∈ s.core.entryBag, e.factor ≤ maxFactor
  waited : ∀ e ∈ s.core.entryBag, ∀ r ∈ e.requests, earned (b r.seq) ≤ e.factor
  fresh : ∀ n, s.core.nextSeq ≤ n → b n = 0

theorem perform_aging {b : Nat → Nat} (h : Aging setup b s) (op : Operation) :
    Aging setup (fun n => b n + times n ((s.core.promotedBy op).flatMap Entry.requests))
      (s.perform op) := by
  have turnover := perform_turnover h.kept.inStep op
  have numbered := h.kept.numbered_entries
  have unborn : ∀ n, s.core.nextSeq ≤ n →
      b n + times n ((s.core.promotedBy op).flatMap Entry.requests) = 0 := by
    intro n hn
    rw [h.fresh n hn, turnover.times_fresh numbered hn]
  constructor
  case kept => exact perform_kept h.kept op
  case capped => exact fun e he => turnover.capped h.capped he
  case fresh => exact fun n hn => unborn n ((perform_nextSeq_le h.kept.inStep op).trans hn)
  case waited =>
    intro e he r hr
    rcases turnover.origin numbered h.capped he hr with new | ⟨o, ho, q, hq, same, le, grown⟩
    · rw [unborn r.seq new.ge]
      exact Nat.zero_le _
    · have before := h.waited o ho q hq
      rw [same] at before
      rcases grown with none | ⟨one, grown⟩
      · rw [none]
        exact before.trans le
      · rw [one]
        exact (Entry.nextFactor_mono before).trans grown

theorem performAll_aging {b : Nat → Nat} (h : Aging setup b s) (ops : List Operation) :
    Aging setup (fun n => b n + bumps n s ops) (s.performAll ops) := by
  induction ops generalizing s b with
  | nil => exact h
  | cons op ops ih =>
    have rest := ih (perform_aging h op)
    simp only [Nat.add_assoc] at rest
    exact rest

theorem aging_start (setup : Setup) : Aging setup (fun _ => 0) (start setup) where
  kept := kept_start setup
  capped := fun _ he => absurd he (Multiset.notMem_zero _)
  waited := fun _ he => absurd he (Multiset.notMem_zero _)
  fresh := fun _ _ => rfl

theorem performAll_origin {b : Nat → Nat} (h : Aging setup b s) (ops : List Operation)
    (he : e ∈ (s.performAll ops).core.entryBag) (hr : r ∈ e.requests)
    (old : r.seq < s.core.nextSeq) :
    ∃ o ∈ s.core.entryBag, ∃ q ∈ o.requests, q.seq = r.seq ∧ o.factor ≤ e.factor := by
  induction ops generalizing s b with
  | nil => exact ⟨e, he, r, hr, rfl, le_refl _⟩
  | cons op ops ih =>
    have later := perform_nextSeq_le h.kept.inStep op
    obtain ⟨o, ho, q, hq, same, le⟩ := ih (perform_aging h op) he (old.trans_le later)
    have turnover := perform_turnover h.kept.inStep op
    rcases turnover.origin h.kept.numbered_entries h.capped ho hq with
      new | ⟨o', ho', q', hq', same', le', -⟩
    · omega
    · exact ⟨o', ho', q', hq', same'.trans same, le'.trans le⟩

/-- What is known of the entry in which a request waits that has been promoted `k` times. -/
structure Aged (k : Nat) (e : Entry) : Prop where
  capped : e.factor ≤ maxFactor
  grown : 1 ≤ k → min (2 ^ (k - 1)) maxFactor ≤ e.factor
  eligible : ∀ quantum, e.length ≤ maxWord → e.length ≤ maxFactor * quantum →
    Nat.clog 2 (e.length ⌈/⌉ quantum) + 1 ≤ k → e.eligible quantum

/-- Of the requests that wait after `before`: what their promotions have earned them, and that they
keep it in the course of `after`. -/
structure StarvesNone (setup : Setup) (before after : List Operation) : Prop where
  aged : ∀ e ∈ ((start setup).performAll before).core.entryBag, ∀ r ∈ e.requests,
    Aged (bumps r.seq (start setup) before) e
  kept : ∀ e ∈ ((start setup).performAll before).core.entryBag, ∀ r ∈ e.requests,
    ∀ e' ∈ ((start setup).performAll (before ++ after)).core.entryBag, ∀ r' ∈ e'.requests,
      r'.seq = r.seq → e.factor ≤ e'.factor

theorem aged_of_earned {k : Nat} (capped : e.factor ≤ maxFactor) (h : earned k ≤ e.factor) :
    Aged k e := by
  have grown : 1 ≤ k → min (2 ^ (k - 1)) maxFactor ≤ e.factor := by
    intro pos
    rwa [← earned_succ, Nat.sub_add_cancel pos]
  refine ⟨capped, grown, fun quantum word reach enough => ?_⟩
  exact eligible_of_earned word reach enough (grown (by omega))

/-- Factors are never lost, whatever merges, splits and moves there are, so every request becomes
eligible after a number of promotions that only depends on the length of its entry. -/
theorem run_starves_none (setup : Setup) (before after : List Operation) :
    StarvesNone setup before after := by
  have aging := performAll_aging (aging_start setup) before
  constructor
  case aged =>
    intro e he r hr
    have waited := aging.waited e he r hr
    rw [Nat.zero_add] at waited
    exact aged_of_earned (aging.capped e he) waited
  case kept =>
    intro e he r hr e' he' r' hr' same
    have whole : (start setup).performAll (before ++ after) =
        ((start setup).performAll before).performAll after := List.foldl_append
    have numbered := aging.kept.numbered_entries
    have old : r.seq < ((start setup).performAll before).core.nextSeq :=
      numbered.below r (mem_requestBag.mpr ⟨e, he, hr⟩)
    rw [whole] at he'
    obtain ⟨o, ho, q, hq, seq, le⟩ := performAll_origin aging after he' hr' (same ▸ old)
    rwa [numbered.unique he ho hr hq (same.symm.trans seq.symm)]

end System

end IoScheduling
