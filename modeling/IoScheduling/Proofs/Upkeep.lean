import IoScheduling.Proofs.Hosts

/-! # What a policy at work keeps

A policy serves entries and reads the clock. All else that happens to a session during a call of the
policy is done by the caller's code, or by others while the policy waits. So what all of these keep,
every call of every policy keeps. Some policies dispatch several entries before they hand over the
first; so what is kept may depend on the requests that are still to be handed over. -/
namespace IoScheduling

namespace Core

/-- The core but for the pending entries and the records of how they are served. -/
def aside (c : Core) : Core :=
  { c with index := .withHash c.setup.hash 0, timeline := .empty, ledger := .zero, outstanding := 0 }

/-- What a policy at work leaves alone. -/
def post (c : Core) : Setup × PolicyKind := (c.setup, c.active)

variable {c c' : Core} {now : Nat} {file : String} {d : Direction} {k : PolicyKind}

theorem post_of_aside (h : c'.aside = c.aside) : c'.post = c.post := by
  have same : c'.aside.post = c.aside.post := congrArg post h
  exact same

theorem aside_dispatch? {i : Nat} {inQuantum : Bool} {requests : List Request}
    (h : c.dispatch? now file d i k inQuantum = some (requests, c')) : c'.aside = c.aside := by
  obtain ⟨_, -, same⟩ := Option.map_eq_some_iff.mp h
  rw [← (Prod.mk.inj same).2]
  rfl

theorem aside_dispatchHead? {requests : List Request}
    (h : c.dispatchHead? now k = some (requests, c')) : c'.aside = c.aside := by
  obtain ⟨_, -, same⟩ := Option.map_eq_some_iff.mp h
  rw [← (Prod.mk.inj same).2]
  rfl

theorem aside_holdBack (c : Core) (file : String) (d : Direction) (i now : Nat) :
    (c.holdBack file d i now).1.aside = c.aside := by
  unfold holdBack
  split
  · rfl
  · split <;> rfl

theorem aside_transfer (c : Core) (k : PolicyKind) : (c.transfer k).aside = c.aside := by
  have shelved (es : List Entry) (c : Core) : (es.foldl shelve c).aside = c.aside :=
    List.foldlRecOn (motive := fun d : Core => d.aside = c.aside) es shelve rfl fun _ h _ _ => h
  have adopted (es : List Entry) (limit : Nat) (c : Core) :
      (es.foldl (adopt limit) c).aside = c.aside :=
    List.foldlRecOn (motive := fun d : Core => d.aside = c.aside) es (adopt limit) rfl
      fun _ h _ _ => h
  unfold transfer
  dsimp only
  split
  · rfl
  · exact shelved _ _
  · exact adopted _ _ _
  · split <;> rfl

theorem post_migrate (c : Core) (k : PolicyKind) : (c.migrate k).post = (c.setup, k) := by
  have same := post_of_aside (c.aside_transfer k)
  exact congrArg (fun p : Setup × PolicyKind => (p.1, k)) same

end Core

namespace Burst

variable (q : QuantumBounds) (k : Candidate) (now dispatched consumed : Nat) (c : Core)

theorem aside_modifyLane (g : Lane → Lane) : (modifyLane c k g).aside = c.aside := by
  unfold modifyLane
  split <;> rfl

theorem aside_firstTurn : (firstTurn q k now c).2.aside = c.aside := by
  have held := c.aside_holdBack k.file k.direction 0 now
  unfold firstTurn
  split
  · rename_i c' wait hh
    rw [hh] at held
    exact held
  · rename_i c' hh
    rw [hh] at held
    exact (aside_modifyLane k c' _).trans held

theorem aside_laterTurn (l : Lane) : (laterTurn q k now consumed l c).2.aside = c.aside := by
  have promoted := aside_modifyLane k c fun _ => promoteHead l
  have held := (modifyLane c k fun _ => promoteHead l).aside_holdBack k.file k.direction 0 now
  unfold laterTurn
  dsimp only
  split
  · exact (aside_modifyLane k _ _).trans promoted
  · split
    · rename_i c' wait hh
      rw [hh] at held
      exact (aside_modifyLane k c' _).trans (held.trans promoted)
    · rename_i c' hh
      rw [hh] at held
      exact held.trans promoted

theorem aside_turn : (turn q k now dispatched consumed c).2.aside = c.aside := by
  unfold turn
  split
  · rfl
  · dsimp only
    split
    · dsimp only
      split
      · rfl
      · exact aside_modifyLane k c _
    · split
      · exact aside_firstTurn q k now c
      · exact aside_laterTurn q k now consumed c _

end Burst

variable {ω : Type} {host : Host ω} {s : Session ω}

/-- What may happen during a call of a policy carries `P` on. The lists are the requests that have
been dispatched and are still to be handed over, one list for each entry. -/
structure Host.Carries (host : Host ω) (P : List (List Request) → Session ω → Prop) : Prop where
  now : ∀ ready s, P ready s → P ready (s.now host).2
  visit : ∀ ready s quantum now lane, P ready s →
    let scan := Feedback.visit host quantum now ⟨s, [], none⟩ lane
    P (ready ++ scan.ready) scan.session
  select : ∀ ready s quantumBytes now, P ready s →
    P ready { s with core := { s.core with
      index := (Burst.select quantumBytes now s.core.index).2.2 } }
  turn : ∀ ready s q k now dispatched consumed, P ready s →
    P ready { s with core := (Burst.turn q k now dispatched consumed s.core).2 }
  dispatch : ∀ ready s now file d i k inQuantum requests c, P ready s →
    s.core.dispatch? now file d i k inQuantum = some (requests, c) →
    P (ready ++ [requests]) { s with core := c }
  dispatchHead : ∀ ready s now k requests c, P ready s →
    s.core.dispatchHead? now k = some (requests, c) → P (ready ++ [requests]) { s with core := c }
  deliver : ∀ requests ready s k, P (requests :: ready) s → P ready (s.deliver host requests k)

section

variable {P : List (List Request) → Session ω → Prop} {ready : List (List Request)}

namespace Host.Carries

variable {k : PolicyKind} {requests : List Request} {s' : Session ω}

theorem shouldYield (carries : host.Carries P) (hs : P ready s) (deadline : Nat) :
    P ready (s.shouldYield host deadline).2 := by
  unfold Session.shouldYield
  split
  · exact hs
  · exact carries.now ready s hs

theorem dispatch? (carries : host.Carries P) (hs : P ready s) {file : String} {d : Direction}
    {i : Nat} {inQuantum : Bool}
    (hd : s.dispatch? host file d i k inQuantum = some (requests, s')) :
    P (ready ++ [requests]) s' := by
  obtain ⟨⟨_, c⟩, went, same⟩ := Option.map_eq_some_iff.mp hd
  obtain ⟨rfl, rfl⟩ := Prod.mk.inj same
  exact carries.dispatch ready _ _ _ _ _ _ _ _ c (carries.now ready s hs) went

theorem dispatchHead? (carries : host.Carries P) (hs : P ready s)
    (hd : s.dispatchHead? host k = some (requests, s')) : P (ready ++ [requests]) s' := by
  obtain ⟨⟨_, c⟩, went, same⟩ := Option.map_eq_some_iff.mp hd
  obtain ⟨rfl, rfl⟩ := Prod.mk.inj same
  exact carries.dispatchHead ready _ _ _ _ c (carries.now ready s hs) went

/-- An entry that goes out while nothing else is to be handed over is handed over at once. -/
theorem send (carries : host.Carries P) (hs : P [] s) {file : String} {d : Direction} {i : Nat}
    {inQuantum : Bool} (hd : s.dispatch? host file d i k inQuantum = some (requests, s')) :
    P [] (s'.deliver host requests k) :=
  carries.deliver requests [] s' k (carries.dispatch? hs hd)

theorem deliverAll (carries : host.Carries P) (ready : List (List Request)) (k : PolicyKind)
    (hs : P ready s) : P [] (ready.foldl (fun s requests => s.deliver host requests k) s) := by
  induction ready generalizing s with
  | nil => exact hs
  | cons requests rest ih => exact ih (carries.deliver requests rest s k hs)

end Host.Carries

theorem InOrder.loop_carries (carries : host.Carries P) (k : PolicyKind) (deadline rounds : Nat)
    {dispatched : Nat} (hs : P [] s) : P [] (loop host k deadline rounds dispatched s).session := by
  induction rounds generalizing dispatched s with
  | zero => exact hs
  | succ rounds ih =>
    have yields := carries.shouldYield hs deadline
    unfold loop
    split
    · rename_i t ht
      rw [ht] at yields
      exact yields
    · rename_i t ht
      rw [ht] at yields
      split
      · exact yields
      · rename_i requests t' hd
        exact ih (carries.deliver requests [] t' k (carries.dispatchHead? yields hd))

namespace Shortest

theorem serve_carries (carries : host.Carries P) (k : PolicyKind) (choice : Choice)
    (batch dispatched : Nat) (hs : P [] s) : P [] (serve host k choice batch dispatched s).2 := by
  induction batch generalizing dispatched s with
  | zero => exact hs
  | succ batch ih =>
    unfold serve
    split
    · exact hs
    · rename_i requests t hd
      have next := carries.send hs hd
      dsimp only
      split
      · exact next
      · exact ih _ next

theorem loop_carries (carries : host.Carries P) (k : PolicyKind) (deadline rounds : Nat)
    {dispatched : Nat} (hs : P [] s) : P [] (loop host k deadline rounds dispatched s).session := by
  induction rounds generalizing dispatched s with
  | zero => exact hs
  | succ rounds ih =>
    have yields := carries.shouldYield hs deadline
    unfold loop
    split
    · rename_i t ht
      rw [ht] at yields
      exact yields
    · rename_i t ht
      rw [ht] at yields
      split
      · exact yields
      · exact ih (serve_carries carries k _ _ dispatched yields)

end Shortest

namespace PassThrough

theorem drainLane_carries (carries : host.Carries P) (file : String) (d : Direction) (n : Nat)
    {x : List (List Request) × Session ω} (hx : P x.1 x.2) :
    P (drainLane host file d n x).1 (drainLane host file d n x).2 := by
  induction n generalizing x with
  | zero => exact hx
  | succ n ih =>
    unfold drainLane
    split
    · exact hx
    · rename_i hd
      exact ih (carries.dispatch? hx hd)

theorem drainBucket_carries (carries : host.Carries P) (i : Nat) (hs : P [] s) :
    P [] (drainBucket host i s).2 := by
  unfold drainBucket
  dsimp only
  split
  · exact hs
  · apply carries.deliverAll
    exact List.foldlRecOn (motive := fun acc : List (List Request) × Session ω => P acc.1 acc.2)
      _ _ hs fun acc before lane _ => drainLane_carries carries lane.1.file lane.2 _ before

/-- The visit that a round of the pass-through policy pays to a bucket. -/
def visit (host : Host ω) (i : Nat) (x : Nat × Session ω) : Nat × Session ω :=
  (x.1 + (drainBucket host i x.2).1, (drainBucket host i x.2).2)

theorem schedule_eq (s : Session ω) :
    schedule host s =
      ⟨⟨(visitBuckets 0 (visit host) (0, s)).1, none⟩, (visitBuckets 0 (visit host) (0, s)).2, true⟩ :=
  rfl

theorem schedule_carries (carries : host.Carries P) (hs : P [] s) :
    P [] (schedule host s).session := by
  have start : P [] ((0, s) : Nat × Session ω).2 := hs
  have each (i : Nat) (acc : Nat × Session ω) (before : P [] acc.2) : P [] (visit host i acc).2 :=
    drainBucket_carries carries i before
  rw [schedule_eq]
  exact visitFrom_keeps (P := fun acc : Nat × Session ω => P [] acc.2) each 0 _ 0 start

end PassThrough

namespace Feedback

variable {quantum now : Nat}

theorem scanBucket_carries (carries : host.Carries P) (i : Nat) (hs : P [] s) :
    P (scanBucket host quantum now i s).ready (scanBucket host quantum now i s).session := by
  unfold scanBucket
  dsimp only
  split
  · exact hs
  · refine List.foldlRecOn (motive := fun scan : Scan ω => P scan.ready scan.session) _ _ hs
      fun scan before lane _ => ?_
    obtain ⟨session, ready⟩ := visit_first host quantum now scan lane
    rw [session, ready]
    exact carries.visit _ _ quantum now lane before

theorem round_carries (carries : host.Carries P) (p : Feedback) (hs : P [] s) :
    P [] (p.round host s).2 := by
  unfold round
  refine visitFrom_keeps (P := fun acc : Outcome × Session ω => P [] acc.2) ?_ p.cursor _ 0 hs
  intro i acc before
  exact carries.deliverAll _ .feedback
    (scanBucket_carries carries i (carries.now [] acc.2 before))

theorem loop_carries (carries : host.Carries P) (deadline rounds : Nat) {dispatched : Nat}
    (p : Feedback) (hs : P [] s) :
    P [] (loop host deadline rounds dispatched p s).2.session := by
  induction rounds generalizing dispatched p s with
  | zero => exact hs
  | succ rounds ih =>
    have yields := carries.shouldYield hs deadline
    unfold loop
    split
    · rename_i t ht
      rw [ht] at yields
      exact yields
    · rename_i t ht
      rw [ht] at yields
      have went := round_carries carries p yields
      dsimp only
      split
      · exact went
      · exact ih _ went

end Feedback

namespace Burst

theorem serve_carries (carries : host.Carries P) (q : QuantumBounds) (k : Candidate)
    (rounds dispatched consumed : Nat) (hs : P [] s) :
    P [] (serve host q k rounds dispatched consumed s).session := by
  induction rounds generalizing dispatched consumed s with
  | zero => exact hs
  | succ rounds ih =>
    unfold serve
    split
    · exact hs
    · have turned := carries.turn [] _ q k (s.now host).1 dispatched consumed (carries.now [] s hs)
      dsimp only
      split
      · rename_i wait core ht
        rw [ht] at turned
        exact turned
      · rename_i core ht
        rw [ht] at turned
        split
        · exact turned
        · rename_i requests t hd
          exact ih _ _ (carries.send turned hd)

theorem loop_carries (carries : host.Carries P) (q : QuantumBounds) (limit deadline rounds : Nat)
    {dispatched : Nat} (hs : P [] s) :
    P [] (loop host q limit deadline rounds dispatched s).session := by
  induction rounds generalizing dispatched s with
  | zero => exact hs
  | succ rounds ih =>
    have yields := carries.shouldYield hs deadline
    unfold loop
    split
    · rename_i t ht
      rw [ht] at yields
      exact yields
    · rename_i t ht
      rw [ht] at yields
      have selected := carries.select [] _ q.quantumBytes (t.now host).1 (carries.now [] t yields)
      dsimp only
      split
      · rename_i wait index found
        rw [found] at selected
        split
        · exact selected
        · exact ih selected
      · rename_i candidate wait index found
        rw [found] at selected
        have served := serve_carries carries q candidate limit 0 0 selected
        split
        · exact served
        · split
          · exact served
          · exact ih served

end Burst

/-- Whatever a policy dispatches in the course of a call it also hands over. -/
theorem Policy.schedule_carries (carries : host.Carries P) (p : Policy) (limit : Nat)
    (hs : P [] s) : P [] (p.schedule host limit s).2.session := by
  have read := carries.now [] s hs
  cases p with
  | aioli q => exact Burst.loop_carries carries q limit _ limit read
  | feedback state => exact Feedback.loop_carries carries _ limit state read
  | shortestJob => exact Shortest.loop_carries carries .shortestJob _ limit read
  | shortestRemaining => exact Shortest.loop_carries carries .shortestRemaining _ limit read
  | timeOrder => exact InOrder.loop_carries carries .timeOrder _ limit read
  | timeOrderMerging => exact InOrder.loop_carries carries .timeOrderMerging _ limit read
  | timeWindow => exact InOrder.loop_carries carries .timeWindow _ limit read
  | passThrough => exact PassThrough.schedule_carries carries hs

end

variable {P : Session ω → Prop}

/-- What may happen during a call of a policy keeps `P`. -/
structure Host.Keeps (host : Host ω) (P : Session ω → Prop) : Prop where
  now : ∀ s, P s → P (s.now host).2
  serve : ∀ s c, c.aside = s.core.aside → P s → P { s with core := c }
  handOver : ∀ h s, P s → P (host.handOver h s)
  awaitRelease : ∀ s, P s → P (host.awaitRelease s)

theorem Feedback.visit_keeps {quantum now : Nat} (keeps : host.Keeps P)
    (lane : String × Direction) {scan : Scan ω} (hs : P scan.session) :
    P (visit host quantum now scan lane).session := by
  unfold visit
  dsimp only
  split
  · exact hs
  rename_i f hf
  split
  · exact hs
  split
  · exact hs
  have promoted := keeps.serve _ (promoteLane quantum now f lane.2 scan.session.core).1 rfl hs
  split
  · rename_i core hp
    rw [hp] at promoted
    exact promoted
  rename_i core i hp
  rw [hp] at promoted
  have held := keeps.serve _ _ (core.aside_holdBack lane.1 lane.2 i now) promoted
  split
  · rename_i core' wait hw
    rw [hw] at held
    exact held
  rename_i core' hw
  rw [hw] at held
  split
  · exact held
  · rename_i requests t hd
    obtain ⟨⟨_, c⟩, went, same⟩ := Option.map_eq_some_iff.mp hd
    obtain ⟨-, rfl⟩ := Prod.mk.inj same
    exact keeps.serve _ c (Core.aside_dispatch? went) (keeps.now _ held)

/-- What does not depend on the requests that are still to be handed over. -/
theorem Host.Keeps.carries (keeps : host.Keeps P) : host.Carries fun _ => P where
  now _ := keeps.now
  visit _ _ _ _ lane hs := Feedback.visit_keeps keeps lane hs
  select _ s _ _ := keeps.serve s _ rfl
  turn _ s q k now dispatched consumed :=
    keeps.serve s _ (Burst.aside_turn q k now dispatched consumed s.core)
  dispatch _ s _ _ _ _ _ _ _ c hs hd := keeps.serve s c (Core.aside_dispatch? hd) hs
  dispatchHead _ s _ _ _ c hs hd := keeps.serve s c (Core.aside_dispatchHead? hd) hs
  deliver requests _ _ k hs :=
    Session.deliver_keeps requests k keeps.handOver keeps.awaitRelease hs

/-- What is kept by whatever may happen during a call of a policy, the call keeps. -/
theorem Policy.schedule_keeps (keeps : host.Keeps P) (p : Policy) (limit : Nat) (hs : P s) :
    P (p.schedule host limit s).2.session :=
  p.schedule_carries keeps.carries limit hs

end IoScheduling
