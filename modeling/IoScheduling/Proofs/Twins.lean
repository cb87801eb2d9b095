import IoScheduling.Proofs.Resets
import IoScheduling.Proofs.Upkeep

/-! # Twins under one policy

Two sessions are twins if their cores differ only in what a reset clears and their worlds are
related. If the host treats twins alike, a policy that is called on both does the same on both: it
asks, dispatches, hands over and waits in the same order, and leaves twins behind. It never changes
the setup or the active policy either, so twins also stay at the post where they are. -/
namespace IoScheduling

variable {ω α : Type} {R : ω → ω → Prop} {p : Setup × PolicyKind} {host : Host ω}
  {s s' : Session ω}

/-- Two sessions at the post `p` that a policy cannot tell apart. -/
structure Session.Twins (R : ω → ω → Prop) (p : Setup × PolicyKind) (s s' : Session ω) : Prop where
  alike : s.core.Alike s'.core
  post : s.core.post = p
  world : R s.world s'.world

def Session.Answers (R : ω → ω → Prop) (p : Setup × PolicyKind) (x x' : α × Session ω) : Prop :=
  x.1 = x'.1 ∧ Session.Twins R p x.2 x'.2

theorem Session.Answers.split {x x' : α × Session ω} (h : Answers R p x x') :
    ∃ a t t', x = (a, t) ∧ x' = (a, t') ∧ Twins R p t t' := by
  obtain ⟨a, t⟩ := x
  obtain ⟨a', t'⟩ := x'
  obtain ⟨rfl, twins⟩ := h
  exact ⟨a, t, t', rfl, rfl, twins⟩

theorem Session.Answers.split? {o o' : Option (α × Session ω)} (h : Option.Rel (Answers R p) o o') :
    (o = none ∧ o' = none) ∨ ∃ a t t', o = some (a, t) ∧ o' = some (a, t') ∧ Twins R p t t' := by
  cases h with
  | none => exact .inl ⟨rfl, rfl⟩
  | some both =>
    obtain ⟨a, t, t', rfl, rfl, twins⟩ := both.split
    exact .inr ⟨a, t, t', rfl, rfl, twins⟩

structure Scheduled.Twins (R : ω → ω → Prop) (p : Setup × PolicyKind) (r r' : Scheduled ω) :
    Prop where
  outcome : r.outcome = r'.outcome
  finished : r.finished = r'.finished
  session : Session.Twins R p r.session r'.session

/-- The host shows related worlds the same time, and leaves twins as twins. -/
structure Host.Respects (host : Host ω) (R : ω → ω → Prop) (p : Setup × PolicyKind) : Prop where
  time : ∀ w w', R w w' → (host.clock w).1 = (host.clock w').1
  clock : ∀ w w', R w w' → R (host.clock w).2 (host.clock w').2
  busy : ∀ w w', R w w' → host.busy w = host.busy w'
  handOver : ∀ h s s', Session.Twins R p s s' →
    Session.Twins R p (host.handOver h s) (host.handOver h s')
  awaitRelease : ∀ s s', Session.Twins R p s s' →
    Session.Twins R p (host.awaitRelease s) (host.awaitRelease s')

namespace Session.Twins

theorem setup (h : Twins R p s s') : s'.core.setup = s.core.setup :=
  (congrArg Core.setup h.alike).symm

theorem replace (h : Twins R p s s') {c c' : Core} (alike : c.Alike c')
    (post : c.post = s.core.post) : Twins R p { s with core := c } { s' with core := c' } :=
  ⟨alike, post.trans h.post, h.world⟩

theorem now (h : Twins R p s s') (respects : host.Respects R p) :
    Answers R p (s.now host) (s'.now host) :=
  ⟨respects.time _ _ h.world, h.alike, h.post, respects.clock _ _ h.world⟩

theorem shouldYield (h : Twins R p s s') (respects : host.Respects R p) (deadline : Nat) :
    Answers R p (s.shouldYield host deadline) (s'.shouldYield host deadline) := by
  have done : s.core.isDone = s'.core.isDone := Core.Alike.same (fun _ => rfl) h.alike
  obtain ⟨time, twins⟩ := h.now respects
  unfold Session.shouldYield
  rw [← done]
  split
  · exact ⟨rfl, h⟩
  · exact ⟨congrArg (fun n => decide (deadline ≤ n)) time, twins⟩

theorem handOver (h : Twins R p s s') (respects : host.Respects R p) (requests : List Request) :
    Twins R p (s.handOver host requests) (s'.handOver host requests) := by
  unfold Session.handOver
  rw [h.setup]
  induction s.core.setup.callbacks.handovers requests generalizing s s' with
  | nil => exact h
  | cons call rest ih => exact ih (respects.handOver call s s' h)

theorem deliver (h : Twins R p s s') (respects : host.Respects R p) (requests : List Request)
    (k : PolicyKind) : Twins R p (s.deliver host requests k) (s'.deliver host requests k) := by
  have handed := h.handOver respects requests
  have waits : (s.handOver host requests).core.outstanding =
      (s'.handOver host requests).core.outstanding :=
    Core.Alike.same (q := Core.outstanding) (fun _ => rfl) handed.alike
  have stops : (s.handOver host requests).core.stopping =
      (s'.handOver host requests).core.stopping :=
    Core.Alike.same (q := Core.stopping) (fun _ => rfl) handed.alike
  unfold Session.deliver
  split
  · exact h
  · dsimp only
    rw [waits, stops]
    split
    · exact respects.awaitRelease _ _ handed
    · exact handed

theorem deliverAll (h : Twins R p s s') (respects : host.Respects R p)
    (ready : List (List Request)) (k : PolicyKind) :
    Twins R p (ready.foldl (fun s requests => s.deliver host requests k) s)
      (ready.foldl (fun s requests => s.deliver host requests k) s') := by
  induction ready generalizing s s' with
  | nil => exact h
  | cons requests rest ih => exact ih (h.deliver respects requests k)

theorem replace? (h : Twins R p s s') {o o' : Option (α × Core)}
    (rel : Option.Rel (fun x x' => x.1 = x'.1 ∧ x.2.Alike x'.2) o o')
    (post : ∀ a c, o = some (a, c) → c.post = s.core.post) :
    Option.Rel (Answers R p) (o.map fun (a, c) => (a, { s with core := c }))
      (o'.map fun (a, c) => (a, { s' with core := c })) := by
  cases rel with
  | none => exact .none
  | some both => exact .some ⟨both.1, h.replace both.2 (post _ _ rfl)⟩

theorem dispatch? (h : Twins R p s s') (respects : host.Respects R p) (file : String)
    (d : Direction) (i : Nat) (k : PolicyKind) (inQuantum : Bool) :
    Option.Rel (Answers R p) (s.dispatch? host file d i k inQuantum)
      (s'.dispatch? host file d i k inQuantum) := by
  obtain ⟨time, twins⟩ := h.now respects
  have rel := Core.Alike.dispatch? (s.now host).1 twins.alike file d i k inQuantum
  unfold Session.dispatch?
  dsimp only
  rw [← time]
  exact twins.replace? rel fun _ _ hd => Core.post_of_aside (Core.aside_dispatch? hd)

theorem dispatchHead? (h : Twins R p s s') (respects : host.Respects R p) (k : PolicyKind) :
    Option.Rel (Answers R p) (s.dispatchHead? host k) (s'.dispatchHead? host k) := by
  obtain ⟨time, twins⟩ := h.now respects
  have rel := Core.Alike.dispatchHead? (s.now host).1 twins.alike k
  unfold Session.dispatchHead?
  dsimp only
  rw [← time]
  exact twins.replace? rel fun _ _ hd => Core.post_of_aside (Core.aside_dispatchHead? hd)

theorem refreshDeadline (h : Twins R p s s') (now : Nat) :
    s.core.refreshDeadline now = s'.core.refreshDeadline now :=
  Core.Alike.same (q := fun c => c.refreshDeadline now) (fun _ => rfl) h.alike

end Session.Twins

open Session (Twins Answers)

theorem InOrder.loop_twins (respects : host.Respects R p) (k : PolicyKind) (deadline rounds : Nat)
    {dispatched : Nat} (h : Twins R p s s') :
    Scheduled.Twins R p (loop host k deadline rounds dispatched s)
      (loop host k deadline rounds dispatched s') := by
  induction rounds generalizing dispatched s s' with
  | zero => exact ⟨rfl, rfl, h⟩
  | succ rounds ih =>
    obtain ⟨yield, t, t', hy, hy', twins⟩ := (h.shouldYield respects deadline).split
    unfold loop
    rw [hy, hy']
    cases yield with
    | true => exact ⟨rfl, rfl, twins⟩
    | false =>
      dsimp only
      obtain ⟨hd, hd'⟩ | ⟨requests, u, u', hd, hd', twins⟩ :=
        Answers.split? (twins.dispatchHead? respects k) <;> rw [hd, hd']
      · exact ⟨rfl, rfl, twins⟩
      · exact ih (twins.deliver respects requests k)

theorem InOrder.schedule_twins (respects : host.Respects R p) (k : PolicyKind) (limit : Nat)
    (h : Twins R p s s') :
    Scheduled.Twins R p (schedule host k limit s) (schedule host k limit s') := by
  obtain ⟨now, t, t', hn, hn', twins⟩ := (h.now respects).split
  unfold schedule
  rw [hn, hn']
  dsimp only
  rw [← twins.refreshDeadline]
  exact loop_twins respects k _ limit twins

namespace Shortest

theorem serve_twins (respects : host.Respects R p) (k : PolicyKind) (choice : Choice)
    (batch dispatched : Nat) (h : Twins R p s s') :
    Answers R p (serve host k choice batch dispatched s)
      (serve host k choice batch dispatched s') := by
  induction batch generalizing dispatched s s' with
  | zero => exact ⟨rfl, h⟩
  | succ batch ih =>
    unfold serve
    obtain ⟨hd, hd'⟩ | ⟨requests, t, t', hd, hd', twins⟩ :=
      Answers.split? (h.dispatch? respects choice.file choice.direction 0 k false) <;> rw [hd, hd']
    · exact ⟨rfl, h⟩
    · have delivered := twins.deliver respects requests k
      have stops : (t.deliver host requests k).core.stopping =
          (t'.deliver host requests k).core.stopping :=
        Core.Alike.same (fun _ => rfl) delivered.alike
      dsimp only
      rw [← stops]
      split
      · exact ⟨rfl, delivered⟩
      · exact ih _ delivered

theorem loop_twins (respects : host.Respects R p) (k : PolicyKind) (deadline rounds : Nat)
    {dispatched : Nat} (h : Twins R p s s') :
    Scheduled.Twins R p (loop host k deadline rounds dispatched s)
      (loop host k deadline rounds dispatched s') := by
  induction rounds generalizing dispatched s s' with
  | zero => exact ⟨rfl, rfl, h⟩
  | succ rounds ih =>
    obtain ⟨yield, t, t', hy, hy', twins⟩ := (h.shouldYield respects deadline).split
    unfold loop
    rw [hy, hy']
    cases yield with
    | true => exact ⟨rfl, rfl, twins⟩
    | false =>
      have selected : select t.core.index = select t'.core.index :=
        Core.Alike.same (q := fun c => select c.index) (fun c => select_reset c.index) twins.alike
      dsimp only
      rw [← selected]
      cases select t.core.index with
      | none => exact ⟨rfl, rfl, twins⟩
      | some choice =>
        obtain ⟨n, u, u', hs, hs', twins⟩ := (serve_twins respects k choice
          (if k = .shortestRemaining then 1 else choice.entries) dispatched twins).split
        dsimp only
        rw [hs, hs']
        exact ih twins

theorem schedule_twins (respects : host.Respects R p) (k : PolicyKind) (limit : Nat)
    (h : Twins R p s s') :
    Scheduled.Twins R p (schedule host k limit s) (schedule host k limit s') := by
  obtain ⟨now, t, t', hn, hn', twins⟩ := (h.now respects).split
  unfold schedule
  rw [hn, hn']
  dsimp only
  rw [← twins.refreshDeadline]
  exact loop_twins respects k _ limit twins

end Shortest

theorem visitFrom_twins {visit : Nat → α × Session ω → α × Session ω} (first left step : Nat)
    (each : ∀ i x x', Answers R p x x' → Answers R p (visit i x) (visit i x'))
    {x x' : α × Session ω}
    (h : Answers R p x x') :
    Answers R p (visitFrom first visit left step x) (visitFrom first visit left step x') := by
  induction left generalizing step x x' with
  | zero => exact h
  | succ left ih =>
    obtain ⟨a, t, t', rfl, rfl, twins⟩ := h.split
    have next : t.core.index.nextActive? first step = t'.core.index.nextActive? first step :=
      Core.Alike.same (q := fun c => c.index.nextActive? first step)
        (fun c => c.index.nextActive?_resetTallies first step) twins.alike
    have step (i : Nat) : t.core.index.stepOf first i = t'.core.index.stepOf first i :=
      Core.Alike.same (q := fun c => c.index.stepOf first i) (fun _ => rfl) twins.alike
    unfold visitFrom
    rw [← next]
    cases t.core.index.nextActive? first _ with
    | none => exact h
    | some i =>
      dsimp only
      rw [← step]
      exact ih _ (each i _ _ ⟨rfl, twins⟩)

theorem visitBuckets_twins {visit : Nat → α × Session ω → α × Session ω} (first : Nat)
    (each : ∀ i x x', Answers R p x x' → Answers R p (visit i x) (visit i x'))
    {x x' : α × Session ω}
    (h : Answers R p x x') :
    Answers R p (visitBuckets first visit x) (visitBuckets first visit x') := by
  have size : x.2.core.index.size = x'.2.core.index.size :=
    Core.Alike.same (q := fun c => c.index.size) (fun _ => rfl) h.2.alike
  unfold visitBuckets
  rw [← size]
  exact visitFrom_twins first _ 0 each h

namespace PassThrough

theorem drainLane_twins (respects : host.Respects R p) (file : String) (d : Direction) (n : Nat)
    {x x' : List (List Request) × Session ω} (h : Answers R p x x') :
    Answers R p (drainLane host file d n x) (drainLane host file d n x') := by
  induction n generalizing x x' with
  | zero => exact h
  | succ n ih =>
    obtain ⟨ready, t, t', rfl, rfl, twins⟩ := h.split
    unfold drainLane
    obtain ⟨hd, hd'⟩ | ⟨requests, u, u', hd, hd', twins⟩ :=
      Answers.split? (twins.dispatch? respects file d 0 .passThrough false) <;> rw [hd, hd']
    · exact h
    · exact ih ⟨rfl, twins⟩

def drained (host : Host ω) (files : List FileState) (s : Session ω) :
    List (List Request) × Session ω :=
  (lanesOf files).foldl
    (fun x lane => drainLane host lane.1.file lane.2 (lane.1.lane lane.2).entries.length x) ([], s)

theorem drainBucket_eq (i : Nat) (s : Session ω) :
    drainBucket host i s =
      if (s.core.index.bucket i).pending = 0 then (0, s)
      else
        let x := drained host (s.core.index.bucket i).files s
        (x.1.length, x.1.foldl (fun s requests => s.deliver host requests .passThrough) x.2) := rfl

theorem drained_twins (respects : host.Respects R p) (h : Twins R p s s') {b b' : Bucket}
    (same : b.reset = b'.reset) :
    Answers R p (drained host b.files s) (drained host b'.files s') := by
  have each (lanes : List (FileState × Direction)) {x x' : List (List Request) × Session ω}
      (h : Answers R p x x') :
      Answers R p
        (lanes.foldl (fun x lane =>
          drainLane host lane.1.file lane.2 (lane.1.lane lane.2).entries.length x) x)
        (lanes.foldl (fun x lane =>
          drainLane host lane.1.file lane.2 (lane.1.lane lane.2).entries.length x) x') := by
    induction lanes generalizing x x' with
    | nil => exact h
    | cons lane rest ih => exact ih (drainLane_twins respects _ _ _ h)
  unfold drained
  rw [Index.foldl_lanesOf (b := b') (fun _ _ => ?_) same.symm]
  · exact each _ ⟨rfl, h⟩
  · dsimp only
    rw [FileState.lane_resetTallies]
    rfl

theorem drainBucket_twins (respects : host.Respects R p) (i : Nat) (h : Twins R p s s') :
    Answers R p (drainBucket host i s) (drainBucket host i s') := by
  have bucket := h.alike.bucket i
  have pending : (s.core.index.bucket i).pending = (s'.core.index.bucket i).pending :=
    (congrArg Bucket.pending bucket :)
  obtain ⟨ready, t, t', hd, hd', twins⟩ := (drained_twins respects h bucket).split
  rw [drainBucket_eq, drainBucket_eq, ← pending, hd, hd']
  split
  · exact ⟨rfl, h⟩
  · exact ⟨rfl, twins.deliverAll respects ready .passThrough⟩

theorem schedule_twins (respects : host.Respects R p) (h : Twins R p s s') :
    Scheduled.Twins R p (schedule host s) (schedule host s') := by
  have each (i : Nat) (x x' : Nat × Session ω) (hx : Answers R p x x') :
      Answers R p (visit host i x) (visit host i x') := by
    obtain ⟨same, twins⟩ := drainBucket_twins respects i hx.2
    exact ⟨congrArg₂ (· + ·) hx.1 same, twins⟩
  have visited : Answers R p (visitBuckets 0 (visit host) (0, s))
      (visitBuckets 0 (visit host) (0, s')) := visitBuckets_twins 0 each ⟨rfl, h⟩
  rw [schedule_eq, schedule_eq, visited.1]
  exact ⟨rfl, rfl, visited.2⟩

end PassThrough

namespace Feedback

variable (quantum now : Nat)

structure Scan.Twins (R : ω → ω → Prop) (p : Setup × PolicyKind) (x x' : Scan ω) : Prop where
  ready : x.ready = x'.ready
  wait : x.wait = x'.wait
  session : Session.Twins R p x.session x'.session

theorem promoteLane_alike {f f' : FileState} (same : f.resetTallies = f'.resetTallies)
    (d : Direction) {c c' : Core} (h : c.Alike c') :
    (promoteLane quantum now f d c).1.Alike (promoteLane quantum now f' d c').1 ∧
      (promoteLane quantum now f d c).2 = (promoteLane quantum now f' d c').2 := by
  have left := promoteLane_reset quantum now f d c
  have right := promoteLane_reset quantum now f' d c'
  rw [same, h, right] at left
  exact ⟨(Prod.mk.inj left).1.symm, (Prod.mk.inj left).2.symm⟩

theorem visit_twins (respects : host.Respects R p) (lane : String × Direction) {x x' : Scan ω}
    (h : Scan.Twins R p x x') :
    Scan.Twins R p (visit host quantum now x lane) (visit host quantum now x' lane) := by
  obtain ⟨file, d⟩ := lane
  obtain ⟨s, ready, wait⟩ := x
  obtain ⟨s', ready', wait'⟩ := x'
  have files := Core.Alike.file? h.session.alike file
  obtain ⟨rfl, rfl, twins⟩ := h
  unfold visit
  dsimp only at files ⊢
  generalize s.core.index.file? file = found at files
  generalize s'.core.index.file? file = found' at files
  cases files with
  | none => exact ⟨rfl, rfl, twins⟩
  | @some f f' same =>
    have cooling : f.cooldown? now = f'.cooldown? now :=
      (congrArg (fun f : FileState => f.cooldown? now) same :)
    have drained : (f.lane d).entries = (f'.lane d).entries := by
      have lane := congrArg (fun f : FileState => (f.lane d).entries) same
      rwa [FileState.lane_resetTallies, FileState.lane_resetTallies] at lane
    dsimp only
    rw [← drained, ← cooling]
    split
    · exact ⟨rfl, rfl, twins⟩
    split
    · exact ⟨rfl, rfl, twins⟩
    obtain ⟨c, c', first, hp, hp', promoted⟩ :=
      Core.Alike.split (promoteLane_alike quantum now same d twins.alike)
    have post : c.post = s.core.post := congrArg (fun q => q.1.post) hp.symm
    rw [hp, hp']
    cases first with
    | none => exact ⟨rfl, rfl, twins.replace promoted post⟩
    | some i =>
      have holds := Core.post_of_aside (c.aside_holdBack file d i now)
      obtain ⟨c₁, c₁', hold, hw, hw', held⟩ := Core.Alike.split (promoted.holdBack now file d i)
      rw [hw] at holds
      dsimp only
      rw [hw, hw']
      have twins := twins.replace held (holds.trans post)
      cases hold with
      | some left => exact ⟨rfl, rfl, twins⟩
      | none =>
        dsimp only
        obtain ⟨hd, hd'⟩ | ⟨requests, t, t', hd, hd', after⟩ :=
          Answers.split? (twins.dispatch? respects file d i .feedback false) <;> rw [hd, hd']
        · exact ⟨rfl, rfl, twins⟩
        · exact ⟨rfl, rfl, after⟩

theorem scanBucket_eq (i : Nat) (s : Session ω) :
    scanBucket host quantum now i s =
      if host.busy s.world i || (s.core.index.bucket i).pending == 0 then ⟨s, [], none⟩
      else ((lanesOf (s.core.index.bucket i).files).map fun lane => (lane.1.file, lane.2)).foldl
        (visit host quantum now) ⟨s, [], none⟩ := rfl

theorem scanBucket_twins (respects : host.Respects R p) (i : Nat) (h : Twins R p s s') :
    Scan.Twins R p (scanBucket host quantum now i s) (scanBucket host quantum now i s') := by
  have bucket := h.alike.bucket i
  have pending : (s.core.index.bucket i).pending = (s'.core.index.bucket i).pending :=
    (congrArg Bucket.pending bucket :)
  have each (lanes : List (FileState × Direction)) {x x' : Scan ω} (h : Scan.Twins R p x x') :
      Scan.Twins R p
        (lanes.foldl (fun x lane => visit host quantum now x (lane.1.file, lane.2)) x)
        (lanes.foldl (fun x lane => visit host quantum now x (lane.1.file, lane.2)) x') := by
    induction lanes generalizing x x' with
    | nil => exact h
    | cons lane rest ih => exact ih (visit_twins quantum now respects _ h)
  rw [scanBucket_eq, scanBucket_eq, ← pending, ← respects.busy _ _ h.world]
  split
  · exact ⟨rfl, rfl, h⟩
  · rw [List.foldl_map, List.foldl_map, Index.foldl_lanesOf (fun _ _ => rfl) bucket.symm]
    exact each _ ⟨rfl, rfl, h⟩

theorem round_twins (respects : host.Respects R p) (state : Feedback) (h : Twins R p s s') :
    Answers R p (state.round host s) (state.round host s') := by
  refine visitBuckets_twins state.cursor (fun i x x' hx => ?_) ⟨rfl, h⟩
  obtain ⟨outcome, t, t', rfl, rfl, twins⟩ := hx.split
  obtain ⟨now, u, u', hn, hn', twins⟩ := (twins.now respects).split
  have scanned := scanBucket_twins state.quantum now respects i twins
  dsimp only
  rw [hn, hn']
  dsimp only
  rw [← scanned.ready, ← scanned.wait]
  exact ⟨rfl, scanned.session.deliverAll respects _ .feedback⟩

theorem loop_twins (respects : host.Respects R p) (deadline rounds : Nat) {dispatched : Nat}
    {state : Feedback} (h : Twins R p s s') :
    (loop host deadline rounds dispatched state s).1 =
        (loop host deadline rounds dispatched state s').1 ∧
      Scheduled.Twins R p (loop host deadline rounds dispatched state s).2
        (loop host deadline rounds dispatched state s').2 := by
  induction rounds generalizing dispatched state s s' with
  | zero => exact ⟨rfl, rfl, rfl, h⟩
  | succ rounds ih =>
    obtain ⟨yield, t, t', hy, hy', twins⟩ := (h.shouldYield respects deadline).split
    unfold loop
    rw [hy, hy']
    cases yield with
    | true => exact ⟨rfl, rfl, rfl, twins⟩
    | false =>
      dsimp only
      obtain ⟨outcome, u, u', hr, hr', twins⟩ := (round_twins respects state twins).split
      have size : u.core.index.size = u'.core.index.size :=
        Core.Alike.same (q := fun c => c.index.size) (fun _ => rfl) twins.alike
      rw [hr, hr']
      dsimp only
      rw [← size]
      split
      · exact ⟨rfl, rfl, rfl, twins⟩
      · exact ih twins

theorem schedule_twins (respects : host.Respects R p) (state : Feedback) (limit : Nat)
    (h : Twins R p s s') :
    (state.schedule host limit s).1 = (state.schedule host limit s').1 ∧
      Scheduled.Twins R p (state.schedule host limit s).2 (state.schedule host limit s').2 := by
  obtain ⟨now, t, t', hn, hn', twins⟩ := (h.now respects).split
  unfold schedule
  rw [hn, hn']
  dsimp only
  rw [← twins.refreshDeadline]
  exact loop_twins respects _ limit twins

end Feedback

namespace Burst

theorem serve_twins (respects : host.Respects R p) (q : QuantumBounds) (k : Candidate)
    (rounds dispatched consumed : Nat) (h : Twins R p s s') :
    Scheduled.Twins R p (serve host q k rounds dispatched consumed s)
      (serve host q k rounds dispatched consumed s') := by
  induction rounds generalizing dispatched consumed s s' with
  | zero => exact ⟨rfl, rfl, h⟩
  | succ rounds ih =>
    have stops : s.core.stopping = s'.core.stopping := Core.Alike.same (fun _ => rfl) h.alike
    obtain ⟨now, t, t', hn, hn', twins⟩ := (h.now respects).split
    unfold serve
    rw [← stops, hn, hn']
    split
    · exact ⟨rfl, rfl, h⟩
    · obtain ⟨turned, c, c', ht, ht', alike⟩ :=
        Core.Alike.split_snd (turn_alike q k now dispatched consumed twins.alike)
      have post := Core.post_of_aside (aside_turn q k now dispatched consumed t.core)
      rw [ht] at post
      have twins := twins.replace alike post
      dsimp only
      rw [ht, ht']
      cases turned with
      | stop wait => exact ⟨rfl, rfl, twins⟩
      | dispatch =>
        dsimp only
        obtain ⟨hd, hd'⟩ | ⟨requests, u, u', hd, hd', twins⟩ :=
          Answers.split? (twins.dispatch? respects k.file k.direction 0 .aioli true) <;>
            rw [hd, hd']
        · exact ⟨rfl, rfl, twins⟩
        · dsimp only
          rw [twins.setup]
          exact ih _ _ (twins.deliver respects requests .aioli)

theorem select_alike (quantumBytes now : Nat) (h : Twins R p s s') :
    ∃ k wait x x', select quantumBytes now s.core.index = (k, wait, x) ∧
      select quantumBytes now s'.core.index = (k, wait, x') ∧
      Twins R p (s.mapCore fun c => { c with index := x })
        (s'.mapCore fun c => { c with index := x' }) := by
  have selected := select_reset s.core.index quantumBytes now
  have selected' := select_reset s'.core.index quantumBytes now
  have index : s.core.index.resetTallies = s'.core.index.resetTallies := congrArg Core.index h.alike
  rw [index, selected'] at selected
  generalize select quantumBytes now s.core.index = y at selected ⊢
  generalize select quantumBytes now s'.core.index = y' at selected ⊢
  obtain ⟨k, wait, x⟩ := y
  obtain ⟨k', wait', x'⟩ := y'
  obtain ⟨candidates, rest⟩ := Prod.mk.inj selected
  obtain ⟨waits, same⟩ := Prod.mk.inj rest
  obtain rfl : k = k' := candidates.symm
  obtain rfl : wait = wait' := waits.symm
  exact ⟨k, wait, x, x', rfl, rfl, h.replace (h.alike.setIndex same.symm) rfl⟩

theorem loop_twins (respects : host.Respects R p) (q : QuantumBounds)
    (limit deadline rounds : Nat) {dispatched : Nat} (h : Twins R p s s') :
    Scheduled.Twins R p (loop host q limit deadline rounds dispatched s)
      (loop host q limit deadline rounds dispatched s') := by
  induction rounds generalizing dispatched s s' with
  | zero => exact ⟨rfl, rfl, h⟩
  | succ rounds ih =>
    obtain ⟨yield, t, t', hy, hy', twins⟩ := (h.shouldYield respects deadline).split
    unfold loop
    rw [hy, hy']
    cases yield with
    | true => exact ⟨rfl, rfl, twins⟩
    | false =>
      dsimp only
      obtain ⟨now, u, u', hn, hn', twins⟩ := (twins.now respects).split
      obtain ⟨selected, wait, x, x', hs, hs', twins⟩ := select_alike q.quantumBytes now twins
      rw [hn, hn']
      dsimp only
      rw [hs, hs']
      cases selected with
      | none =>
        dsimp only
        split
        · exact ⟨rfl, rfl, twins⟩
        · exact ih twins
      | some k =>
        have served := serve_twins respects q k limit 0 0 twins
        dsimp only
        rw [← served.outcome, ← served.finished]
        split
        · exact ⟨rfl, rfl, served.session⟩
        · split
          · exact ⟨rfl, rfl, served.session⟩
          · exact ih served.session

theorem schedule_twins (respects : host.Respects R p) (q : QuantumBounds) (limit : Nat)
    (h : Twins R p s s') :
    Scheduled.Twins R p (schedule host q limit s) (schedule host q limit s') := by
  obtain ⟨now, t, t', hn, hn', twins⟩ := (h.now respects).split
  unfold schedule
  rw [hn, hn']
  dsimp only
  rw [← twins.refreshDeadline]
  exact loop_twins respects q limit _ limit twins

end Burst

/-- A policy does the same for twins, whichever policy it is, and leaves twins behind. -/
theorem Policy.schedule_twins (respects : host.Respects R p) (policy : Policy) (limit : Nat)
    (h : Twins R p s s') :
    (policy.schedule host limit s).1 = (policy.schedule host limit s').1 ∧
      Scheduled.Twins R p (policy.schedule host limit s).2 (policy.schedule host limit s').2 := by
  cases policy with
  | aioli q => exact ⟨rfl, Burst.schedule_twins respects q limit h⟩
  | feedback state =>
    obtain ⟨remembered, twins⟩ := Feedback.schedule_twins respects state limit h
    exact ⟨congrArg feedback remembered, twins⟩
  | shortestJob => exact ⟨rfl, Shortest.schedule_twins respects .shortestJob limit h⟩
  | shortestRemaining => exact ⟨rfl, Shortest.schedule_twins respects .shortestRemaining limit h⟩
  | timeOrder => exact ⟨rfl, InOrder.schedule_twins respects .timeOrder limit h⟩
  | timeOrderMerging => exact ⟨rfl, InOrder.schedule_twins respects .timeOrderMerging limit h⟩
  | timeWindow => exact ⟨rfl, InOrder.schedule_twins respects .timeWindow limit h⟩
  | passThrough => exact ⟨rfl, PassThrough.schedule_twins respects h⟩

end IoScheduling
