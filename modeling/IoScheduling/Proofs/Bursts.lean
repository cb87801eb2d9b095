import IoScheduling.Proofs.Exhaustion
import IoScheduling.Proofs.Selections
import IoScheduling.Proofs.Turns
import IoScheduling.Service.Checksum

/-! # The discipline of a burst

A burst either keeps its first head back or opens one grant, sends the heads of its lane one after
another while the grant lasts, and closes the grant when it ends. In between the caller's code
acknowledges what it has been handed; of a file that touches only the records and the use of the
grant. -/
namespace IoScheduling

inductive Core.Acknowledged (c : Core) : Core → Prop where
  | complete (now : Nat) (a : Address) : Acknowledged c (c.complete now a).1
  | noticed (work ack : Bool) : Acknowledged c { c with workSignal := work, ackSignal := ack }

/-- The caller's code does nothing but acknowledge requests. -/
structure Host.Acknowledges {ω : Type} (host : Host ω) : Prop where
  handOver : ∀ h s, Relation.ReflTransGen Core.Acknowledged s.core (host.handOver h s).core
  awaitRelease : ∀ s, Relation.ReflTransGen Core.Acknowledged s.core (host.awaitRelease s).core

theorem Host.prompt_acknowledges : prompt.Acknowledges where
  handOver h s := foldl_acknowledge (fun _ a => .complete 0 a) h.requests s
  awaitRelease _ := .refl

/-- The lane apart from its records and from how much of its grant has been used. -/
def Lane.settled (l : Lane) : Lane :=
  { l with handedOut := [], grant := { l.grant with used := 0 } }

def FileState.settled (f : FileState) : FileState :=
  { f with reads := f.reads.settled, writes := f.writes.settled }

namespace FileState

variable {f g : FileState}

theorem lane_settled (f : FileState) (d : Direction) : f.settled.lane d = (f.lane d).settled := by
  cases d <;> rfl

theorem unreleased_settled : Unreleased settled := by
  intro f d now
  cases d <;> rfl

theorem unrecorded_settled (f : FileState) (d : Direction) (hs : List HandedOut) :
    (f.setLane d { f.lane d with handedOut := hs }).settled = f.settled := by
  cases d <;> rfl

theorem lane_of_settled (same : g.settled = f.settled) (d : Direction) :
    (g.lane d).settled = (f.lane d).settled := by
  rw [← lane_settled, ← lane_settled, same]

theorem entries_of_settled (same : g.settled = f.settled) (d : Direction) :
    (g.lane d).entries = (f.lane d).entries := by
  have lanes := congrArg Lane.entries (lane_of_settled same d)
  exact lanes

theorem shift_of_settled (same : g.settled = f.settled) (d : Direction) :
    (g.lane d).shift = (f.lane d).shift := by
  have lanes := congrArg Lane.shift (lane_of_settled same d)
  exact lanes

theorem grant_of_settled (same : g.settled = f.settled) (d : Direction) :
    (g.lane d).grant = { (f.lane d).grant with used := (g.lane d).grant.used } := by
  have grants : { (g.lane d).grant with used := 0 } = { (f.lane d).grant with used := 0 } :=
    congrArg Lane.grant (lane_of_settled same d)
  exact congrArg (fun x : Grant => { x with used := (g.lane d).grant.used }) grants

/-- The head `e` of a lane of `f` has gone out, and its requests may have been acknowledged. -/
def Sends (d : Direction) (e : Entry) (f g : FileState) : Prop :=
  ∃ now, g.settled = (f.modifyLane d (·.sent 0 e now true true)).settled

namespace Sends

variable {d : Direction} {e : Entry} (h : Sends d e f g)

include h

theorem entries : (g.lane d).entries = (f.lane d).entries.tail := by
  obtain ⟨now, same⟩ := h
  rw [entries_of_settled same, lane_modifyLane, Lane.entries_sent, List.eraseIdx_zero]

theorem grant : (g.lane d).grant = { (f.lane d).grant with used := (g.lane d).grant.used } := by
  obtain ⟨now, same⟩ := h
  have grants := grant_of_settled same d
  rwa [lane_modifyLane, Lane.grant_sent] at grants

end Sends

end FileState

namespace Core

open Index (Reads)

variable {c c' : Core} {name : String} {f : FileState} {d : Direction}

theorem acknowledged_reads (calls : Relation.ReflTransGen Acknowledged c c') :
    Reads FileState.settled c.index c'.index := by
  induction calls with
  | refl => exact .refl _ c.index
  | tail _ call ih =>
    cases call with
    | complete now a =>
      exact ih.trans
        (complete_reads FileState.unreleased_settled FileState.unrecorded_settled _ now a)
    | noticed => exact ih

theorem acknowledged_leaves (calls : Relation.ReflTransGen Acknowledged c c') (h : c.InStep) :
    c'.InStep ∧ c'.setup = c.setup ∧ c'.stopping = c.stopping := by
  have quiet : Relation.ReflTransGen (Quiet ⟨False, False⟩) c c' := by
    refine Relation.ReflTransGen.mono (fun c c' call => ?_) _ _ calls
    cases call with
    | complete now a => exact .complete now a
    | noticed work ack => exact .noticed work ack
  obtain ⟨inStep, framed, -⟩ := quiet_leaves quiet h
  exact ⟨inStep, framed.setup, framed.running id⟩

theorem acknowledged_knows (calls : Relation.ReflTransGen Acknowledged c c') (h : c.InStep)
    (hf : c.index.file? name = some f) (marked : (f.lane d).shift.known = true) :
    ∃ g, c'.index.file? name = some g ∧ g.settled = f.settled := by
  have same := acknowledged_reads calls name
  rw [Index.fileOf_eq hf] at same
  have placed := (acknowledged_leaves calls h).1.index.placed
  rcases Index.fileOf_cases placed name with stored | fresh
  · have known := (Index.mem_files placed).mp stored
    rw [Index.file_fileOf] at known
    exact ⟨_, known, same⟩
  · have unmarked : (f.lane d).shift.known = false := by
      rw [← FileState.shift_of_settled same d, fresh]
      cases d <;> rfl
    rw [marked] at unmarked
    cases unmarked

end Core

namespace Session

variable {ω : Type} {host : Host ω} {s : Session (ω × List Handover)}

theorem handOver_recorded (acks : host.Acknowledges) (hs : List Handover) :
    let t := hs.foldl (fun s h => host.recorded.handOver h s) s
    t.world.2 = s.world.2 ++ hs ∧ Relation.ReflTransGen Core.Acknowledged s.core t.core := by
  induction hs generalizing s with
  | nil => exact ⟨(List.append_nil _).symm, .refl⟩
  | cons h rest ih =>
    obtain ⟨log, later⟩ := ih (s := host.recorded.handOver h s)
    have first : Relation.ReflTransGen Core.Acknowledged s.core
        (host.recorded.handOver h s).core := acks.handOver h ⟨s.core, s.world.1⟩
    refine ⟨log.trans ?_, first.trans later⟩
    exact List.append_assoc _ _ _

theorem deliver_recorded (acks : host.Acknowledges) (e : Entry) (k : PolicyKind) :
    let t := s.deliver host.recorded e.requests k
    t.world.2 = s.world.2 ++ s.core.setup.callbacks.handovers e.requests ∧
      Relation.ReflTransGen Core.Acknowledged s.core t.core := by
  have some_requests : e.requests.isEmpty = false := by cases e <;> rfl
  obtain ⟨log, calls⟩ :=
    handOver_recorded (s := s) acks (s.core.setup.callbacks.handovers e.requests)
  unfold deliver
  rw [some_requests, if_neg Bool.false_ne_true]
  dsimp only
  split
  · exact ⟨log, calls.trans (acks.awaitRelease ⟨_, _⟩)⟩
  · exact ⟨log, calls⟩

end Session

namespace Burst

def grantOf (c : Core) (k : Candidate) : Grant := ((c.index.fileOf k.file).lane k.direction).grant

def grants {ω : Type} (host : Host ω) (q : QuantumBounds) (k : Candidate) :
    (rounds dispatched consumed : Nat) → Session ω → List Grant
  | 0, _, _, _ => []
  | rounds + 1, dispatched, consumed, s =>
    if s.core.stopping then []
    else
      let (now, s) := s.now host
      match turn q k now dispatched consumed s.core with
      | (.stop _, core) => [grantOf core k]
      | (.dispatch, core) =>
        grantOf core k ::
          match { s with core := core }.dispatch? host k.file k.direction 0 .aioli true with
          | none => []
          | some (requests, s) =>
            let bytes := bytesOf requests
            let consumed := satAdd consumed (s.core.setup.accessTime bytes k.direction)
            grants host q k rounds (dispatched + 1) consumed (s.deliver host requests .aioli)

section

variable {ω : Type} {host : Host ω} {q : QuantumBounds} {k : Candidate}
  {rounds dispatched consumed : Nat} {s : Session ω} {c c' : Core}

theorem serve_stops {wait : Option Nat} (rounds : Nat) (running : s.core.stopping = false)
    (turned : turn q k (s.now host).1 dispatched consumed s.core = (.stop wait, c)) :
    serve host q k (rounds + 1) dispatched consumed s =
        ⟨⟨dispatched, wait⟩, ⟨c, (s.now host).2.world⟩, true⟩ ∧
      grants host q k (rounds + 1) dispatched consumed s = [grantOf c k] := by
  have same : turn q k (s.now host).1 dispatched consumed (s.now host).2.core =
      (.stop wait, c) := turned
  rw [serve, grants, running, if_neg Bool.false_ne_true, if_neg Bool.false_ne_true]
  dsimp only
  rw [same]
  exact ⟨rfl, rfl⟩

theorem serve_sends {requests : List Request} (rounds : Nat) (running : s.core.stopping = false)
    (turned : turn q k (s.now host).1 dispatched consumed s.core = (.dispatch, c))
    (went : c.dispatch? (host.clock (s.now host).2.world).1 k.file k.direction 0 .aioli true =
      some (requests, c')) :
    let s' : Session ω := ⟨c', (host.clock (s.now host).2.world).2⟩
    let t := s'.deliver host requests .aioli
    let spent := satAdd consumed (c'.setup.accessTime (bytesOf requests) k.direction)
    serve host q k (rounds + 1) dispatched consumed s =
        serve host q k rounds (dispatched + 1) spent t ∧
      grants host q k (rounds + 1) dispatched consumed s =
        grantOf c k :: grants host q k rounds (dispatched + 1) spent t := by
  have same : turn q k (s.now host).1 dispatched consumed (s.now host).2.core = (.dispatch, c) :=
    turned
  have sent : { (s.now host).2 with core := c }.dispatch? host k.file k.direction 0 .aioli true =
      some (requests, ⟨c', (host.clock (s.now host).2.world).2⟩) := by
    unfold Session.dispatch?
    dsimp only [Session.now] at went ⊢
    rw [went]
    rfl
  rw [serve, grants, running, if_neg Bool.false_ne_true, if_neg Bool.false_ne_true]
  dsimp only
  rw [same]
  dsimp only
  rw [sent]
  exact ⟨rfl, rfl⟩

end

/-- The rest of a burst, from the file as a later decision finds it. Between a dispatch and the next
decision the caller's code may acknowledge. -/
inductive Course (setup : Setup) (q : QuantumBounds) (d : Direction) :
    FileState → (consumed : Nat) → List Entry → Option Nat → List Grant → FileState → Prop where
  | stop {f g : FileState} {consumed now : Nat} {wait : Option Nat} :
      LaterTurn setup q d now consumed f (.stop wait) g →
      Course setup q d f consumed [] wait [(g.lane d).grant] g
  | send {f g g' f' : FileState} {consumed now : Nat} {e : Entry} {rest out : List Entry}
      {wait : Option Nat} {gs : List Grant} :
      (f.lane d).entries = e :: rest → LaterTurn setup q d now consumed f .dispatch g →
      g.Sends d e.promote g' →
      Course setup q d g' (satAdd consumed (setup.accessTime e.promote.bytes d)) out wait gs f' →
      Course setup q d f consumed (e.promote :: out) wait ((g.lane d).grant :: gs) f'

/-- The estimated time of entries that have gone out, on top of `consumed`. -/
def spent (setup : Setup) (d : Direction) (consumed : Nat) (out : List Entry) : Nat :=
  out.foldl (fun total e => satAdd total (setup.accessTime e.bytes d)) consumed

section

variable {setup : Setup} {q : QuantumBounds} {d : Direction} {now consumed : Nat}
  {f g f' : FileState} {e : Entry} {out : List Entry} {wait : Option Nat} {gs : List Grant}

theorem le_spent (word : consumed ≤ maxWord) (out : List Entry) :
    consumed ≤ spent setup d consumed out := by
  induction out generalizing consumed with
  | nil => exact le_rfl
  | cons e out ih => exact (le_satAdd word).trans (ih (satAdd_le_maxWord _ _))

theorem spent_exact (h : spent setup d consumed out < maxWord) :
    spent setup d consumed out = consumed + sumOf (fun e => setup.accessTime e.bytes d) out := by
  induction out generalizing consumed with
  | nil => rfl
  | cons e out ih =>
    have first : satAdd consumed (setup.accessTime e.bytes d) ≤
        spent setup d consumed (e :: out) := le_spent (satAdd_le_maxWord _ _) out
    have exact_first : satAdd consumed (setup.accessTime e.bytes d) =
        consumed + setup.accessTime e.bytes d := by
      have below : satAdd consumed (setup.accessTime e.bytes d) < maxWord := first.trans_lt h
      unfold satAdd at below ⊢
      omega
    calc spent setup d consumed (e :: out)
        = satAdd consumed (setup.accessTime e.bytes d) +
            sumOf (fun e => setup.accessTime e.bytes d) out := ih h
      _ = consumed + sumOf (fun e => setup.accessTime e.bytes d) (e :: out) := by
        rw [exact_first, Nat.add_assoc]
        rfl

theorem LaterTurn.stop_entries (h : LaterTurn setup q d now consumed f (.stop wait) g) :
    (g.lane d).entries = (f.lane d).entries.modify 0 Entry.promote := by
  cases h with
  | emptied empty =>
    rw [FileState.lane_modifyLane, empty]
    exact empty
  | spent | early =>
    rw [FileState.lane_modifyLane, FileState.lane_modifyLane]
    rfl
  | held =>
    rw [FileState.lane_modifyLane, FileState.lane_arm, FileState.lane_modifyLane]
    rfl

theorem LaterTurn.stop_grant (h : LaterTurn setup q d now consumed f (.stop wait) g) :
    (g.lane d).grant = { (f.lane d).grant with
      next := nextQuantum (f.lane d).grant.granted (f.lane d).grant.used q.least q.greatest } := by
  cases h with
  | emptied => rw [FileState.lane_modifyLane]; rfl
  | spent | early => rw [FileState.lane_modifyLane, FileState.lane_modifyLane]; rfl
  | held => rw [FileState.lane_modifyLane, FileState.lane_arm, FileState.lane_modifyLane]; rfl

theorem LaterTurn.sends_some (h : LaterTurn setup q d now consumed f .dispatch g) :
    ∃ e rest, (f.lane d).entries = e :: rest := by
  cases h with
  | sends head => exact ⟨_, List.head?_eq_some_iff.mp head⟩

theorem LaterTurn.sends_head (h : LaterTurn setup q d now consumed f .dispatch g)
    {rest : List Entry} (queue : (f.lane d).entries = e :: rest) :
    (g.lane d).entries = e.promote :: rest ∧ (g.lane d).grant = (f.lane d).grant ∧
      e.promote.eligible q.quantumBytes ∧ consumed < (f.lane d).grant.granted := by
  cases h with
  | sends head ripe less =>
    rw [queue, List.head?_cons] at head
    obtain rfl := Option.some.inj head
    rw [FileState.lane_modifyLane, promoteHead, queue]
    exact ⟨rfl, rfl, ripe, less⟩

namespace Course

variable (h : Course setup q d f consumed out wait gs f')

include h

theorem entries : out = ((f.lane d).entries.take out.length).map Entry.promote ∧
    (f'.lane d).entries = ((f.lane d).entries.drop out.length).modify 0 Entry.promote := by
  induction h with
  | stop turned => exact ⟨rfl, turned.stop_entries⟩
  | @send f g g' f' consumed now e rest out wait gs queue turned sends _ ih =>
    obtain ⟨passed, -⟩ := turned.sends_head queue
    rw [sends.entries, passed, List.tail_cons] at ih
    rw [queue]
    exact ⟨congrArg (e.promote :: ·) ih.1, ih.2⟩

theorem eligible : ∀ e ∈ out, e.eligible q.quantumBytes := by
  induction h with
  | stop => exact fun e he => absurd he List.not_mem_nil
  | send queue turned _ _ ih =>
    obtain ⟨-, -, ripe, -⟩ := turned.sends_head queue
    exact List.forall_mem_cons.mpr ⟨ripe, ih⟩

theorem budget : ∀ i < out.length,
    spent setup d consumed (out.take i) < (f.lane d).grant.granted := by
  induction h with
  | stop => exact fun i less => absurd less (Nat.not_lt_zero i)
  | @send f g g' f' consumed now e rest out wait gs queue turned sends _ ih =>
    obtain ⟨-, same, -, less⟩ := turned.sends_head queue
    have granted : (g'.lane d).grant.granted = (f.lane d).grant.granted := by
      rw [sends.grant, same]
    intro i shorter
    cases i with
    | zero => exact less
    | succ i =>
      rw [← granted]
      exact ih i (Nat.lt_of_succ_lt_succ shorter)

theorem closes : ∃ (uses : List Nat) (used : Nat), uses.length = out.length ∧
    (f'.lane d).grant = { (f.lane d).grant with
      used := used
      next := nextQuantum (f.lane d).grant.granted used q.least q.greatest } ∧
    gs = uses.map (fun used => { (f.lane d).grant with used := used }) ++ [(f'.lane d).grant] := by
  induction h with
  | @stop f g _ _ _ turned => exact ⟨[], (f.lane d).grant.used, rfl, turned.stop_grant, rfl⟩
  | @send f g g' f' consumed now e rest out wait gs queue turned sends _ ih =>
    obtain ⟨uses, used, count, last, all⟩ := ih
    obtain ⟨-, same, -⟩ := turned.sends_head queue
    have grant : (g'.lane d).grant =
        { (f.lane d).grant with used := (g'.lane d).grant.used } := by
      rw [← same]
      exact sends.grant
    refine ⟨(f.lane d).grant.used :: uses, used, congrArg (· + 1) count, ?_, ?_⟩
    · rw [last, grant]
    · rw [same, all, grant]
      rfl

end Course

end

section

variable {ω : Type} {host : Host ω} {q : QuantumBounds} {k : Candidate}
  {rounds dispatched consumed : Nat} {s s' : Session (ω × List Handover)} {c : Core}
  {f g : FileState} {e : Entry}

structure Sent (k : Candidate) (c : Core) (g : FileState) (e : Entry) (log : List Handover)
    (s : Session (ω × List Handover)) : Prop where
  inStep : s.core.InStep
  setup : s.core.setup = c.setup
  stopping : s.core.stopping = c.stopping
  file : ∃ g', s.core.index.file? k.file = some g' ∧ g.Sends k.direction e g'
  log : s.world.2 = log ++ c.setup.callbacks.handovers e.requests

theorem serve_goes_on (acks : host.Acknowledges) (rounds : Nat) (running : s.core.stopping = false)
    (turned : turn q k (s.now host.recorded).1 dispatched consumed s.core = (.dispatch, c))
    (h : c.InStep) (hf : c.index.file? k.file = some g)
    (head : (g.lane k.direction).entries.head? = some e) :
    ∃ s', Sent k c g e s.world.2 s' ∧
      let spent := satAdd consumed (c.setup.accessTime e.bytes k.direction)
      serve host.recorded q k (rounds + 1) dispatched consumed s =
          serve host.recorded q k rounds (dispatched + 1) spent s' ∧
        grants host.recorded q k (rounds + 1) dispatched consumed s =
          (g.lane k.direction).grant ::
            grants host.recorded q k rounds (dispatched + 1) spent s' := by
  obtain ⟨c', went, alters⟩ := Core.dispatch?_alters h hf (List.head?_eq_getElem? ▸ head)
    (host.recorded.clock (s.now host.recorded).2.world).1 .aioli true
  have inStep : c'.InStep := (Core.dispatch?_effect h went).inStep
  have sends := serve_sends rounds running turned went
  generalize hs' : (⟨c', (host.recorded.clock (s.now host.recorded).2.world).2⟩ :
    Session (ω × List Handover)) = s' at sends
  have core : s'.core = c' := by rw [← hs']
  have world : s'.world.2 = s.world.2 := by rw [← hs']; rfl
  obtain ⟨log, calls⟩ := Session.deliver_recorded (s := s') acks e .aioli
  rw [core] at calls log
  obtain ⟨after, setup, stopping⟩ := Core.acknowledged_leaves calls inStep
  have marked : ((g.modifyLane k.direction (·.sent 0 e
      (host.recorded.clock (s.now host.recorded).2.world).1 true true)).lane
        k.direction).shift.known = true := by
    rw [FileState.lane_modifyLane]
    rfl
  obtain ⟨g', here, same⟩ := Core.acknowledged_knows calls inStep alters.here marked
  dsimp only at sends
  rw [grantOf, Index.fileOf_eq hf, alters.setup] at sends
  refine ⟨_, ⟨after, setup.trans alters.setup, stopping.trans alters.stopping,
    ⟨g', here, _, same⟩, ?_⟩, sends⟩
  rw [log, world, alters.setup]

theorem serve_course (acks : host.Acknowledges) (q : QuantumBounds) (consumed : Nat)
    (h : s.core.InStep) (running : s.core.stopping = false) (hf : s.core.index.file? k.file = some f)
    (later : dispatched ≠ 0) (enough : (f.lane k.direction).entries.length < rounds) :
    ∃ out wait t f', serve host.recorded q k rounds dispatched consumed s =
        ⟨⟨dispatched + out.length, wait⟩, t, true⟩ ∧
      Course s.core.setup q k.direction f consumed out wait
        (grants host.recorded q k rounds dispatched consumed s) f' ∧
      t.core.index.file? k.file = some f' ∧
      t.world.2 = s.world.2 ++
        out.flatMap fun e => s.core.setup.callbacks.handovers e.requests := by
  induction rounds generalizing dispatched consumed s f with
  | zero => exact absurd enough (Nat.not_lt_zero _)
  | succ rounds ih =>
    obtain ⟨t, g, c, turned, decided, alters⟩ :=
      turn_later hf q (s.now host.recorded).1 consumed later
    cases t with
    | stop wait =>
      obtain ⟨served, granted⟩ := serve_stops rounds running turned
      refine ⟨[], wait, _, g, served, ?_, alters.here, (List.append_nil _).symm⟩
      rw [granted, grantOf, Index.fileOf_eq alters.here]
      exact .stop decided
    | dispatch =>
      have promotes := Core.turn_promotes h q k (s.now host.recorded).1 dispatched consumed
      rw [turned] at promotes
      obtain ⟨e, rest, queue⟩ := decided.sends_some
      obtain ⟨passed, -⟩ := decided.sends_head queue
      obtain ⟨s', sent, served, granted⟩ := serve_goes_on acks rounds running turned
        promotes.inStep alters.here (e := e.promote) (by rw [passed, List.head?_cons])
      obtain ⟨g', here, sends⟩ := sent.file
      have setup : s'.core.setup = s.core.setup := sent.setup.trans alters.setup
      have still_running : s'.core.stopping = false :=
        sent.stopping.trans (alters.stopping.trans running)
      have fewer : (g'.lane k.direction).entries.length < rounds := by
        rw [queue] at enough
        rw [sends.entries, passed]
        exact Nat.lt_of_succ_lt_succ enough
      obtain ⟨out, wait, t, f', ends, course, here', log⟩ :=
        ih (satAdd consumed (s.core.setup.accessTime e.promote.bytes k.direction)) sent.inStep
          still_running here (Nat.succ_ne_zero dispatched) fewer
      rw [setup] at course log
      rw [alters.setup] at served granted
      refine ⟨e.promote :: out, wait, t, f', ?_, ?_, here', ?_⟩
      · rw [served, ends, Nat.succ_add]
        rfl
      · rw [granted]
        exact .send queue decided sends course
      · rw [log, sent.log, alters.setup, List.flatMap_cons, List.append_assoc]

/-- A burst keeps its first head `e` back for the time `w`, and opens no grant. -/
structure KeptBack (k : Candidate) (now : Nat) (f : FileState) (e : Entry) (w : Nat)
    (r : Scheduled (ω × List Handover)) (gs : List Grant) : Prop where
  head : (f.lane k.direction).entries.head? = some e
  outcome : r.outcome = ⟨0, some w⟩
  pos : 0 < w
  armed : r.session.core.index.file? k.file = some (f.arm e w now)
  silent : r.session.world.2 = []
  ungranted : gs = [(f.lane k.direction).grant]

/-- A burst that begins with the file `f` sends the entry `e` and `later` ones under the one grant
`granted`, of which `used` was used when the burst left the file as `f'`. -/
structure Conducted (setup : Setup) (q : QuantumBounds) (k : Candidate) (now : Nat)
    (f f' : FileState) (e : Entry) (later : List Entry) (granted used : Nat)
    (r : Scheduled (ω × List Handover)) (gs : List Grant) : Prop where
  head : (f.lane k.direction).entries.head? = some e
  order : later = ((f.lane k.direction).entries.tail.take later.length).map Entry.promote
  dispatched : r.outcome.dispatched = later.length + 1
  handed : r.session.world.2 = (e :: later).flatMap fun x => setup.callbacks.handovers x.requests
  eligible : ∀ x ∈ e :: later, x.length ≤ x.factor * q.quantumBytes
  opened : granted =
    if (f.lane k.direction).grant.next = 0 then q.least else (f.lane k.direction).grant.next
  within : q.least ≤ granted ∧ granted ≤ q.greatest
  /-- Before each later dispatch, the entries that have gone out are estimated to take less time
  than is granted. -/
  budget : ∀ n, 0 < n → n ≤ later.length →
    sumOf (fun x => setup.accessTime x.bytes k.direction) ((e :: later).take n) < granted
  file : r.session.core.index.file? k.file = some f'
  left : (f'.lane k.direction).entries =
    ((f.lane k.direction).entries.tail.drop later.length).modify 0 Entry.promote
  closed : (f'.lane k.direction).grant =
    ⟨nextQuantum granted used q.least q.greatest, granted, used, now⟩
  /-- No decision but the last one sets the next grant. -/
  once : ∃ uses : List Nat, uses.length = later.length + 1 ∧
    gs = uses.map (fun used => ⟨(f.lane k.direction).grant.next, granted, used, now⟩) ++
      [(f'.lane k.direction).grant]
  next_within : q.least ≤ (f'.lane k.direction).grant.next ∧
    (f'.lane k.direction).grant.next ≤ q.greatest
  next_near : max q.least (granted / 2) ≤ (f'.lane k.direction).grant.next ∧
    (f'.lane k.direction).grant.next ≤ min q.greatest (2 * granted)

theorem serve_keeps_back (rounds : Nat) (running : s.core.stopping = false)
    (silent : s.world.2 = []) {e : Entry} {w : Nat}
    (turned : turn q k (s.now host.recorded).1 0 0 s.core = (.stop (some w), c))
    (reason : f.holdback? s.core.setup k.direction 0 (s.now host.recorded).1 = some (e, w))
    (arms : Core.Alters s.core c k.file (f.arm e w (s.now host.recorded).1)) :
    (serve host.recorded q k (rounds + 1) 0 0 s).finished = true ∧
      KeptBack k (s.now host.recorded).1 f e w (serve host.recorded q k (rounds + 1) 0 0 s)
        (grants host.recorded q k (rounds + 1) 0 0 s) := by
  obtain ⟨-, pos, head⟩ := FileState.holdback?_some reason
  obtain ⟨served, granted⟩ := serve_stops rounds running turned
  rw [served, granted]
  refine ⟨rfl, ?_⟩
  constructor
  case head => rw [List.head?_eq_getElem?, head]
  case outcome => rfl
  case pos => exact pos
  case armed => exact arms.here
  case silent => exact silent
  case ungranted => rw [grantOf, Index.fileOf_eq arms.here, FileState.lane_arm]

theorem Course.conducted {setup : Setup} {now granted u : Nat} {f' : FileState}
    {rest later : List Entry} {wait : Option Nat} {gs : List Grant}
    {r : Scheduled (ω × List Handover)} (ordered : q.Ordered)
    (queue : (f.lane k.direction).entries = e :: rest) (ripe : e.eligible q.quantumBytes)
    (opened : granted =
      if (f.lane k.direction).grant.next = 0 then q.least else (f.lane k.direction).grant.next)
    (within : q.least ≤ granted ∧ granted ≤ q.greatest)
    (left : (g.lane k.direction).entries = rest)
    (grant : (g.lane k.direction).grant = ⟨(f.lane k.direction).grant.next, granted, u, now⟩)
    (course : Course setup q k.direction g (satAdd 0 (setup.accessTime e.bytes k.direction)) later
      wait gs f')
    (dispatched : r.outcome.dispatched = 1 + later.length)
    (handed : r.session.world.2 =
      (e :: later).flatMap fun x => setup.callbacks.handovers x.requests)
    (file : r.session.core.index.file? k.file = some f') :
    ∃ used, Conducted setup q k now f f' e later granted used r
      (⟨(f.lane k.direction).grant.next, granted, 0, now⟩ :: gs) := by
  obtain ⟨order, remaining⟩ := course.entries
  obtain ⟨uses, used, count, closed, all⟩ := course.closes
  rw [left] at order remaining
  rw [grant] at closed all
  refine ⟨used, ?_⟩
  constructor
  case head => rw [queue, List.head?_cons]
  case order => rwa [queue, List.tail_cons]
  case dispatched => exact dispatched.trans (Nat.add_comm 1 _)
  case handed => exact handed
  case eligible =>
    intro x hx
    have large : x.eligible q.quantumBytes := by
      rcases List.mem_cons.mp hx with rfl | hx
      · exact ripe
      · exact course.eligible x hx
    exact (of_decide_eq_true large).trans (Nat.min_le_left _ _)
  case opened => exact opened
  case within => exact within
  case budget =>
    intro n pos le
    obtain ⟨i, rfl⟩ := Nat.exists_eq_add_one_of_ne_zero pos.ne'
    have below : spent setup k.direction 0 ((e :: later).take (i + 1)) < granted := by
      have below := course.budget i le
      rwa [grant] at below
    rw [spent_exact (below.trans_le (within.2.trans ordered.word)), Nat.zero_add] at below
    exact below
  case file => exact file
  case left => rw [remaining, queue, List.tail_cons]
  case closed => exact closed
  case once =>
    refine ⟨0 :: uses, congrArg (· + 1) count, ?_⟩
    rw [all]
    rfl
  case next_within =>
    rw [closed]
    exact nextQuantum_within ordered.le granted used
  case next_near =>
    rw [closed]
    exact nextQuantum_near ordered within.1 within.2 used

theorem serve_opens (acks : host.Acknowledges) (ordered : q.Ordered) (h : s.core.InStep)
    (running : s.core.stopping = false) (silent : s.world.2 = []) {rest : List Entry}
    (queue : (f.lane k.direction).entries = e :: rest) (ripe : e.eligible q.quantumBytes)
    (allowed : q.Allows (f.lane k.direction).grant.next)
    (enough : (f.lane k.direction).entries.length < rounds + 1)
    (turned : turn q k (s.now host.recorded).1 0 0 s.core = (.dispatch, c))
    (opens : Core.Alters s.core c k.file
      (f.modifyLane k.direction (openGrant q (s.now host.recorded).1))) :
    (serve host.recorded q k (rounds + 1) 0 0 s).finished = true ∧
      ∃ f' later granted used, Conducted s.core.setup q k (s.now host.recorded).1 f f' e later
        granted used (serve host.recorded q k (rounds + 1) 0 0 s)
        (grants host.recorded q k (rounds + 1) 0 0 s) := by
  have promotes := Core.turn_promotes h q k (s.now host.recorded).1 0 0
  rw [turned] at promotes
  obtain ⟨granted, hg⟩ : ∃ granted, granted = if (f.lane k.direction).grant.next = 0 then q.least
    else (f.lane k.direction).grant.next := ⟨_, rfl⟩
  have opened := f.lane_modifyLane k.direction (openGrant q (s.now host.recorded).1)
  have grant : (openGrant q (s.now host.recorded).1 (f.lane k.direction)).grant =
      ⟨(f.lane k.direction).grant.next, granted, 0, (s.now host.recorded).1⟩ := by
    rw [hg]
    rfl
  -- The first head goes out.
  have head : ((f.modifyLane k.direction (openGrant q (s.now host.recorded).1)).lane
      k.direction).entries.head? = some e := by
    rw [opened]
    exact congrArg List.head? queue
  obtain ⟨s', sent, served, first⟩ := serve_goes_on acks rounds running turned
    promotes.inStep opens.here head
  obtain ⟨g, here, sends⟩ := sent.file
  rw [opens.setup, Nat.zero_add] at served first
  have left : (g.lane k.direction).entries = rest := by
    rw [sends.entries, opened]
    exact congrArg List.tail queue
  have still : (g.lane k.direction).grant = ⟨(f.lane k.direction).grant.next, granted,
      (g.lane k.direction).grant.used, (s.now host.recorded).1⟩ := by
    have same := sends.grant
    rwa [opened, grant] at same
  -- From there the burst takes its course.
  have fewer : (g.lane k.direction).entries.length < rounds := by
    rw [queue] at enough
    rw [left]
    exact Nat.lt_of_succ_lt_succ enough
  obtain ⟨later, wait, t, f', ends, course, there, log⟩ := serve_course acks q
    (satAdd 0 (s.core.setup.accessTime e.bytes k.direction)) sent.inStep
    (sent.stopping.trans (opens.stopping.trans running)) here one_ne_zero fewer
  rw [sent.setup, opens.setup] at course log
  have handed : t.world.2 =
      (e :: later).flatMap fun x => s.core.setup.callbacks.handovers x.requests := by
    rw [log, sent.log, silent, opens.setup, List.nil_append, List.flatMap_cons]
  rw [served, ends, first, opened, grant]
  obtain ⟨used, conducted⟩ := course.conducted (r := ⟨⟨1 + later.length, wait⟩, t, true⟩) ordered
    queue ripe hg (hg ▸ allowed.opened ordered) left still rfl handed there
  exact ⟨rfl, f', later, granted, used, conducted⟩

theorem serve_conducted (acks : host.Acknowledges) (ordered : q.Ordered) (h : s.core.InStep)
    (running : s.core.stopping = false) (silent : s.world.2 = [])
    (hf : s.core.index.file? k.file = some f) {rest : List Entry}
    (queue : (f.lane k.direction).entries = e :: rest) (ripe : e.eligible q.quantumBytes)
    (allowed : q.Allows (f.lane k.direction).grant.next)
    (enough : (f.lane k.direction).entries.length < rounds) :
    (serve host.recorded q k rounds 0 0 s).finished = true ∧
      ((∃ e w, KeptBack k (s.now host.recorded).1 f e w (serve host.recorded q k rounds 0 0 s)
          (grants host.recorded q k rounds 0 0 s)) ∨
        ∃ f' e later granted used, Conducted s.core.setup q k (s.now host.recorded).1 f f' e later
          granted used (serve host.recorded q k rounds 0 0 s)
          (grants host.recorded q k rounds 0 0 s)) := by
  cases rounds with
  | zero => exact absurd enough (Nat.not_lt_zero _)
  | succ rounds =>
    have used : (f.lane k.direction).entries ≠ [] := by
      rw [queue]
      exact List.cons_ne_nil e rest
    obtain ⟨t, g, c, turned, decided, alters⟩ := turn_first hf used q (s.now host.recorded).1 0
    cases decided with
    | @held e' w reason =>
      obtain ⟨finished, kept⟩ := serve_keeps_back rounds running silent turned reason alters
      exact ⟨finished, .inl ⟨e', w, kept⟩⟩
    | opens =>
      obtain ⟨finished, f', later, granted, used, conducted⟩ :=
        serve_opens acks ordered h running silent queue ripe allowed enough turned alters
      exact ⟨finished, .inr ⟨f', e, later, granted, used, conducted⟩⟩

end

end Burst

theorem Config.accessTime_le_maxWord (config : Config) (bytes : Nat) (d : Direction) :
    config.accessTime bytes d ≤ maxWord := satAdd_le_maxWord _ _

namespace System

variable {ω : Type} {host : Host ω}

/-- After any calls and steps of the policies, serve the lane that a selection has found, in more
rounds than it has entries. If the caller's code does nothing but acknowledge, the burst keeps the
head back for a while, or it opens one grant, sends heads while the grant lasts, and sets the next
grant from it, once. -/
theorem run_conducts_bursts (setup : Setup) (word : ∀ bytes d, setup.accessTime bytes d ≤ maxWord)
    {ops : List Operation} (sanctioned : ∀ op ∈ ops, op.Sanctioned setup)
    (acks : host.Acknowledges) (world : ω) (now rounds : Nat) (k : Burst.Candidate) :
    let c := ((start setup).performAll ops).core
    let q : QuantumBounds := .of setup.config setup.accessTime
    let x := (Burst.select q.quantumBytes now c.index).2.2
    let f := x.fileOf k.file
    let s : Session (ω × List Handover) := ⟨{ c with index := x }, world, []⟩
    let r := Burst.serve host.recorded q k rounds 0 0 s
    let gs := Burst.grants host.recorded q k rounds 0 0 s
    let begun := (host.clock world).1
    c.stopping = false → (Burst.select q.quantumBytes now c.index).1 = some k →
      (f.lane k.direction).entries.length < rounds →
      r.finished = true ∧ ((∃ e w, Burst.KeptBack k begun f e w r gs) ∨
        ∃ f' e later granted used,
          Burst.Conducted setup q k begun f f' e later granted used r gs) := by
  intro c q x f s r gs begun running selected enough
  have kept : ((start setup).performAll ops).Kept setup :=
    (performAll_aging (aging_start setup) ops).kept
  have sanctioned' : (Operation.select q.quantumBytes now).Sanctioned setup := trivial
  have kept' := perform_kept kept (.select q.quantumBytes now)
  have inStep : s.core.InStep := kept'.inStep
  have same : s.core.setup = setup := kept'.setup_eq
  have granted := performAll_granted (kept_start setup) sanctioned (granted_start setup _)
  have allowed : q.Allows (f.lane k.direction).grant.next :=
    perform_granted kept.inStep sanctioned' granted k.file k.direction
  -- What the selection has found is eligible now that it has been passed.
  have selection := Burst.select_selection kept.inStep q.quantumBytes now
  obtain ⟨⟨awake, e, head, ripe, -⟩, -⟩ := (selection.oldest k).mp selected
  obtain ⟨rest, queue⟩ := List.head?_eq_some_iff.mp head
  have passed : (f.lane k.direction).entries = e.promote :: rest := by
    rw [show f.lane k.direction = _ from selection.passed k.file k.direction awake, queue]
    rfl
  have hf : s.core.index.file? k.file = some f := by
    cases known : x.file? k.file with
    | none =>
      have empty : (f.lane k.direction).entries = [] := Core.lane_unknown (c := s.core) known
      rw [passed] at empty
      cases empty
    | some g => exact congrArg some (Index.fileOf_eq known).symm
  have conducted := Burst.serve_conducted (s := s) acks (QuantumBounds.ordered_of setup.config word)
    inStep running rfl hf passed ripe allowed enough
  rwa [same] at conducted

/-- A burst finds two reads that lie apart. -/
theorem conducts_burst_of_two :
    let setup : Setup := .of .defaults .one 1
    let ops : List Operation := [.act (.migrate .aioli), .act (.submit 0 ⟨"a", .read, 0, 8, 0, 0⟩),
      .act (.submit 1 ⟨"a", .read, 64, 8, 0, 0⟩)]
    let c := ((start setup).performAll ops).core
    let q : QuantumBounds := .of setup.config setup.accessTime
    let x := (Burst.select q.quantumBytes 2 c.index).2.2
    let k : Burst.Candidate := ⟨0, "a", .read⟩
    let f := x.fileOf k.file
    let s : Session (Unit × List Handover) := ⟨{ c with index := x }, (), []⟩
    let r := Burst.serve Host.prompt.recorded q k 3 0 0 s
    let gs := Burst.grants Host.prompt.recorded q k 3 0 0 s
    r.finished = true ∧ ((∃ e w, Burst.KeptBack k 0 f e w r gs) ∨
      ∃ f' e later granted used, Burst.Conducted setup q k 0 f f' e later granted used r gs) :=
  run_conducts_bursts (.of .defaults .one 1) (Config.accessTime_le_maxWord _)
    (by simp [Operation.Sanctioned]) Host.prompt_acknowledges () 2 3 _ (by decide +kernel)
    (by decide +kernel) (by decide +kernel)

end System

end IoScheduling
