import IoScheduling.Proofs.Hosts
import IoScheduling.Service.Checksum

/-! # Dispatches in the order of offsets

The policies of the bucketed index take a place in a lane and know nothing of offsets. That the
entry at this place has the smallest offset of all that may go out rests on the order of the lane,
which whatever happens before keeps. What a policy does in the course of a call is a list of deeds;
each dispatch among them comes with the core as it was just before. -/
namespace IoScheduling

def Core.lane (c : Core) (file : String) (d : Direction) : List Entry :=
  ((c.index.fileOf file).lane d).entries

structure Dispatch where
  /-- The core just before. -/
  before : Core
  entry : Entry

/-- Of the entries of its file and direction that may go out, the one dispatched comes first, and
its requests come in order and without a gap. -/
structure Dispatch.InTurn (may : Entry → Prop) (x : Dispatch) : Prop where
  pending : x.entry ∈ x.before.entryBag
  fit : may x.entry
  first : ∀ o ∈ x.before.entryBag, o.file = x.entry.file → o.direction = x.entry.direction →
    may o → x.entry.offset ≤ o.offset
  wellFormed : x.entry.WellFormed x.before.setup.entryBound x.entry.file x.entry.direction

namespace Core

variable {c c' : Core} {file : String} {d : Direction} {i : Nat} {e : Entry} {may : Entry → Prop}

theorem mem_entryBag_of_lane (h : c.InStep) (he : e ∈ c.lane file d) : e ∈ c.entryBag := by
  refine Multiset.mem_add.mpr (.inl ?_)
  rw [← Index.coe_entries]
  exact (h.lane_mem he).1

theorem mem_lane_of_entryBag (h : c.InStep) (he : e ∈ c.lane file d) {o : Entry}
    (ho : o ∈ c.entryBag) (same_file : o.file = file) (same_direction : o.direction = d) :
    o ∈ c.lane file d := by
  have unused := h.unused
  have stored := (h.lane_mem he).1
  have bucketed : c.active.profile.bucketed := by
    by_contra unbucketed
    rw [if_neg unbucketed] at unused
    have none := entries_eq_nil (c.index.contents_entries.trans unused)
    rw [none] at stored
    exact List.not_mem_nil stored
  rw [if_pos bucketed] at unused
  have empty : c.timeline.entries = [] := entries_eq_nil unused
  rw [entryBag, empty, Multiset.coe_nil, add_zero, ← Index.coe_entries] at ho
  have there := h.mem_lane ho
  rwa [same_file, same_direction] at there

theorem inTurn (h : c.InStep) (found : (c.lane file d)[i]? = some e) (fit : may e)
    (before : ∀ j < i, ∀ o, (c.lane file d)[j]? = some o → ¬ may o) :
    Dispatch.InTurn may ⟨c, e⟩ := by
  have here : e ∈ c.lane file d := List.mem_of_getElem? found
  obtain ⟨-, own_file, own_direction⟩ := h.lane_mem here
  have queue := ((h.index.file file).lane d).queue
  constructor
  case pending => exact mem_entryBag_of_lane h here
  case fit => exact fit
  case wellFormed => exact (queue.entries e here).alone.wellFormed
  case first =>
    intro o ho same_file same_direction fit_o
    have there := mem_lane_of_entryBag h here ho (same_file.trans own_file)
      (same_direction.trans own_direction)
    obtain ⟨j, hj⟩ := List.mem_iff_getElem?.mp there
    have not_before : i ≤ j := Nat.le_of_not_lt fun lt => before j lt o hj fit_o
    rcases not_before.lt_or_eq with lt | rfl
    · obtain ⟨low, rfl⟩ := List.getElem?_eq_some_iff.mp found
      obtain ⟨high, rfl⟩ := List.getElem?_eq_some_iff.mp hj
      exact List.pairwise_iff_getElem.mp queue.inOrder i j low high lt
    · rw [Option.some.inj (hj.symm.trans found)]

theorem head_inTurn (h : c.InStep) (found : (c.lane file d)[0]? = some e) :
    Dispatch.InTurn (fun _ => True) ⟨c, e⟩ :=
  inTurn h found trivial fun j lt => absurd lt (Nat.not_lt_zero j)

theorem dispatch?_lane {now : Nat} {k : PolicyKind} {inQuantum : Bool} {requests : List Request}
    (hd : c.dispatch? now file d i k inQuantum = some (requests, c')) :
    ∃ e, (c.lane file d)[i]? = some e ∧ e.requests = requests := by
  obtain ⟨⟨e, index⟩, he, same⟩ := Option.map_eq_some_iff.mp hd
  obtain ⟨rfl, -⟩ := Prod.mk.inj same
  obtain ⟨f, counts, -, hf, -⟩ := Index.detach?_some he
  obtain ⟨l, hl, -, -⟩ := FileState.detach?_some hf
  exact ⟨e, (Lane.detach?_some hl).1, rfl⟩

end Core

inductive Deed where
  | dispatched (x : Dispatch)
  | delivered (requests : List Request)

def Deed.dispatch? : Deed → Option Dispatch
  | dispatched x => some x
  | delivered _ => none

def Deed.delivery? : Deed → Option (List Request)
  | dispatched _ => none
  | delivered requests => some requests

variable {ω : Type} {host : Host ω} {k : PolicyKind} {may : Entry → Prop} {s s' : Session ω}

/-- A policy comes from session `s` to another by these deeds. It also reads the clock and makes
notes, which leaves the pending requests as they are. -/
inductive Works (host : Host ω) (k : PolicyKind) (s : Session ω) :
    List Deed → Session ω → Prop where
  | start : Works host k s [] s
  | read {deeds : List Deed} {s' : Session ω} : Works host k s deeds s' →
      Works host k s deeds (s'.now host).2
  | note {deeds : List Deed} {s' : Session ω} {ps : List Entry} {c : Core} :
      Works host k s deeds s' → Core.Promotes ps s'.core c →
      Works host k s deeds { s' with core := c }
  | dispatch {deeds : List Deed} {s' s'' : Session ω} {file : String} {d : Direction} {i : Nat}
      {inQuantum : Bool} {e : Entry} {requests : List Request} : Works host k s deeds s' →
      (s'.core.lane file d)[i]? = some e →
      s'.dispatch? host file d i k inQuantum = some (requests, s'') →
      Works host k s (deeds ++ [.dispatched ⟨s'.core, e⟩]) s''
  | deliver {deeds : List Deed} {s' : Session ω} (requests : List Request) :
      Works host k s deeds s' →
      Works host k s (deeds ++ [.delivered requests]) (s'.deliver host requests k)

/-- On the way from `s` to `s'` there were `n` dispatches, each in its turn. The requests were
handed over in the order of the dispatches, and those of `ready` are still to be. -/
structure Serves (host : Host ω) (k : PolicyKind) (may : Entry → Prop) (s : Session ω) (n : Nat)
    (ready : List (List Request)) (s' : Session ω) : Prop where
  inStep : s'.core.InStep
  work : ∃ deeds, Works host k s deeds s' ∧ (deeds.filterMap Deed.dispatch?).length = n ∧
    (∀ x ∈ deeds.filterMap Deed.dispatch?, x.InTurn may) ∧
    (deeds.filterMap Deed.dispatch?).map (fun x => x.entry.requests) =
      deeds.filterMap Deed.delivery? ++ ready

namespace Serves

variable {n : Nat} {ready : List (List Request)}

theorem start (h : s.core.InStep) : Serves host k may s 0 [] s :=
  ⟨h, [], .start, rfl, by simp, rfl⟩

theorem read (h : Serves host k may s n ready s') :
    Serves host k may s n ready (s'.now host).2 := by
  obtain ⟨deeds, works, facts⟩ := h.work
  exact ⟨h.inStep, deeds, works.read, facts⟩

theorem note (h : Serves host k may s n ready s') {ps : List Entry} {c : Core}
    (promotes : Core.Promotes ps s'.core c) :
    Serves host k may s n ready { s' with core := c } := by
  obtain ⟨deeds, works, facts⟩ := h.work
  exact ⟨promotes.inStep, deeds, works.note promotes, facts⟩

theorem shouldYield (h : Serves host k may s n ready s') (deadline : Nat) :
    Serves host k may s n ready (s'.shouldYield host deadline).2 := by
  unfold Session.shouldYield
  split
  · exact h
  · exact h.read

theorem dispatch (h : Serves host k may s n ready s') {s'' : Session ω} {file : String}
    {d : Direction} {i : Nat} {inQuantum : Bool} {requests : List Request}
    (hd : s'.dispatch? host file d i k inQuantum = some (requests, s''))
    (turn : ∀ e, (s'.core.lane file d)[i]? = some e → Dispatch.InTurn may ⟨s'.core, e⟩) :
    Serves host k may s (n + 1) (ready ++ [requests]) s'' := by
  obtain ⟨deeds, works, count, inTurn, handed⟩ := h.work
  obtain ⟨⟨rs, c⟩, went, same⟩ := Option.map_eq_some_iff.mp hd
  obtain ⟨rfl, rfl⟩ := Prod.mk.inj same
  obtain ⟨e, found, own⟩ := Core.dispatch?_lane went
  refine ⟨(Core.dispatch?_effect h.inStep went).inStep,
    deeds ++ [.dispatched ⟨s'.core, e⟩], works.dispatch found hd, ?_, ?_, ?_⟩
  · rw [List.filterMap_append, List.length_append, count]
    rfl
  · intro x hx
    rw [List.filterMap_append, List.mem_append] at hx
    rcases hx with hx | hx
    · exact inTurn x hx
    · rw [List.mem_singleton.mp hx]
      exact turn e found
  · rw [List.filterMap_append, List.filterMap_append, List.map_append, handed, List.append_assoc]
    change _ = _ ++ [] ++ _
    rw [List.append_nil, ← own]
    rfl

theorem deliver {requests : List Request} (h : Serves host k may s n (requests :: ready) s')
    (orderly : host.Orderly) :
    Serves host k may s n ready (s'.deliver host requests k) := by
  obtain ⟨deeds, works, count, inTurn, handed⟩ := h.work
  refine ⟨(orderly.deliver requests k s').inStep h.inStep, deeds ++ [.delivered requests],
    works.deliver requests, ?_, ?_, ?_⟩
  · rw [List.filterMap_append, List.length_append, count]
    rfl
  · intro x hx
    rw [List.filterMap_append, List.mem_append] at hx
    rcases hx with hx | hx
    · exact inTurn x hx
    · exact absurd hx List.not_mem_nil
  · rw [List.filterMap_append, List.filterMap_append, List.append_assoc]
    change List.map _ (_ ++ []) = _
    rw [List.append_nil, handed]
    rfl

theorem deliverAll (h : Serves host k may s n ready s') (orderly : host.Orderly) :
    Serves host k may s n [] (ready.foldl (fun s requests => s.deliver host requests k) s') := by
  induction ready generalizing s' with
  | nil => exact h
  | cons requests rest ih => exact ih (h.deliver orderly)

end Serves

variable {n m : Nat} {ready : List (List Request)}

namespace Shortest

theorem serve_serves (orderly : host.Orderly) (choice : Choice) (batch : Nat)
    (h : Serves host k (fun _ => True) s n [] s') :
    Serves host k (fun _ => True) s (serve host k choice batch n s').1 []
      (serve host k choice batch n s').2 := by
  induction batch generalizing n s' with
  | zero => exact h
  | succ batch ih =>
    unfold serve
    split
    · exact h
    · rename_i requests s'' hd
      have next := (h.dispatch hd fun e found => Core.head_inTurn h.inStep found).deliver orderly
      dsimp only
      split
      · exact next
      · exact ih next

theorem loop_serves (orderly : host.Orderly) (deadline rounds : Nat)
    (h : Serves host k (fun _ => True) s n [] s') :
    Serves host k (fun _ => True) s (loop host k deadline rounds n s').outcome.dispatched []
      (loop host k deadline rounds n s').session := by
  induction rounds generalizing n s' with
  | zero => exact h
  | succ rounds ih =>
    have yields := h.shouldYield deadline
    unfold loop
    split
    · rename_i t ht
      rw [ht] at yields
      exact yields
    · rename_i t ht
      rw [ht] at yields
      split
      · exact yields
      · exact ih (serve_serves orderly _ _ yields)

end Shortest

namespace PassThrough

theorem drainLane_serves (file : String) (d : Direction) (entries : Nat)
    (h : Serves host .passThrough (fun _ => True) s (m + ready.length) ready s') :
    Serves host .passThrough (fun _ => True) s
      (m + (drainLane host file d entries (ready, s')).1.length)
      (drainLane host file d entries (ready, s')).1
      (drainLane host file d entries (ready, s')).2 := by
  induction entries generalizing ready s' with
  | zero => exact h
  | succ entries ih =>
    unfold drainLane
    split
    · exact h
    · rename_i requests s'' hd
      have next := h.dispatch hd fun e found => Core.head_inTurn h.inStep found
      refine ih ?_
      rwa [List.length_append, ← Nat.add_assoc]

theorem drainBucket_serves (orderly : host.Orderly) (i : Nat)
    (h : Serves host .passThrough (fun _ => True) s m [] s') :
    Serves host .passThrough (fun _ => True) s (m + (drainBucket host i s').1) []
      (drainBucket host i s').2 := by
  unfold drainBucket
  dsimp only
  split
  · exact h
  · refine Serves.deliverAll ?_ orderly
    exact List.foldlRecOn (motive := fun acc : List (List Request) × Session ω =>
      Serves host .passThrough (fun _ => True) s (m + acc.1.length) acc.1 acc.2) _ _ h
      fun acc before lane _ => drainLane_serves lane.1.file lane.2 _ before

theorem schedule_serves (orderly : host.Orderly) (h : s.core.InStep) :
    Serves host .passThrough (fun _ => True) s (schedule host s).outcome.dispatched []
      (schedule host s).session := by
  unfold schedule
  exact visitFrom_keeps (P := fun acc : Nat × Session ω =>
    Serves host .passThrough (fun _ => True) s acc.1 [] acc.2)
    (fun i acc before => drainBucket_serves orderly i before) 0 _ 0 (.start h)

end PassThrough

namespace Burst

theorem serve_serves (orderly : host.Orderly) (q : QuantumBounds) (candidate : Candidate)
    (rounds dispatched consumed : Nat)
    (h : Serves host .aioli (fun _ => True) s (m + dispatched) [] s') :
    Serves host .aioli (fun _ => True) s
      (m + (serve host q candidate rounds dispatched consumed s').outcome.dispatched) []
      (serve host q candidate rounds dispatched consumed s').session := by
  induction rounds generalizing dispatched consumed s' with
  | zero => exact h
  | succ rounds ih =>
    unfold serve
    split
    · exact h
    · have read : Serves host .aioli (fun _ => True) s (m + dispatched) [] (s'.now host).2 := h.read
      have turned := read.note
        (Core.turn_promotes read.inStep q candidate (s'.now host).1 dispatched consumed)
      dsimp only
      split
      · rename_i wait core ht
        rw [ht] at turned
        exact turned
      · rename_i core ht
        rw [ht] at turned
        split
        · exact turned
        · rename_i requests s'' hd
          have next := turned.dispatch hd fun e found => Core.head_inTurn turned.inStep found
          exact ih (dispatched + 1) _ (next.deliver orderly)

theorem loop_serves (orderly : host.Orderly) (q : QuantumBounds) (limit deadline rounds : Nat)
    (h : Serves host .aioli (fun _ => True) s n [] s') :
    Serves host .aioli (fun _ => True) s
      (loop host q limit deadline rounds n s').outcome.dispatched []
      (loop host q limit deadline rounds n s').session := by
  induction rounds generalizing n s' with
  | zero => exact h
  | succ rounds ih =>
    have yields := h.shouldYield deadline
    unfold loop
    split
    · rename_i t ht
      rw [ht] at yields
      exact yields
    · rename_i t ht
      rw [ht] at yields
      have read : Serves host .aioli (fun _ => True) s n [] (t.now host).2 := yields.read
      have selected := read.note
        (Core.select_promotes read.inStep q.quantumBytes (t.now host).1)
      dsimp only
      split
      · rename_i wait index hs
        rw [hs] at selected
        split
        · exact selected
        · exact ih selected
      · rename_i candidate wait index hs
        rw [hs] at selected
        have served := serve_serves orderly q candidate limit 0 0 selected
        split
        · exact served
        · split
          · exact served
          · exact ih served

end Burst

theorem Core.holdBack_none {c c' : Core} {file : String} {d : Direction} {i now : Nat}
    (h : c.holdBack file d i now = (c', none)) : c' = c := by
  unfold holdBack at h
  split at h
  · exact (Prod.mk.inj h).1.symm
  · split at h
    · exact (Prod.mk.inj h).1.symm
    · cases h

namespace Feedback

variable {quantum now : Nat}

theorem promoteLane_first {i : Nat} {f : FileState} {file : String} {d : Direction}
    {c c' : Core} (hf : c.index.file? file = some f)
    (hp : promoteLane quantum now f d c = (c', some i)) :
    (∃ e, (c'.lane file d)[i]? = some e ∧ e.eligible quantum) ∧
      ∀ j < i, ∀ o, (c'.lane file d)[j]? = some o → ¬ o.eligible quantum := by
  obtain ⟨rfl, first⟩ := Prod.mk.inj hp
  obtain ⟨hi, eligible, others⟩ := List.findIdx?_eq_some_iff_getElem.mp first
  have here : f.file = file := (Keyed.mem_of_find? hf).2
  let g := (f.expire now).modifyLane d fun l =>
    { l with entries := (f.lane d).entries.map Entry.promote }
  have name : g.file = file := (FileState.file_setLane _ _ _).trans here
  have lane : (({ c with index := c.index.setFile g } : Core).lane file d) =
      (f.lane d).entries.map Entry.promote := by
    rw [Core.lane, Index.fileOf_setFile c.index name, if_pos rfl]
    exact congrArg Lane.entries (FileState.lane_setLane _ _ _)
  change (∃ e, (Core.lane { c with index := c.index.setFile g } file d)[i]? = some e ∧ _) ∧
    ∀ j < i, ∀ o, (Core.lane { c with index := c.index.setFile g } file d)[j]? = some o → _
  rw [lane]
  constructor
  · exact ⟨_, List.getElem?_eq_getElem hi, eligible⟩
  · intro j lt o ho
    obtain ⟨hj, rfl⟩ := List.getElem?_eq_some_iff.mp ho
    exact others j lt

theorem visit_serves (lane : String × Direction) {scan : Scan ω}
    (h : Serves host .feedback (fun e => e.eligible quantum) s (m + scan.ready.length) scan.ready
      scan.session) :
    Serves host .feedback (fun e => e.eligible quantum) s
      (m + (visit host quantum now scan lane).ready.length)
      (visit host quantum now scan lane).ready (visit host quantum now scan lane).session := by
  unfold visit
  dsimp only
  split
  · exact h
  rename_i f hf
  split
  · exact h
  split
  · exact h
  have promoted := h.note (Core.promoteLane_promotes h.inStep hf quantum now lane.2)
  split
  · rename_i core hp
    rw [hp] at promoted
    exact promoted
  rename_i core i hp
  rw [hp] at promoted
  have held := promoted.note (Core.holdBack_promotes promoted.inStep lane.1 lane.2 i now)
  split
  · rename_i core wait hw
    rw [hw] at held
    exact held
  rename_i core hw
  obtain rfl := Core.holdBack_none hw
  split
  · exact promoted
  · rename_i requests s'' hd
    obtain ⟨⟨e, here, eligible⟩, others⟩ := promoteLane_first hf hp
    have next := promoted.dispatch hd fun o found =>
      Core.inTurn promoted.inStep found (Option.some.inj (here.symm.trans found) ▸ eligible) others
    rwa [Nat.add_assoc, ← List.length_singleton (a := requests), ← List.length_append] at next

theorem scanBucket_serves (now i : Nat)
    (h : Serves host .feedback (fun e => e.eligible quantum) s m [] s') :
    Serves host .feedback (fun e => e.eligible quantum) s
      (m + (scanBucket host quantum now i s').ready.length)
      (scanBucket host quantum now i s').ready (scanBucket host quantum now i s').session := by
  unfold scanBucket
  dsimp only
  split
  · exact h
  · exact List.foldlRecOn (motive := fun scan : Scan ω =>
      Serves host .feedback (fun e => e.eligible quantum) s (m + scan.ready.length) scan.ready
        scan.session) _ _ h fun scan before lane _ => visit_serves lane before

theorem round_serves (orderly : host.Orderly) (p : Feedback)
    (h : Serves host .feedback (fun e => e.eligible p.quantum) s n [] s') :
    Serves host .feedback (fun e => e.eligible p.quantum) s (n + (p.round host s').1.dispatched) []
      (p.round host s').2 := by
  unfold round
  refine visitFrom_keeps (P := fun acc : Outcome × Session ω =>
    Serves host .feedback (fun e => e.eligible p.quantum) s (n + acc.1.dispatched) [] acc.2)
    (fun i acc before => ?_) p.cursor _ 0 h
  have scanned := scanBucket_serves (acc.2.now host).1 i before.read
  rw [Nat.add_assoc] at scanned
  exact scanned.deliverAll orderly

theorem loop_serves (orderly : host.Orderly) (deadline rounds : Nat) (p : Feedback)
    (h : Serves host .feedback (fun e => e.eligible p.quantum) s n [] s') :
    Serves host .feedback (fun e => e.eligible p.quantum) s
      (loop host deadline rounds n p s').2.outcome.dispatched []
      (loop host deadline rounds n p s').2.session := by
  induction rounds generalizing n p s' with
  | zero => exact h
  | succ rounds ih =>
    have yields := h.shouldYield deadline
    unfold loop
    split
    · rename_i t ht
      rw [ht] at yields
      exact yields
    · rename_i t ht
      rw [ht] at yields
      have went := round_serves orderly p yields
      dsimp only
      split
      · exact went
      · exact ih ⟨p.quantum, (p.cursor + 1) % (p.round host t).2.core.index.size⟩ went

end Feedback

/-- The entries that a policy may serve: under multi-level feedback they have to be eligible. -/
def Policy.mayServe : Policy → Entry → Prop
  | .feedback p => fun e => e.eligible p.quantum
  | _ => fun _ => True

namespace System

/-- A policy of the bucketed index serves each lane in the order of offsets, whatever has happened
before and whatever the callers do meanwhile. -/
theorem run_serves_by_offset (setup : Setup) (actions : List Action) (p : Policy)
    (bucketed : p.kind.profile.bucketed) (host : Host ω) (orderly : host.Orderly) (world : ω)
    (limit : Nat) :
    Serves host p.kind p.mayServe ⟨(run setup actions).core, world⟩
      (p.schedule host limit ⟨(run setup actions).core, world⟩).2.outcome.dispatched []
      (p.schedule host limit ⟨(run setup actions).core, world⟩).2.session := by
  have start (k : PolicyKind) (may : Entry → Prop) :
      Serves host k may ⟨(run setup actions).core, world⟩ 0 []
        ⟨(run setup actions).core, world⟩ := .start (run_inStep setup actions)
  cases p with
  | aioli q => exact Burst.loop_serves orderly q limit _ limit (start _ _).read
  | feedback p => exact Feedback.loop_serves orderly _ limit p (start _ _).read
  | shortestJob => exact Shortest.loop_serves orderly _ limit (start _ _).read
  | shortestRemaining => exact Shortest.loop_serves orderly _ limit (start _ _).read
  | timeOrder | timeOrderMerging | timeWindow => cases bucketed
  | passThrough => exact PassThrough.schedule_serves orderly (run_inStep setup actions)

/-- Three entries of one lane come in against the order of their offsets, and the first of them is
too large to be eligible at once. -/
theorem backlog_served_by_offset :
    let s : Session Unit := ⟨(run (.of .defaults .one 1) [.migrate .feedback,
      .submit 0 ⟨"f", .read, 128, 8, 0, 0⟩, .submit 0 ⟨"f", .read, 64, 8, 0, 0⟩,
      .submit 0 ⟨"f", .read, 0, 16, 0, 0⟩]).core, ()⟩
    let r := ((Policy.feedback ⟨8, 0⟩).schedule Host.prompt 4 s).2
    r.outcome.dispatched = 3 ∧
      Serves Host.prompt .feedback (fun e => e.eligible 8) s r.outcome.dispatched [] r.session :=
  ⟨by decide +kernel, run_serves_by_offset _ _ (.feedback ⟨8, 0⟩) rfl _ Host.orderly_prompt () 4⟩

end System

end IoScheduling
