import IoScheduling.Proofs.Cores
import IoScheduling.Proofs.Twins

/-! # Runs under a script

A run is given its circumstances, namely the readings of the clock, the rolls and the buckets held by
others, and a script of what the callers do at each occasion: whenever they are handed requests or
the scheduler waits. Nothing is assumed of either, so whatever callers do in the course of a run,
some script says it. -/
namespace IoScheduling

/-- The readings of the clock and the rolls, each by its number, and who holds which bucket after so
many readings. -/
structure Circumstances where
  reading : Nat → Nat
  roll : Nat → Nat
  held : Nat → Nat → Bool

namespace Outside

inductive Call where
  /-- If the request is passed through, the caller's code makes the calls `inside` when it is handed
  the request. -/
  | submit (s : Submission) (inside : List Call)
  | complete (a : Address)
  | cancel (a : Address)
  | force (k : PolicyKind)
  | reset
  | report
  | stop

inductive Event where
  | handedOver (h : Handover)
  | answered (answer : Except Fault Unit)
  | reported (r : Report)
  | scheduled (outcome : Outcome) (finished : Bool)

def Call.isReset : Call → Bool
  | reset => true
  | _ => false

theorem Call.eq_reset {c : Call} (h : c.isReset) : c = .reset := by
  cases c <;> first | rfl | cases h

def Event.isReport : Event → Bool
  | reported _ => true
  | _ => false

end Outside

structure Outside where
  readings : Nat
  rolls : Nat
  script : List (List Outside.Call)
  log : List Outside.Event

namespace Outside

def start (script : List (List Call)) : Outside := ⟨0, 0, script, []⟩

def note (e : Event) (s : Session Outside) : Session Outside :=
  { s with world := { s.world with log := s.world.log ++ [e] } }

def heard (o : Outside) : List Event := o.log.filter fun e => !e.isReport

end Outside

open Outside (Call note)

/-- The host on which callers do `act` at each occasion. -/
def Circumstances.host (g : Circumstances) (act : Session Outside → Session Outside) :
    Host Outside where
  clock o := (g.reading o.readings, { o with readings := o.readings + 1 })
  handOver h s := act (note (.handedOver h) s)
  awaitRelease := act
  awaitWork _ := act
  busy o := g.held o.readings
  roll o := (g.roll o.rolls, { o with rolls := o.rolls + 1 })

namespace Outside

def answered (x : Except Fault Unit × Session Outside) : Session Outside := note (.answered x.1) x.2

mutual

def Call.perform (g : Circumstances) (c : Call) (s : Session Outside) : Session Outside :=
  match c with
  | .submit call inside => answered (s.submit (g.host (performAll g inside)) call)
  | .complete a => answered (s.complete (g.host id) a)
  | .cancel a => answered (s.cancel a)
  | .force k => s.mapCore (·.force k)
  | .reset => s.mapCore (·.resetStatistics)
  | .report => note (.reported s.core.report) s
  | .stop => s.mapCore (·.requestStop)

def performAll (g : Circumstances) (calls : List Call) (s : Session Outside) : Session Outside :=
  match calls with
  | [] => s
  | c :: rest => performAll g rest (c.perform g s)

end

def takeOccasion (g : Circumstances) (s : Session Outside) : Session Outside :=
  match s.world.script with
  | [] => s
  | calls :: rest => performAll g calls { s with world := { s.world with script := rest } }

mutual

def Call.bare (c : Call) : Call :=
  match c with
  | .submit call inside => .submit call (bareAll inside)
  | .complete a => .complete a
  | .cancel a => .cancel a
  | .force k => .force k
  | .reset => .reset
  | .report => .report
  | .stop => .stop

def bareAll (calls : List Call) : List Call :=
  match calls with
  | [] => []
  | c :: rest => if c.isReset then bareAll rest else c.bare :: bareAll rest

end

end Outside

namespace Core

variable (c : Core) (now : Nat)

theorem post_submit (call : Submission) : (c.submit now call).1.post = c.post := by
  obtain ⟨_, _, _, _, _, form⟩ := c.submit_frame now call
  rw [form]
  rfl

theorem post_complete (a : Address) : (c.complete now a).1.post = c.post := by
  rcases c.complete_cases now a with ⟨_, _, _, -, form⟩ | ⟨_, -, form⟩ <;> rw [form]
  · rfl
  · split <;> rfl

theorem post_cancel (a : Address) : (c.cancel a).1.post = c.post := by
  unfold cancel
  split
  · rename_i hd
    obtain ⟨-, x, -, rfl⟩ | ⟨-, t, -, rfl⟩ := dequeue_ok hd <;> rfl
  · rfl

end Core

namespace Outside

open Session (Twins Answers)

/-- The worlds differ only in resets that are still to come and in what has been reported. -/
structure Same (o o' : Outside) : Prop where
  readings : o.readings = o'.readings
  rolls : o.rolls = o'.rolls
  script : o.script.map bareAll = o'.script.map bareAll
  heard : o.heard = o'.heard

theorem Same.refl (o : Outside) : Same o o := ⟨rfl, rfl, rfl, rfl⟩

theorem Same.symm {o o' : Outside} (h : Same o o') : Same o' o :=
  ⟨h.readings.symm, h.rolls.symm, h.script.symm, h.heard.symm⟩

theorem Same.trans {o o' o'' : Outside} (h : Same o o') (h' : Same o' o'') : Same o o'' :=
  ⟨h.readings.trans h'.readings, h.rolls.trans h'.rolls, h.script.trans h'.script,
    h.heard.trans h'.heard⟩

variable {g : Circumstances} {p : Setup × PolicyKind} {s s' t : Session Outside}

theorem twins_refl (s : Session Outside) : Twins Same s.core.post s s := ⟨rfl, rfl, .refl _⟩

theorem twins_symm (h : Twins Same p s s') : Twins Same p s' s where
  alike := h.alike.symm
  post := (Core.Alike.same (q := Core.post) (fun _ => rfl) h.alike.symm).trans h.post
  world := h.world.symm

theorem twins_trans (h : Twins Same p s t) (h' : Twins Same p t s') : Twins Same p s s' where
  alike := h.alike.trans h'.alike
  post := h.post
  world := h.world.trans h'.world

theorem heard_note (e : Event) (s : Session Outside) :
    (note e s).world.heard = s.world.heard ++ if e.isReport then [] else [e] := by
  unfold note heard
  cases he : e.isReport <;> simp [he]

theorem note_twins (h : Twins Same p s s') (e : Event) : Twins Same p (note e s) (note e s') := by
  refine ⟨h.alike, h.post, h.world.readings, h.world.rolls, h.world.script, ?_⟩
  rw [heard_note, heard_note, h.world.heard]

theorem reported_twins (h : Twins Same p s s') (r r' : Report) :
    Twins Same p (note (.reported r) s) (note (.reported r') s') := by
  refine ⟨h.alike, h.post, h.world.readings, h.world.rolls, h.world.script, ?_⟩
  rw [heard_note, heard_note, h.world.heard]
  rfl

theorem answered_twins {x x' : Except Fault Unit × Session Outside}
    (h : Session.Answers Same p x x') : Twins Same p (answered x) (answered x') := by
  obtain ⟨answer, t, t', rfl, rfl, twins⟩ := h.split
  exact note_twins twins (.answered answer)

theorem mapCore_twins (h : Twins Same p s s') {f : Core → Core}
    (reset : ∀ c, (f c.resetStatistics).Alike (f c)) (post : ∀ c, (f c).post = c.post) :
    Twins Same p (s.mapCore f) (s'.mapCore f) :=
  h.replace (Core.Alike.same (q := fun c => (f c).resetStatistics) reset h.alike) (post _)

theorem both_twins {β : Type} (h : Twins Same p s s') {q : Core → Core × β}
    (reset : ∀ c, (q c.resetStatistics).1.Alike (q c).1 ∧ (q c.resetStatistics).2 = (q c).2)
    (post : ∀ c, (q c).1.post = c.post) :
    ∃ c c' b, q s.core = (c, b) ∧ q s'.core = (c', b) ∧
      Twins Same p { s with core := c } { s' with core := c' } := by
  obtain ⟨c, c', b, hc, hc', alike⟩ := Core.Alike.split (Core.Alike.both reset h.alike)
  exact ⟨c, c', b, hc, hc', h.replace alike ((congrArg (·.1.post) hc).symm.trans (post _))⟩

theorem host_respects {act : Session Outside → Session Outside}
    (each : ∀ s s', Twins Same p s s' → Twins Same p (act s) (act s')) :
    (g.host act).Respects Same p where
  time _ _ h := congrArg g.reading h.readings
  clock _ _ h := ⟨congrArg (· + 1) h.readings, h.rolls, h.script, h.heard⟩
  busy _ _ h := congrArg g.held h.readings
  handOver _ _ _ h := each _ _ (note_twins h _)
  awaitRelease := each

theorem now_twins (h : Twins Same p s s') (act act' : Session Outside → Session Outside) :
    Session.Answers Same p (s.now (g.host act)) (s'.now (g.host act')) := by
  have read : Session.Answers Same p (s.now (g.host id)) (s'.now (g.host id)) :=
    h.now (host_respects fun _ _ h => h)
  exact read

theorem submit_twins (h : Twins Same p s s') {act act' : Session Outside → Session Outside}
    (each : ∀ s s', Twins Same p s s' → Twins Same p (act s) (act' s')) (call : Submission) :
    Session.Answers Same p (s.submit (g.host act) call) (s'.submit (g.host act') call) := by
  obtain ⟨now, t, t', hn, hn', twins⟩ := (now_twins (g := g) h act act').split
  obtain ⟨c, c', admission, hc, hc', twins⟩ := both_twins twins
    (q := fun c => c.submit now call) (fun c => c.submit_reset now call)
    (fun c => c.post_submit now call)
  unfold Session.submit
  rw [hn, hn']
  dsimp only at hc hc' ⊢
  rw [hc, hc']
  cases admission with
  | refused fault => exact ⟨rfl, twins⟩
  | queued => exact ⟨rfl, twins⟩
  | passThrough r =>
    have handed (calls : List Handover) {s s' : Session Outside} (h : Twins Same p s s') :
        Twins Same p (calls.foldl (fun s h => (g.host act).handOver h s) s)
          (calls.foldl (fun s h => (g.host act').handOver h s) s') := by
      induction calls generalizing s s' with
      | nil => exact h
      | cons call rest ih => exact ih (each _ _ (note_twins h _))
    refine ⟨rfl, ?_⟩
    unfold Session.handOver
    dsimp only
    rw [show c'.setup = c.setup from twins.setup]
    exact mapCore_twins (handed _ twins) (fun c => (Core.Alike.reset (c.noteRelease r.length)).symm)
      fun _ => rfl

mutual

/-- A call does the same for twins, whether or not there are resets inside it. -/
theorem perform_twins (c : Call) (common : c.isReset = false) {s s' : Session Outside}
    (h : Twins Same p s s') : Twins Same p (c.perform g s) (c.bare.perform g s') := by
  cases c with
  | submit call inside =>
    exact answered_twins (submit_twins h (fun _ _ => performAll_twins inside) call)
  | complete a =>
    obtain ⟨now, t, t', hn, hn', twins⟩ := (now_twins (g := g) h id id).split
    obtain ⟨c, c', answer, hc, hc', twins⟩ := both_twins twins
      (q := fun c => c.complete now a) (fun c => c.complete_reset now a)
      (fun c => c.post_complete now a)
    unfold Call.bare Call.perform Session.complete
    rw [hn, hn']
    dsimp only at hc hc' ⊢
    rw [hc, hc']
    exact note_twins twins (.answered answer)
  | cancel a =>
    obtain ⟨c, c', answer, hc, hc', twins⟩ := both_twins h
      (q := fun c => c.cancel a) (fun c => c.cancel_reset a) (fun c => c.post_cancel a)
    unfold Call.bare Call.perform Session.cancel
    dsimp only at hc hc' ⊢
    rw [hc, hc']
    exact note_twins twins (.answered answer)
  | force k =>
    exact mapCore_twins (f := fun c => c.force k) h
      (fun c => (Core.Alike.reset (c.force k)).symm) fun _ => rfl
  | reset => cases common
  | report => exact reported_twins h _ _
  | stop =>
    exact mapCore_twins (f := Core.requestStop) h
      (fun c => (Core.Alike.reset c.requestStop).symm) fun _ => rfl

theorem performAll_twins (calls : List Call) {s s' : Session Outside} (h : Twins Same p s s') :
    Twins Same p (performAll g calls s) (performAll g (bareAll calls) s') := by
  cases calls with
  | nil => exact h
  | cons c rest =>
    by_cases reset : c.isReset
    · obtain rfl : c = .reset := Call.eq_reset reset
      have after : Twins Same p (s.mapCore (·.resetStatistics)) s' :=
        ⟨(Core.Alike.reset s.core).symm.trans h.alike, h.post, h.world⟩
      exact performAll_twins rest after
    · have common : c.isReset = false := Bool.eq_false_iff.mpr reset
      rw [bareAll, if_neg reset]
      exact performAll_twins rest (perform_twins c common h)

end

theorem post_perform (c : Call) (s : Session Outside) :
    (c.perform g s).core.post = s.core.post := by
  by_cases reset : c.isReset
  · rw [Call.eq_reset reset]
    rfl
  · exact (perform_twins c (Bool.eq_false_iff.mpr reset) (twins_refl s)).post

theorem takeOccasion_twins (h : Twins Same p s s') :
    Twins Same p (takeOccasion g s) (takeOccasion g s') := by
  have script := h.world.script
  unfold takeOccasion
  cases hs : s.world.script <;> cases hs' : s'.world.script <;> rw [hs, hs'] at script
  · exact h
  · cases script
  · cases script
  · rename_i calls rest calls' rest'
    obtain ⟨first, others⟩ := List.cons.inj script
    have left : Twins Same p { s with world := { s.world with script := rest } }
        { s' with world := { s'.world with script := rest' } } :=
      ⟨h.alike, h.post, h.world.readings, h.world.rolls, others, h.world.heard⟩
    have right := performAll_twins (g := g) calls' (twins_trans (twins_symm left) left)
    rw [← first] at right
    exact twins_trans (performAll_twins calls left) (twins_symm right)

end Outside

end IoScheduling
