import IoScheduling.Proofs.Callers

/-! # Releases that are written down

The core counts the requests released since the last selection, and their bytes. Here the world of a
run writes down the length of every request when it is released, and the counts are held against
what is written. -/
namespace IoScheduling

open Outside (Call)

/-- The world of a run in which releases are written down. -/
structure Metered where
  readings : Nat
  rolls : Nat
  script : List (List Call)
  /-- The lengths of the released requests, in the order of their release. -/
  released : List Nat

/-- The host on which callers do `act` at each occasion. -/
def Circumstances.metered (g : Circumstances) (act : Session Metered → Session Metered) :
    Host Metered where
  clock m := (g.reading m.readings, { m with readings := m.readings + 1 })
  handOver _ := act
  awaitRelease := act
  awaitWork _ := act
  busy m := g.held m.readings
  roll m := (g.roll m.rolls, { m with rolls := m.rolls + 1 })

namespace Metered

def start (script : List (List Call)) : Metered := ⟨0, 0, script, []⟩

def write (n : Nat) (s : Session Metered) : Session Metered :=
  { s with world := { s.world with released := s.world.released ++ [n] } }

mutual

/-- A call, and what is written down of it: a request that is passed through is released when the
caller's code returns, any other one when it is acknowledged and a record of it is found. -/
def perform (g : Circumstances) (c : Call) (s : Session Metered) : Session Metered :=
  match c with
  | .submit call inside =>
    let after := (s.submit (g.metered (performAll g inside)) call).2
    match (s.core.submit (g.reading s.world.readings) call).2 with
    | .passThrough r => write r.length after
    | _ => after
  | .complete a =>
    let after := (s.complete (g.metered id) a).2
    if (s.core.index.release a).isOk then write a.length after else after
  | .cancel a => (s.cancel a).2
  | .force k => s.mapCore (·.force k)
  | .reset => s.mapCore (·.resetStatistics)
  | .report => s
  | .stop => s.mapCore (·.requestStop)

def performAll (g : Circumstances) (calls : List Call) (s : Session Metered) : Session Metered :=
  match calls with
  | [] => s
  | c :: rest => performAll g rest (perform g c s)

end

def takeOccasion (g : Circumstances) (s : Session Metered) : Session Metered :=
  match s.world.script with
  | [] => s
  | calls :: rest => performAll g calls { s with world := { s.world with script := rest } }

end Metered

/-- At the post `p`, and since the requests with the lengths `before` were released the core has
counted every release. -/
structure Counted (p : Setup × PolicyKind) (before : List Nat) (s : Session Metered) : Prop where
  post : s.core.post = p
  counts : ∃ lengths, s.world.released = before ++ lengths ∧
    s.core.periodRequests = lengths.length ∧ s.core.periodBytes = lengths.sum

namespace Counted

variable {p : Setup × PolicyKind} {before : List Nat} {s : Session Metered} {c : Core}

theorem quiet (h : Counted p before s) (post : c.post = s.core.post)
    (requests : c.periodRequests = s.core.periodRequests)
    (bytes : c.periodBytes = s.core.periodBytes) : Counted p before { s with core := c } := by
  obtain ⟨lengths, written, count, sum⟩ := h.counts
  exact ⟨post.trans h.post, lengths, written, requests.trans count, bytes.trans sum⟩

theorem released (h : Counted p before s) {n : Nat} (post : c.post = s.core.post)
    (requests : c.periodRequests = s.core.periodRequests + 1)
    (bytes : c.periodBytes = s.core.periodBytes + n) :
    Counted p before (Metered.write n { s with core := c }) := by
  obtain ⟨lengths, written, count, sum⟩ := h.counts
  refine ⟨post.trans h.post, lengths ++ [n], ?_, ?_, ?_⟩
  · change s.world.released ++ [n] = _
    rw [written, List.append_assoc]
  · rw [List.length_append, List.length_singleton, ← count]
    exact requests
  · rw [List.sum_append, List.sum_singleton, ← sum]
    exact bytes

theorem elsewhere (h : Counted p before s) {s' : Session Metered}
    (written : s'.world.released = s.world.released)
    (requests : s'.core.periodRequests = s.core.periodRequests)
    (bytes : s'.core.periodBytes = s.core.periodBytes) : Counted s'.core.post before s' := by
  obtain ⟨lengths, all, count, sum⟩ := h.counts
  exact ⟨rfl, lengths, written.trans all, requests.trans count, bytes.trans sum⟩

theorem passTime (h : Counted p before s) {m : Metered} (same : m.released = s.world.released) :
    Counted p before { s with world := m } := by
  obtain ⟨lengths, written, counts⟩ := h.counts
  exact ⟨h.post, lengths, same.trans written, counts⟩

end Counted

namespace Metered

variable {g : Circumstances} {p : Setup × PolicyKind} {before : List Nat} {s : Session Metered}
  {act : Session Metered → Session Metered}

theorem submit_counted (h : Counted p before s)
    (each : ∀ s, Counted p before s → Counted p before (act s)) (call : Submission) :
    Counted p before (match (s.core.submit (g.reading s.world.readings) call).2 with
      | .passThrough r => write r.length (s.submit (g.metered act) call).2
      | _ => (s.submit (g.metered act) call).2) := by
  let world : Metered := { s.world with readings := s.world.readings + 1 }
  have read : Counted p before { s with world := world } := h.passTime rfl
  unfold Session.submit Session.now
  dsimp only [Circumstances.metered]
  rcases s.core.submit_cases (g.reading s.world.readings) call with
    form | ⟨l, form⟩ | ⟨l, form⟩ <;> rw [form]
  · exact read
  · have taken := read.quiet (c := { s.core with nextSeq := s.core.nextSeq + 1, ledger := l })
      rfl rfl rfl
    have calls (h : Handover) (s : Session Metered) (hs : Counted p before s) :
        Counted p before ((g.metered act).handOver h s) := each s hs
    have handed := Session.handOver_keeps [s.core.stamp (g.reading s.world.readings) call] calls
      taken
    exact handed.released rfl rfl rfl
  · obtain ⟨_, _, enqueued⟩ := Core.enqueue_frame { s.core with nextSeq := s.core.nextSeq + 1 }
      (g.reading s.world.readings) (s.core.stamp (g.reading s.world.readings) call)
    rw [enqueued]
    exact read.quiet rfl rfl rfl

theorem complete_counted (h : Counted p before s) (a : Address) :
    Counted p before
      (if (s.core.index.release a).isOk then write a.length (s.complete (g.metered act) a).2
      else (s.complete (g.metered act) a).2) := by
  let world : Metered := { s.world with readings := s.world.readings + 1 }
  have read : Counted p before { s with world := world } := h.passTime rfl
  unfold Session.complete Session.now
  dsimp only [Circumstances.metered]
  obtain ⟨r, x, signal, hr, form⟩ | ⟨fault, hr, form⟩ :=
    s.core.complete_cases (g.reading s.world.readings) a
  · have found : (s.core.index.release a).isOk := by rw [hr]; rfl
    rw [if_pos found, form]
    exact read.released rfl rfl rfl
  · have missing : ¬ (s.core.index.release a).isOk := by rw [hr]; nofun
    rw [if_neg missing, form]
    split
    · exact read
    · exact read.quiet rfl rfl rfl

theorem cancel_counted (h : Counted p before s) (a : Address) :
    Counted p before (s.cancel a).2 := by
  have quiet : (s.core.cancel a).1.periodRequests = s.core.periodRequests ∧
      (s.core.cancel a).1.periodBytes = s.core.periodBytes := by
    unfold Core.cancel
    split
    · rename_i hd
      obtain ⟨-, x, -, rfl⟩ | ⟨-, t, -, rfl⟩ := Core.dequeue_ok hd <;> exact ⟨rfl, rfl⟩
    · exact ⟨rfl, rfl⟩
  exact h.quiet (s.core.post_cancel a) quiet.1 quiet.2

mutual

theorem perform_counted (c : Call) {s : Session Metered} (h : Counted p before s) :
    Counted p before (perform g c s) := by
  cases c with
  | submit call inside => exact submit_counted h (fun _ => performAll_counted inside) call
  | complete a => exact complete_counted h a
  | cancel a => exact cancel_counted h a
  | force k => exact h.quiet rfl rfl rfl
  | reset => exact h.quiet rfl rfl rfl
  | report => exact h
  | stop => exact h.quiet rfl rfl rfl

theorem performAll_counted (calls : List Call) {s : Session Metered} (h : Counted p before s) :
    Counted p before (performAll g calls s) := by
  cases calls with
  | nil => exact h
  | cons c rest => exact performAll_counted rest (perform_counted c h)

end

theorem takeOccasion_counted (h : Counted p before s) : Counted p before (takeOccasion g s) := by
  unfold takeOccasion
  split
  · exact h
  · exact performAll_counted _ (h.passTime rfl)

theorem keeps_counted (g : Circumstances) (p : Setup × PolicyKind) (before : List Nat) :
    (g.metered (takeOccasion g)).Keeps (Counted p before) where
  now _ h := h.passTime rfl
  serve _ _ aside h := by
    have requests := congrArg Core.periodRequests aside
    have bytes := congrArg Core.periodBytes aside
    exact h.quiet (Core.post_of_aside aside) requests bytes
  handOver _ _ h := takeOccasion_counted h
  awaitRelease _ h := takeOccasion_counted h

end Metered

end IoScheduling
