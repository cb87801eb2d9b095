import IoScheduling.Proofs.Progress

/-! # Scans come to an end

A scan that comes to a lane in use finds the file cooling down, promotes entries of which none is
eligible yet, holds one back, or dispatches one. So each round in which something waits is fruitful,
and there are finitely many of them. -/
namespace IoScheduling

variable {ω : Type}

namespace Feedback

variable {around : Surroundings ω} {deadline quantum now : Nat} {host : Host ω}

def Scan.outcome (scan : Scan ω) : Outcome := ⟨scan.ready.length, scan.wait⟩

theorem visit_empty {scan : Scan ω} {file : String} {d : Direction}
    (empty : scan.session.core.lane file d = []) :
    visit host quantum now scan (file, d) = scan := by
  unfold visit
  dsimp only
  split
  · rfl
  · rename_i f hf
    rw [Core.lane, Index.fileOf_eq hf] at empty
    rw [empty]
    rfl

theorem stage_promoteLane (quantum now : Nat) (f : FileState) (d : Direction) (c : Core) :
    (promoteLane quantum now f d c).1.stage = c.stage := rfl

theorem promoteLane_none {f : FileState} {d : Direction} {c c' : Core}
    (hp : promoteLane quantum now f d c = (c', none)) {e : Entry} (he : e ∈ (f.lane d).entries) :
    ¬ e.promote.eligible quantum := by
  obtain ⟨-, none⟩ := Prod.mk.inj hp
  have early := List.findIdx?_eq_none_iff.mp none _ (List.mem_map_of_mem he)
  rw [early]
  exact Bool.false_ne_true

theorem visit_adds (quiet : host.Quiet deadline around) (now : Nat) {scan : Scan ω}
    (fit : scan.session.Fit around (coverage quantum)) (file : String) (d : Direction) :
    Adds around (coverage quantum) (scan.session.core.lane file d ≠ [])
      (scan.outcome, scan.session)
      ((visit host quantum now scan (file, d)).outcome,
        (visit host quantum now scan (file, d)).session) := by
  by_cases empty : scan.session.core.lane file d = []
  · rw [visit_empty empty]
    exact .idle fit (absurd empty)
  unfold visit
  dsimp only
  split
  · rename_i unknown
    exact absurd (Core.lane_unknown unknown) empty
  rename_i f hf
  rw [Core.lane, Index.fileOf_eq hf] at empty
  have waits {s : Session ω} {wait : Nat} (pos : 0 < wait)
      (nears : scan.session.Nears around (coverage quantum) s) :
      Adds around (coverage quantum) (scan.session.core.lane file d ≠ [])
        (scan.outcome, scan.session)
        (⟨scan.ready.length, shorterWait scan.wait (some wait)⟩, s) :=
    ⟨⟨0, some wait⟩, rfl, ⟨nears, fun w hw => Option.some.inj hw ▸ pos, fun h => absurd rfl h⟩,
      fun _ => .inl rfl⟩
  split
  · rename_i none
    exact absurd (List.isEmpty_iff.mp none) empty
  split
  · rename_i left hleft
    exact waits (FileState.cooldown?_pos hleft) (.refl fit)
  have promoted := Core.promoteLane_promotes fit.core.inStep hf quantum now d
  have stage := stage_promoteLane quantum now f d scan.session.core
  split
  · rename_i core hp
    rw [hp] at promoted stage
    obtain ⟨e, he⟩ := List.exists_mem_of_ne_nil _ empty
    have nears := fit.note promoted stage
    have less := fit.note_lt promoted he (promoteLane_none hp he)
    exact ⟨.zero, (Outcome.add_zero _).symm, .nothing nears, fun _ => .inr less⟩
  rename_i core i hp
  rw [hp] at promoted stage
  have nears := fit.note promoted stage
  have held := Core.holdBack_promotes promoted.inStep file d i now
  have still := Core.stage_holdBack core file d i now
  split
  · rename_i core' wait hw
    rw [hw] at held still
    have noted := nears.fit.note held still
    exact waits (Core.holdBack_pos hw) (nears.trans noted)
  rename_i core' hw
  obtain rfl := Core.holdBack_none hw
  obtain ⟨⟨e, found, -⟩, -⟩ := promoteLane_first hf hp
  split
  · rename_i none
    have some_out := Core.dispatch?_isSome found (host.clock scan.session.world).1 .feedback false
    rw [Option.map_eq_none_iff.mp none] at some_out
    cases some_out
  · rename_i requests s hd
    obtain ⟨went, less⟩ := nears.fit.dispatch? quiet hd
    have whole := nears.trans went
    have less := (went.effort_lt less).trans_le nears.effort_le
    refine ⟨⟨1, none⟩, ?_, ⟨whole, waits_none, fun _ => less⟩, fun _ => .inr less⟩
    simp [Scan.outcome, Outcome.add, shorterWait]

theorem lanes_adds (quiet : host.Quiet deadline around) (now : Nat)
    (lanes : List (String × Direction)) {scan : Scan ω}
    (fit : scan.session.Fit around (coverage quantum)) :
    Adds around (coverage quantum)
      (∃ lane ∈ lanes, scan.session.core.lane lane.1 lane.2 ≠ []) (scan.outcome, scan.session)
      ((lanes.foldl (visit host quantum now) scan).outcome,
        (lanes.foldl (visit host quantum now) scan).session) := by
  induction lanes generalizing scan with
  | nil => exact .idle fit fun ⟨_, hl, _⟩ => absurd hl List.not_mem_nil
  | cons lane lanes ih =>
    obtain ⟨file, d⟩ := lane
    have here := visit_adds quiet now fit file d
    have rest := ih here.nears.fit
    refine (here.trans rest).of_imp ?_
    rintro ⟨lane, hl, used⟩
    by_cases empty : scan.session.core.lane file d = []
    · rcases List.mem_cons.mp hl with rfl | hl
      · exact absurd empty used
      · rw [visit_empty empty]
        exact .inr ⟨lane, hl, used⟩
    · exact .inl empty

theorem scanBucket_adds (quiet : host.Quiet deadline around) (now i : Nat) {s : Session ω}
    (fit : s.Fit around (coverage quantum)) :
    Adds around (coverage quantum)
      (host.busy s.world i = false ∧ (s.core.index.bucket i).pending ≠ 0) (.zero, s)
      ((scanBucket host quantum now i s).outcome, (scanBucket host quantum now i s).session) := by
  unfold scanBucket
  dsimp only
  split
  · rename_i passed
    refine .idle fit ?_
    rintro ⟨free, active⟩
    rw [free, Bool.false_or] at passed
    exact active (beq_iff_eq.mp passed)
  · refine (lanes_adds quiet now _ fit).of_imp ?_
    rintro ⟨-, active⟩
    rcases s.core.index.bucket_cases i with there | empty
    · obtain ⟨f, hf, d, used⟩ := fit.core.inStep.exists_lane there active
      have stored : f ∈ s.core.index.files := List.mem_flatMap.mpr ⟨_, there, hf⟩
      refine ⟨(f.file, d), List.mem_map.mpr ⟨(f, d), mem_lanesOf.mpr hf, rfl⟩, ?_⟩
      rwa [Core.lane, Index.fileOf_of_mem fit.core.inStep.index.placed stored]
    · exact absurd (congrArg Bucket.pending empty) active

def look (host : Host ω) (p : Feedback) (i : Nat) (acc : Outcome × Session ω) :
    Outcome × Session ω :=
  let (now, s) := acc.2.now host
  let scan := scanBucket host p.quantum now i s
  (acc.1.add scan.outcome,
    scan.ready.foldl (fun s requests => s.deliver host requests .feedback) scan.session)

theorem round_eq (host : Host ω) (p : Feedback) (s : Session ω) :
    p.round host s = visitBuckets p.cursor (look host p) (.zero, s) := rfl

theorem look_adds (quiet : host.Quiet deadline around) (fair : host.Fair around) (p : Feedback)
    (i : Nat) {acc : Outcome × Session ω} (fit : acc.2.Fit around (coverage p.quantum)) :
    Adds around (coverage p.quantum) ((acc.2.core.index.bucket i).pending ≠ 0) acc
      (look host p i acc) := by
  have read : acc.2.Nears around (coverage p.quantum) (acc.2.now host).2 :=
    (Session.Nears.refl fit).read quiet
  obtain ⟨o, same, yields, fruitful⟩ := scanBucket_adds quiet (acc.2.now host).1 i read.fit
  rw [Outcome.zero_add] at same
  have delivered := (Session.Nears.refl yields.fit).deliverAll quiet
    (scanBucket host p.quantum (acc.2.now host).1 i (acc.2.now host).2).ready .feedback
  have whole := (Yields.nothing read).add (yields.later delivered)
  rw [Outcome.zero_add] at whole
  refine ⟨o, congrArg acc.1.add same, whole, fun active => ?_⟩
  cases busy : host.busy (acc.2.now host).2.world i with
  | true =>
    have less : (acc.2.now host).2.effort around < acc.2.effort around :=
      Prod.mk_lt_mk.mpr (.inl ⟨fair acc.2.world i fit.possible busy, le_rfl⟩)
    exact .inr ((yields.later delivered).effort_le.trans_lt less)
  | false =>
    rcases fruitful ⟨busy, active⟩ with some_wait | less
    · exact .inl some_wait
    · exact .inr (delivered.effort_le.trans_lt (less.trans_le read.effort_le))

/-- A round while something waits names a wait, or it makes the effort smaller. -/
theorem round_yields (quiet : host.Quiet deadline around) (fair : host.Fair around)
    (p : Feedback) {s : Session ω} (fit : s.Fit around (coverage p.quantum))
    (waiting : s.core.counts.requests ≠ 0) :
    Yields around (coverage p.quantum) s (p.round host s).1 (p.round host s).2 ∧
      Fruitful around s (p.round host s).1 (p.round host s).2 := by
  have keeps (i : Nat) (acc : Outcome × Session ω)
      (h : Adds around (coverage p.quantum) True (.zero, s) acc) :
      Adds around (coverage p.quantum) True (.zero, s) (look host p i acc) :=
    (h.trans (look_adds quiet fair p i h.nears.fit)).of_imp .inl
  obtain ⟨i, next, active⟩ := fit.core.exists_next waiting p.cursor
  obtain ⟨left, size⟩ := Nat.exists_eq_succ_of_ne_zero fit.core.buckets.ne'
  have size : s.core.index.size = left + 1 := size
  have first : Adds around (coverage p.quantum) True (.zero, s) (look host p i (.zero, s)) :=
    (look_adds quiet fair p i fit).of_imp fun _ => active
  have whole : Adds around (coverage p.quantum) True (.zero, s) (p.round host s) := by
    rw [round_eq, visitBuckets, size, visitFrom, next]
    exact visitFrom_keeps (P := Adds around (coverage p.quantum) True (.zero, s)) keeps
      p.cursor left _ first
  obtain ⟨o, same, yields, fruitful⟩ := whole
  rw [Outcome.zero_add] at same
  rw [same]
  exact ⟨yields, fruitful trivial⟩

theorem loop_ends (quiet : host.Quiet deadline around) (fair : host.Fair around) {s : Session ω}
    (fit : s.Fit around (coverage quantum)) (p : Feedback) (hp : p.quantum = quantum)
    (dispatched : Nat) :
    ∃ least, ∀ rounds ≥ least,
      Ended around.toConduct (loop host deadline rounds dispatched p s).2 := by
  -- The induction is on the effort, which every round makes smaller that does not end the loop.
  induction he : s.effort around using WellFoundedLT.induction generalizing s p dispatched with
  | _ effort ih =>
  by_cases done : s.core.isDone = true
  · refine ⟨1, fun rounds enough => ?_⟩
    obtain ⟨rounds, rfl⟩ := Nat.exists_eq_add_of_le' enough
    rw [loop, Session.shouldYield_done host deadline done]
    exact ⟨rfl, (fit.core.done done).imp_right .inr⟩
  have undone : s.core.isDone = false := Bool.not_eq_true _ ▸ done
  have next := Session.shouldYield_undone undone (quiet.clock s.world fit.possible).1
  have read := (Session.Nears.refl fit).read quiet
  subst hp
  obtain ⟨yields, fruitful⟩ :=
    round_yields quiet fair p read.fit (Core.waiting_of_undone undone).2
  by_cases ends : (p.round host (s.now host).2).1.dispatched = 0 ∧
      (p.round host (s.now host).2).1.wait.isSome
  · refine ⟨1, fun rounds enough => ?_⟩
    obtain ⟨rounds, rfl⟩ := Nat.exists_eq_add_of_le' enough
    obtain ⟨w, hw⟩ := Option.isSome_iff_exists.mp ends.2
    rw [loop, next]
    dsimp only
    rw [if_pos ends]
    exact ⟨rfl, .inr (.inl ⟨w, hw, yields.waits w hw⟩)⟩
  · have less : (p.round host (s.now host).2).2.effort around < s.effort around := by
      refine lt_of_lt_of_le ?_ read.effort_le
      rcases fruitful with some_wait | less
      · exact yields.spent fun none_out => ends ⟨none_out, some_wait⟩
      · exact less
    obtain ⟨least, h⟩ := ih _ (he ▸ less) yields.fit
      { p with cursor := (p.cursor + 1) % (p.round host (s.now host).2).2.core.index.size } rfl
      (dispatched + (p.round host (s.now host).2).1.dispatched) rfl
    refine ⟨least + 1, fun rounds enough => ?_⟩
    obtain ⟨rounds, rfl⟩ := Nat.exists_eq_add_of_le' (Nat.le_of_add_left_le enough)
    rw [loop, next]
    dsimp only
    rw [if_neg ends]
    exact h rounds (by omega)

end Feedback

end IoScheduling
