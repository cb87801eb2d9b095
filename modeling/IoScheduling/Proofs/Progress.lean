import IoScheduling.Proofs.Effort

/-! # Progress

A round of a policy either names a time to wait or makes the effort smaller: it dispatches an entry,
it promotes one that is too early, or it meets a bucket in the hands of somebody else, which happens
only so often. A round is made of parts, and each part adds its outcome to those before it. -/
namespace IoScheduling

theorem firstLeast_mem {α : Type} {f : α → Nat} {xs : List α} {a : α}
    (h : firstLeast f xs = some a) : a ∈ xs := by
  cases xs with
  | nil => cases h
  | cons x rest =>
    rw [← Option.some.inj h]
    refine List.foldlRecOn (motive := (· ∈ x :: rest)) rest _ List.mem_cons_self ?_
    intro best hbest b hb
    split
    · exact List.mem_cons_of_mem x hb
    · exact hbest

theorem firstLeast_le {α : Type} {f : α → Nat} {xs : List α} {a b : α}
    (h : firstLeast f xs = some a) (hb : b ∈ xs) : f a ≤ f b := by
  cases xs with
  | nil => cases h
  | cons x rest =>
    rw [← Option.some.inj h]
    clear h
    induction rest generalizing x b with
    | nil =>
      rw [List.mem_singleton.mp hb]
      exact le_rfl
    | cons y rest ih =>
      rw [List.foldl_cons]
      -- The first two elements compete before the others do.
      by_cases smaller : f y < f x
      · rw [if_pos smaller]
        rcases List.mem_cons.mp hb with rfl | hb
        · exact (ih y List.mem_cons_self).trans smaller.le
        · exact ih y hb
      · rw [if_neg smaller]
        rcases List.mem_cons.mp hb with rfl | hb
        · exact ih b List.mem_cons_self
        rcases List.mem_cons.mp hb with rfl | hb
        · exact (ih x List.mem_cons_self).trans (Nat.le_of_not_lt smaller)
        · exact ih x (List.mem_cons_of_mem x hb)

theorem exists_firstLeast {α : Type} {f : α → Nat} {xs : List α} {a : α} (h : a ∈ xs) :
    ∃ b, firstLeast f xs = some b ∧ b ∈ xs := by
  cases xs with
  | nil => exact absurd h List.not_mem_nil
  | cons x rest => exact ⟨_, rfl, firstLeast_mem rfl⟩

theorem mem_lanesOf {files : List FileState} {f : FileState} {d : Direction} :
    (f, d) ∈ lanesOf files ↔ f ∈ files := by
  have direction : d ∈ Direction.all := by cases d <;> decide
  simp [lanesOf, direction]

theorem FileState.exists_lane {f : FileState} {bound : Nat} (h : f.Sound bound)
    (some_wait : f.inLanes ≠ 0) : ∃ d, (f.lane d).entries ≠ [] := by
  by_contra none
  push Not at none
  refine some_wait (h.inLanes_eq.trans (Multiset.card_eq_zero.mpr ?_))
  have reads : f.reads.entries = [] := none .read
  have writes : f.writes.entries = [] := none .write
  rw [FileState.contents, FileState.lanes, Lane.contents, Lane.contents, reads, writes]
  rfl

theorem Index.mem_files_of_active {x : Index} {f : FileState} (h : f ∈ x.activeFiles) :
    f ∈ x.files := by
  obtain ⟨a, ha, hf⟩ := List.mem_flatMap.mp h
  exact List.mem_flatMap.mpr ⟨a, (List.mem_filter.mp ha).1, hf⟩

namespace Core

variable {c c' : Core} {conduct : Conduct} {file : String} {d : Direction}
  {i now longest quantum : Nat}

theorem InStep.exists_file (h : c.InStep) (bucketed : c.active.profile.bucketed)
    (waiting : c.counts.requests ≠ 0) : ∃ f ∈ c.index.files, f.inLanes ≠ 0 := by
  have unused := h.unused
  rw [if_pos bucketed] at unused
  by_contra none
  push Not at none
  have empty : c.index.contents = 0 := by
    refine List.sum_eq_zero fun bag hb => ?_
    obtain ⟨f, hf, rfl⟩ := List.mem_map.mp hb
    have sound := h.index.stored hf
    exact Multiset.card_eq_zero.mp (sound.inLanes_eq.symm.trans (none f hf))
  refine waiting (h.counts_eq.trans ?_)
  rw [pending, empty, unused]
  rfl

theorem InStep.bucket_of_file (h : c.InStep) {f : FileState} (hf : f ∈ c.index.files)
    (some_wait : f.inLanes ≠ 0) :
    ∃ b, (c.index.slotOf f.file, b) ∈ c.index.buckets ∧ f ∈ b.files ∧ b.pending ≠ 0 := by
  have placed := h.index.placed
  have le := h.index.inLanes_le f.file
  rw [Index.fileOf_of_mem placed hf] at le
  obtain ⟨a, ha, inside⟩ := List.mem_flatMap.mp hf
  have slot := placed.slot a ha f inside
  have here := Index.bucket_of_mem placed ha
  rw [← slot] at here
  rw [Index.bucketOf, here] at le
  exact ⟨a.2, slot ▸ ha, inside, by omega⟩

theorem InStep.bucket_of_lane (h : c.InStep) (waits : c.lane file d ≠ []) :
    ∃ b, (c.index.slotOf file, b) ∈ c.index.buckets ∧ c.index.fileOf file ∈ b.files ∧
      b.pending ≠ 0 := by
  rcases Index.fileOf_cases h.index.placed file with stored | fresh
  · have some_wait : (c.index.fileOf file).inLanes ≠ 0 := by
      rw [(h.index.file file).inLanes_eq]
      intro none
      have empty := Multiset.card_eq_zero.mp none
      obtain ⟨e, he⟩ := List.exists_mem_of_ne_nil _ waits
      have there : e.first.bare ∈ (c.index.fileOf file).contents := by
        have inLane : e.first.bare ∈ ((c.index.fileOf file).lane d).contents := by
          refine mem_contents.mpr ⟨e, he, e.first, ?_, rfl⟩
          cases e <;> exact List.mem_cons_self
        cases d with
        | read => exact Multiset.mem_add.mpr (.inl inLane)
        | write => exact Multiset.mem_add.mpr (.inr inLane)
      rw [empty] at there
      exact Multiset.notMem_zero _ there
    obtain ⟨b, hb, inside, active⟩ := h.bucket_of_file stored some_wait
    rw [Index.file_fileOf] at hb
    exact ⟨b, hb, inside, active⟩
  · refine absurd ?_ waits
    rw [lane, fresh]
    cases d <;> rfl

theorem InStep.exists_bucket (h : c.InStep) (bucketed : c.active.profile.bucketed)
    (waiting : c.counts.requests ≠ 0) : ∃ a ∈ c.index.buckets, a.2.pending ≠ 0 := by
  obtain ⟨f, hf, some_wait⟩ := h.exists_file bucketed waiting
  obtain ⟨b, hb, -, active⟩ := h.bucket_of_file hf some_wait
  exact ⟨_, hb, active⟩

theorem Fit.exists_next (h : c.Fit conduct longest) (waiting : c.counts.requests ≠ 0)
    (first : Nat) :
    ∃ i, c.index.nextActive? first 0 = some i ∧ (c.index.bucket i).pending ≠ 0 := by
  obtain ⟨a, ha, active⟩ := h.inStep.exists_bucket h.bucketed waiting
  have ahead : a.1 ∈ (c.index.buckets.filter fun b =>
      b.2.pending != 0 && 0 ≤ c.index.stepOf first b.1).map (·.1) := by
    refine List.mem_map.mpr ⟨a, List.mem_filter.mpr ⟨ha, ?_⟩, rfl⟩
    simpa using active
  obtain ⟨i, next, hi⟩ := exists_firstLeast ahead
  obtain ⟨⟨j, b⟩, hb, rfl⟩ := List.mem_map.mp hi
  obtain ⟨hb, busy⟩ := List.mem_filter.mp hb
  refine ⟨j, next, ?_⟩
  rw [Index.bucket_of_mem h.inStep.index.placed hb]
  simpa using busy

theorem InStep.exists_lane (h : c.InStep) {a : Nat × Bucket} (ha : a ∈ c.index.buckets)
    (active : a.2.pending ≠ 0) : ∃ f ∈ a.2.files, ∃ d, (f.lane d).entries ≠ [] := by
  have sum := h.index.pending a.1
  rw [Index.bucket_of_mem h.index.placed ha] at sum
  rw [sum] at active
  obtain ⟨n, hn, some_wait⟩ := List.exists_mem_ne_zero_of_sum_ne_zero active
  obtain ⟨f, hf, rfl⟩ := List.mem_map.mp hn
  have stored : f ∈ c.index.files := List.mem_flatMap.mpr ⟨a, ha, hf⟩
  exact ⟨f, hf, FileState.exists_lane (h.index.stored stored) some_wait⟩

theorem lane_unknown (unknown : c.index.file? file = none) : c.lane file d = [] := by
  rw [lane, Index.fileOf_eq_fresh unknown]
  cases d <;> rfl

theorem dispatch?_isSome {e : Entry} (found : (c.lane file d)[i]? = some e) (now : Nat)
    (k : PolicyKind) (inQuantum : Bool) : (c.dispatch? now file d i k inQuantum).isSome := by
  cases hf : c.index.file? file with
  | none =>
    rw [lane_unknown hf] at found
    cases found
  | some f =>
    rw [lane, Index.fileOf_eq hf] at found
    have known : (c.index.bucketOf file).file? file = some f := hf
    simp [dispatch?, Index.detach?, Bucket.detach?, known, FileState.detach?, Lane.detach?, found]

end Core

theorem waits_none (w : Nat) (h : none = some w) : 0 < w := absurd h.symm (Option.some_ne_none w)

theorem Core.holdBack_pos {c c' : Core} {file : String} {d : Direction} {i now wait : Nat}
    (h : c.holdBack file d i now = (c', some wait)) : 0 < wait := by
  unfold holdBack at h
  split at h
  · cases h
  · split at h
    · cases h
    · rename_i f _ e w hw
      obtain rfl := Option.some.inj (Prod.mk.inj h).2
      exact (FileState.holdback?_some hw).2.1

theorem FileState.cooldown?_pos {f : FileState} {now left : Nat}
    (h : f.cooldown? now = some left) : 0 < left := by
  obtain ⟨deadline, -, rest⟩ := Option.bind_eq_some_iff.mp h
  split at rest
  · rw [← Option.some.inj rest]
    omega
  · cases rest

/-- The circumstances in which a policy works. -/
structure Surroundings (ω : Type) extends Conduct where
  possible : ω → Prop
  /-- How often a bucket may still be found in the hands of somebody else. -/
  contention : ω → Nat

variable {ω : Type}

namespace Session

structure Fit (around : Surroundings ω) (longest : Nat) (s : Session ω) : Prop where
  core : s.core.Fit around.toConduct longest
  possible : around.possible s.world

/-- Others have come from `s` to `s'` by calls that admit nothing. -/
structure Quiet (around : Surroundings ω) (s s' : Session ω) : Prop where
  calls : Relation.ReflTransGen (Core.Quiet around.toConduct) s.core s'.core
  possible : around.possible s'.world
  contention : around.contention s'.world ≤ around.contention s.world

/-- What is left to do, and how often somebody else may still be in the way. -/
def effort (around : Surroundings ω) (s : Session ω) : ℕ × (ℕ ×ₗ ℕ) :=
  (around.contention s.world, s.core.effort)

/-- On the way from `s` to a fit `s'` the effort does not grow. -/
structure Nears (around : Surroundings ω) (longest : Nat) (s s' : Session ω) : Prop where
  fit : s'.Fit around longest
  effort_le : s'.effort around ≤ s.effort around

end Session

/-- In these surroundings the clock stays below the deadline, and the caller's code admits
nothing. -/
structure Host.Quiet (host : Host ω) (deadline : Nat) (around : Surroundings ω) : Prop where
  clock : ∀ w, around.possible w → (host.clock w).1 < deadline ∧
    around.possible (host.clock w).2 ∧ around.contention (host.clock w).2 ≤ around.contention w
  handOver : ∀ h s, around.possible s.world → Session.Quiet around s (host.handOver h s)
  awaitRelease : ∀ s, around.possible s.world → Session.Quiet around s (host.awaitRelease s)

/-- Each look at a bucket that is in the hands of somebody else uses up contention. -/
def Host.Fair (host : Host ω) (around : Surroundings ω) : Prop :=
  ∀ w i, around.possible w → host.busy (host.clock w).2 i →
    around.contention (host.clock w).2 < around.contention w

def Surroundings.calm (conduct : Conduct) : Surroundings Unit :=
  { conduct with possible := fun _ => True, contention := fun _ => 0 }

namespace Host

variable {conduct : Conduct} {deadline : Nat} {f : Core → Core}

def meanwhile (f : Core → Core) : Host Unit :=
  { prompt with handOver := fun h s => (prompt.handOver h s).mapCore f }

theorem quiet_prompt (conduct : Conduct) (early : 0 < deadline) :
    prompt.Quiet deadline (.calm conduct) where
  clock _ _ := ⟨early, trivial, le_rfl⟩
  handOver call s _ := ⟨foldl_acknowledge (fun _ => .complete 0) call.requests s, trivial, le_rfl⟩
  awaitRelease _ _ := ⟨.refl, trivial, le_rfl⟩

theorem quiet_meanwhile (early : 0 < deadline) (call : ∀ c, Core.Quiet conduct c (f c)) :
    (meanwhile f).Quiet deadline (.calm conduct) where
  clock := (quiet_prompt conduct early).clock
  handOver h s possible :=
    ⟨((quiet_prompt conduct early).handOver h s possible).calls.tail (call _), trivial, le_rfl⟩
  awaitRelease := (quiet_prompt conduct early).awaitRelease

theorem fair_meanwhile (f : Core → Core) (conduct : Conduct) : (meanwhile f).Fair (.calm conduct) :=
  fun _ _ _ held => absurd held Bool.false_ne_true

theorem orderly_meanwhile (call : ∀ c, Core.Called c (f c)) : (meanwhile f).Orderly where
  handOver h s := (orderly_prompt.handOver h s).tail (call _)
  awaitRelease _ := .refl

end Host

namespace Session

variable {around : Surroundings ω} {longest deadline : Nat} {host : Host ω} {s s' s'' : Session ω}

theorem Nears.refl (fit : s.Fit around longest) : Nears around longest s s := ⟨fit, le_rfl⟩

theorem Nears.trans (h : Nears around longest s s') (h' : Nears around longest s' s'') :
    Nears around longest s s'' := ⟨h'.fit, h'.effort_le.trans h.effort_le⟩

theorem Quiet.nears (h : Quiet around s s') (fit : s.Fit around longest) :
    Nears around longest s s' := by
  obtain ⟨core, less⟩ := fit.core.quiet h.calls
  exact ⟨⟨core, h.possible⟩, h.contention, less⟩

theorem Nears.read (h : Nears around longest s s') (quiet : host.Quiet deadline around) :
    Nears around longest s (s'.now host).2 := by
  obtain ⟨-, possible, contention⟩ := quiet.clock s'.world h.fit.possible
  exact h.trans ⟨⟨h.fit.core, possible⟩, contention, le_rfl⟩

theorem Nears.deliver (h : Nears around longest s s') (quiet : host.Quiet deadline around)
    (requests : List Request) (k : PolicyKind) :
    Nears around longest s (s'.deliver host requests k) :=
  deliver_keeps (P := Nears around longest s) requests k
    (fun call t ht => ht.trans ((quiet.handOver call t ht.fit.possible).nears ht.fit))
    (fun t ht => ht.trans ((quiet.awaitRelease t ht.fit.possible).nears ht.fit)) h

theorem Nears.deliverAll (h : Nears around longest s s') (quiet : host.Quiet deadline around)
    (ready : List (List Request)) (k : PolicyKind) :
    Nears around longest s
      (ready.foldl (fun s requests => s.deliver host requests k) s') := by
  induction ready generalizing s' with
  | nil => exact h
  | cons requests rest ih => exact ih (h.deliver quiet requests k)

theorem Fit.note (fit : s.Fit around longest) {ps : List Entry} {c : Core}
    (promotes : Core.Promotes ps s.core c) (stage : c.stage = s.core.stage) :
    Nears around longest s { s with core := c } :=
  ⟨⟨fit.core.promotes promotes stage, fit.possible⟩, le_rfl, fit.core.effort_promotes promotes⟩

theorem Fit.note_lt {quantum : Nat} (fit : s.Fit around (coverage quantum)) {ps : List Entry}
    {c : Core} (promotes : Core.Promotes ps s.core c) {e : Entry} (he : e ∈ ps)
    (early : ¬ e.promote.eligible quantum) :
    effort around { s with core := c } < effort around s :=
  Prod.mk_lt_mk.mpr (.inr ⟨le_rfl, fit.core.effort_promotes_lt promotes he early⟩)

theorem Fit.dispatch? (fit : s.Fit around longest) (quiet : host.Quiet deadline around)
    {file : String} {d : Direction} {i : Nat} {k : PolicyKind} {inQuantum : Bool}
    {requests : List Request}
    (hd : s.dispatch? host file d i k inQuantum = some (requests, s')) :
    Nears around longest s s' ∧ s'.core.counts.requests < s.core.counts.requests := by
  obtain ⟨⟨rs, c⟩, went, same⟩ := Option.map_eq_some_iff.mp hd
  obtain ⟨rfl, rfl⟩ := Prod.mk.inj same
  obtain ⟨-, possible, contention⟩ := quiet.clock s.world fit.possible
  obtain ⟨core, less⟩ := fit.core.dispatch? went
  exact ⟨⟨⟨core, possible⟩, contention, (Core.effort_lt less).le⟩, less⟩

theorem Nears.effort_lt (h : Nears around longest s s')
    (less : s'.core.counts.requests < s.core.counts.requests) :
    s'.effort around < s.effort around :=
  Prod.mk_lt_mk.mpr (.inr ⟨h.effort_le.1, Core.effort_lt less⟩)

end Session

def Outcome.add (o o' : Outcome) : Outcome :=
  ⟨o.dispatched + o'.dispatched, shorterWait o.wait o'.wait⟩

theorem Outcome.zero_add (o : Outcome) : Outcome.zero.add o = o := by
  obtain ⟨n, wait⟩ := o
  cases wait <;> simp [Outcome.add, Outcome.zero, shorterWait]

theorem Outcome.add_zero (o : Outcome) : o.add .zero = o := by
  obtain ⟨n, wait⟩ := o
  cases wait <;> simp [Outcome.add, Outcome.zero, shorterWait]

theorem Outcome.add_assoc (o o' o'' : Outcome) : (o.add o').add o'' = o.add (o'.add o'') := by
  obtain ⟨n, wait⟩ := o
  obtain ⟨n', wait'⟩ := o'
  obtain ⟨n'', wait''⟩ := o''
  cases wait <;> cases wait' <;> cases wait'' <;>
    simp [Outcome.add, shorterWait, Nat.add_assoc, Nat.min_assoc]

theorem Outcome.isSome_wait_add (o o' : Outcome) :
    (o.add o').wait.isSome = (o.wait.isSome || o'.wait.isSome) := by
  obtain ⟨n, wait⟩ := o
  obtain ⟨n', wait'⟩ := o'
  cases wait <;> cases wait' <;> rfl

/-- A policy has come from `s` to `s'` with this outcome. A wait that it names is positive, and a
dispatch has made the effort smaller. -/
structure Yields (around : Surroundings ω) (longest : Nat) (s : Session ω) (o : Outcome)
    (s' : Session ω) : Prop extends s.Nears around longest s' where
  waits : ∀ w, o.wait = some w → 0 < w
  spent : o.dispatched ≠ 0 → s'.effort around < s.effort around

def Fruitful (around : Surroundings ω) (s : Session ω) (o : Outcome) (s' : Session ω) : Prop :=
  o.wait.isSome ∨ s'.effort around < s.effort around

namespace Yields

variable {around : Surroundings ω} {longest deadline : Nat} {host : Host ω} {s s' s'' : Session ω}
  {o o' : Outcome}

theorem nothing (h : s.Nears around longest s') : Yields around longest s .zero s' :=
  ⟨h, waits_none, fun some_out => absurd rfl some_out⟩

theorem add (h : Yields around longest s o s') (h' : Yields around longest s' o' s'') :
    Yields around longest s (o.add o') s'' where
  toNears := h.toNears.trans h'.toNears
  waits := by
    intro w hw
    have first := h.waits
    have second := h'.waits
    obtain ⟨n, wait⟩ := o
    obtain ⟨n', wait'⟩ := o'
    cases wait <;> cases wait' <;> simp_all [Outcome.add, shorterWait]
    omega
  spent := by
    intro some_out
    by_cases here : o.dispatched = 0
    · have there : o'.dispatched ≠ 0 := by
        intro none
        exact some_out (congrArg₂ (· + ·) here none)
      exact (h'.spent there).trans_le h.effort_le
    · exact h'.effort_le.trans_lt (h.spent here)

theorem later (h : Yields around longest s o s') (h' : s'.Nears around longest s'') :
    Yields around longest s o s'' :=
  o.add_zero ▸ h.add (nothing h')

end Yields

/-- A part of a round adds its outcome to what came before. It is fruitful if there was work. -/
def Adds (around : Surroundings ω) (longest : Nat) (work : Prop)
    (acc acc' : Outcome × Session ω) : Prop :=
  ∃ o, acc'.1 = acc.1.add o ∧ Yields around longest acc.2 o acc'.2 ∧
    (work → Fruitful around acc.2 o acc'.2)

namespace Adds

variable {around : Surroundings ω} {longest deadline : Nat} {work work' : Prop}
  {acc acc' acc'' : Outcome × Session ω}

theorem idle (fit : acc.2.Fit around longest) (none : ¬ work) :
    Adds around longest work acc acc :=
  ⟨.zero, (Outcome.add_zero _).symm, .nothing (.refl fit), fun some => absurd some none⟩

theorem trans (h : Adds around longest work acc acc')
    (h' : Adds around longest work' acc' acc'') :
    Adds around longest (work ∨ work') acc acc'' := by
  obtain ⟨o, first, yields, fruitful⟩ := h
  obtain ⟨o', second, yields', fruitful'⟩ := h'
  refine ⟨o.add o', ?_, yields.add yields', ?_⟩
  · rw [second, first, Outcome.add_assoc]
  · rintro (work | work')
    · rcases fruitful work with some_wait | less
      · exact .inl (by rw [Outcome.isSome_wait_add, some_wait, Bool.true_or])
      · exact .inr (yields'.effort_le.trans_lt less)
    · rcases fruitful' work' with some_wait | less
      · exact .inl (by rw [Outcome.isSome_wait_add, some_wait, Bool.or_true])
      · exact .inr (less.trans_le yields.effort_le)

theorem of_imp (h : Adds around longest work acc acc') (imp : work' → work) :
    Adds around longest work' acc acc' := by
  obtain ⟨o, added, yields, fruitful⟩ := h
  exact ⟨o, added, yields, fun some => fruitful (imp some)⟩

theorem nears (h : Adds around longest work acc acc') :
    acc.2.Nears around longest acc'.2 := by
  obtain ⟨o, -, yields, -⟩ := h
  exact yields.toNears

end Adds

/-- The policy has come to its end with nothing pending or with a time to wait, unless the caller's
code has stopped the scheduler. -/
def Ended (conduct : Conduct) (r : Scheduled ω) : Prop :=
  r.finished = true ∧
    (r.session.core.counts.requests = 0 ∨ (∃ w, r.outcome.wait = some w ∧ 0 < w) ∨
      conduct.stops ∧ r.session.core.stopping = true)

theorem Core.Fit.done {c : Core} {conduct : Conduct} {longest : Nat} (h : c.Fit conduct longest)
    (done : c.isDone = true) :
    c.counts.requests = 0 ∨ conduct.stops ∧ c.stopping = true := by
  rcases Bool.or_eq_true_iff.mp done with stopping | empty
  · refine .inr ⟨?_, stopping⟩
    by_contra never
    exact Bool.false_ne_true ((h.running never).symm.trans stopping)
  · exact .inl (beq_iff_eq.mp empty)

theorem Core.waiting_of_undone {c : Core} (undone : c.isDone = false) :
    c.stopping = false ∧ c.counts.requests ≠ 0 := by
  obtain ⟨running, waiting⟩ := Bool.or_eq_false_iff.mp undone
  exact ⟨running, ne_of_beq_false waiting⟩

namespace Session

variable {deadline : Nat} {host : Host ω} {s : Session ω}

theorem shouldYield_done (host : Host ω) (deadline : Nat) (done : s.core.isDone = true) :
    s.shouldYield host deadline = (true, s) := if_pos done

theorem shouldYield_undone (undone : s.core.isDone = false)
    (early : (host.clock s.world).1 < deadline) :
    s.shouldYield host deadline = (false, (s.now host).2) := by
  rw [shouldYield, if_neg (by rw [undone]; decide)]
  exact congrArg (·, (s.now host).2) (decide_eq_false (Nat.not_le.mpr early))

end Session

end IoScheduling
