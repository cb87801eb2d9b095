import IoScheduling.Proofs.Isolation
import IoScheduling.Proofs.Notes
import IoScheduling.Service.Checksum
import Mathlib.Data.List.DropRight

/-! # What a lane counts as served

A lane adds up what goes out of it and starts afresh when a dispatch leaves it empty; the sum is
then its prediction for the next time. A withdrawal that leaves a lane empty is not taken for the
end of a busy period, so the bytes of a period that ends so go over to the next one. -/
namespace IoScheduling

structure Flow where
  out : Option Nat
  idle : Bool
  deriving DecidableEq, Repr

namespace Flow

def bytes (f : Flow) : Nat := f.out.getD 0

def drains (f : Flow) : Bool := f.out.isSome && f.idle

end Flow

def bytesOut (fs : List Flow) : Nat := (fs.map Flow.bytes).sum

/-- What has been seen since the lane was last empty: nothing if it is. -/
def sinceIdle (fs : List Flow) : List Flow := fs.rtakeWhile fun f => !f.idle

/-- What has been seen since a dispatch last left the lane empty. -/
def sinceDrained (fs : List Flow) : List Flow := fs.rtakeWhile fun f => !f.drains

/-- If something else than a dispatch leaves the lane empty, nothing has gone out since it was
empty before. -/
def Tidy (fs : List Flow) : Prop :=
  ∀ before f after, fs = before ++ f :: after → f.idle → f.out = none →
    bytesOut (sinceIdle before) = 0

section

variable {fs front back : List Flow} {f : Flow}

theorem bytesOut_concat (fs : List Flow) (f : Flow) : bytesOut (fs ++ [f]) = bytesOut fs + f.bytes := by
  simp [bytesOut]

theorem bytesOut_sinceDrained_concat (fs : List Flow) (f : Flow) :
    bytesOut (sinceDrained (fs ++ [f])) =
      if f.drains then 0 else bytesOut (sinceDrained fs) + f.bytes := by
  unfold sinceDrained
  rw [List.rtakeWhile_concat]
  cases f.drains with
  | true => rfl
  | false => exact bytesOut_concat _ f

theorem bytesOut_sinceIdle_concat (fs : List Flow) (f : Flow) :
    bytesOut (sinceIdle (fs ++ [f])) =
      if f.idle then 0 else bytesOut (sinceIdle fs) + f.bytes := by
  unfold sinceIdle
  rw [List.rtakeWhile_concat]
  cases f.idle with
  | true => rfl
  | false => exact bytesOut_concat _ f

theorem tidy_iff : Tidy fs ↔ ∀ i, ∀ h : i < fs.length,
    fs[i].idle → fs[i].out = none → bytesOut (sinceIdle (fs.take i)) = 0 := by
  constructor
  · intro h i hi
    refine h (fs.take i) fs[i] (fs.drop (i + 1)) ?_
    rw [← List.drop_eq_getElem_cons hi, List.take_append_drop]
  · rintro h before f after rfl
    simpa using h before.length (by simp)

instance : Decidable (Tidy fs) := decidable_of_iff' _ tidy_iff

theorem Tidy.left (h : Tidy (front ++ back)) : Tidy front := by
  intro before f after split
  exact h before f (after ++ back) (by simp [split])

/-- Where only dispatches end periods in which something went out, it is the same since when one
counts. -/
theorem Tidy.bytesOut_eq (h : Tidy fs) :
    bytesOut (sinceDrained fs) = bytesOut (sinceIdle fs) := by
  induction fs using List.reverseRecOn with
  | nil => rfl
  | append_singleton fs f ih =>
    rw [bytesOut_sinceDrained_concat, bytesOut_sinceIdle_concat, ih h.left]
    -- Only where the lane is empty and nothing has gone out does it make a difference.
    cases idle : f.idle with
    | false => simp [Flow.drains, idle]
    | true =>
      cases out : f.out with
      | some n => simp [Flow.drains, idle, out]
      | none =>
        have none_out := h fs f [] rfl idle out
        simp [Flow.drains, Flow.bytes, idle, out, none_out]

end

theorem concat_split {α : Type} {xs front rest : List α} {x y : α}
    (h : xs ++ [x] = front ++ y :: rest) :
    (xs = front ∧ x = y ∧ rest = []) ∨ ∃ back, rest = back ++ [x] ∧ xs = front ++ y :: back := by
  rcases List.eq_nil_or_concat rest with rfl | ⟨back, o, rfl⟩
  · obtain ⟨before, tails⟩ := List.append_inj' h rfl
    exact .inl ⟨before, List.head_eq_of_cons_eq tails, rfl⟩
  · rw [List.concat_eq_append, ← List.cons_append, ← List.append_assoc] at h
    obtain ⟨before, tails⟩ := List.append_inj' h rfl
    obtain rfl := List.head_eq_of_cons_eq tails
    exact .inr ⟨back, List.concat_eq_append, before⟩

def Lane.account (l : Lane) : Nat × Option Nat := (l.served, l.learned)

theorem Lane.blind_account : Lane.Blind Lane.account := ⟨fun _ _ _ _ => rfl, fun _ _ => rfl⟩

/-- The account of a lane of which so much has been seen; sums of bytes wrap around. -/
structure Accounts (l : Lane) (fs : List Flow) : Prop where
  served : l.served = wrapWord (bytesOut (sinceDrained fs))
  learned : ∀ front f rest, fs = front ++ f :: rest → f.drains → (∀ g ∈ rest, ¬ g.drains) →
    l.learned = some (wrapWord (bytesOut (sinceDrained front) + f.bytes))
  unlearned : (∀ f ∈ fs, ¬ f.drains) → l.learned = none

/-- How the account of a lane follows what is seen of it. -/
def Lane.Follows (l l' : Lane) (f : Flow) : Prop :=
  l'.account = match f.out, f.idle with
    | none, _ => l.account
    | some n, true => (0, some (wrapAdd l.served n))
    | some n, false => (wrapAdd l.served n, l.learned)

theorem accounts_empty : Accounts .empty [] where
  served := rfl
  learned := fun front f rest split => by simp at split
  unlearned := fun _ => rfl

theorem Accounts.add {l l' : Lane} {fs : List Flow} {f : Flow} (h : Accounts l fs)
    (drains : f.drains = false) (served : l'.served = wrapWord (bytesOut (sinceDrained fs) + f.bytes))
    (learned : l'.learned = l.learned) : Accounts l' (fs ++ [f]) := by
  constructor
  case served =>
    rw [served, bytesOut_sinceDrained_concat, drains, if_neg Bool.false_ne_true]
  case unlearned =>
    intro none
    rw [learned]
    exact h.unlearned fun g hg => none g (List.mem_append_left _ hg)
  case learned =>
    intro front g rest split hg last
    rw [learned]
    rcases concat_split split with ⟨-, rfl, -⟩ | ⟨rest, rfl, before⟩
    · rw [drains] at hg
      cases hg
    · exact h.learned front g rest before hg fun o ho => last o (List.mem_append_left _ ho)

theorem Accounts.drain {l' : Lane} {fs : List Flow} {f : Flow} (drains : f.drains = true)
    (served : l'.served = 0)
    (learned : l'.learned = some (wrapWord (bytesOut (sinceDrained fs) + f.bytes))) :
    Accounts l' (fs ++ [f]) := by
  constructor
  case served =>
    rw [served, bytesOut_sinceDrained_concat, drains, if_pos rfl]
    rfl
  case unlearned => exact fun none => absurd drains (none f (by simp))
  case learned =>
    intro front g rest split hg last
    rcases concat_split split with ⟨rfl, rfl, -⟩ | ⟨rest, rfl, -⟩
    · exact learned
    · exact absurd drains (last f (by simp))

theorem Accounts.follow {l l' : Lane} {fs : List Flow} {f : Flow} (h : Accounts l fs)
    (follows : l.Follows l' f) : Accounts l' (fs ++ [f]) := by
  rcases f with ⟨_ | n, idle⟩
  · obtain ⟨served, learned⟩ := Prod.mk.inj follows
    exact h.add rfl (served.trans h.served) learned
  have total : wrapAdd l.served n = wrapWord (bytesOut (sinceDrained fs) + n) := by
    rw [h.served, wrapAdd_wrapWord_left]
  cases idle with
  | true =>
    obtain ⟨served, learned⟩ := Prod.mk.inj follows
    exact .drain rfl served (learned.trans (congrArg some total))
  | false =>
    obtain ⟨served, learned⟩ := Prod.mk.inj follows
    exact h.add rfl (served.trans total) learned

namespace Index

variable {x y : Index} {e : Entry} {n name : String} {d : Direction}

theorem Keeps.follows (h : Keeps Lane.account x y) (n : String) (d : Direction) (idle : Bool) :
    (x.lane n d).Follows (y.lane n d) ⟨none, idle⟩ := h n d

theorem recordDispatch_follows (h : Keeps Lane.account x y) (own : e.file = name) (now : Nat)
    (inQuantum synchronous : Bool) (n : String) (d : Direction) :
    let z := y.setFile ((y.fileOf name).recordDispatch e now inQuantum synchronous)
    (x.lane n d).Follows (z.lane n d) ⟨((some e).filter fun e => e.file = n ∧ e.direction = d).map
      Entry.length, (z.lane n d).entries.isEmpty⟩ := by
  intro z
  have account := reading_recordDispatch Lane.account y name e now inQuantum synchronous n d
  have entries := reading_recordDispatch Lane.entries y name e now inQuantum synchronous n d
  by_cases there : n = name ∧ d = e.direction
  · obtain ⟨rfl, rfl⟩ := there
    obtain ⟨served, learned⟩ := Prod.mk.inj (h n e.direction)
    rw [if_pos ⟨rfl, rfl⟩] at account entries
    have out : (some e).filter (fun e' => e'.file = n ∧ e'.direction = e.direction) = some e := by
      simp [own]
    have idle : (z.lane n e.direction).entries = ((y.fileOf n).lane e.direction).entries := entries
    rw [out, idle]
    unfold Lane.Follows
    change Lane.account (z.lane n e.direction) = _ at account
    rw [account]
    unfold Lane.recordDispatch Lane.account
    cases ((y.fileOf n).lane e.direction).entries.isEmpty with
    | true => simp [served, lane]
    | false => simp [served, learned, lane]
  · have out : (some e).filter (fun e' => e'.file = n ∧ e'.direction = d) = none := by
      refine Option.filter_eq_none_iff.mpr fun o ho both => there ?_
      obtain rfl := Option.some.inj ho
      obtain ⟨rfl, rfl⟩ := of_decide_eq_true both
      exact ⟨own, rfl⟩
    rw [if_neg there] at account
    rw [out]
    exact account.trans (h n d)

end Index

/-- The entry that an action takes out of its index to be handed over. -/
def Core.leaving? (c : Core) : Action → Option Entry
  | .dispatch _ file d i _ _ => (c.index.detach? file d i).map Prod.fst
  | .dispatchHead _ _ => c.timeline.pop?.map Prod.fst
  | _ => none

namespace System

def flow (s : System) (file : String) (d : Direction) (a : Action) : Flow where
  out := ((s.core.leaving? a).filter fun e => e.file = file ∧ e.direction = d).map Entry.length
  idle := ((s.act a).core.index.lane file d).entries.isEmpty

def flows (s : System) (file : String) (d : Direction) : List Action → List Flow
  | [] => []
  | a :: actions => s.flow file d a :: (s.act a).flows file d actions

variable {s : System} {file : String} {d : Direction} {a : Action}

theorem flows_concat (s : System) (file : String) (d : Direction) (actions : List Action)
    (a : Action) : s.flows file d (actions ++ [a]) =
      s.flows file d actions ++ [(actions.foldl act s).flow file d a] := by
  induction actions generalizing s with
  | nil => rfl
  | cons b actions ih => exact congrArg (_ :: ·) (ih (s.act b))

section

variable {β : Type} {π : Lane → β} {e : Entry}

theorem act_keeps (blind : Lane.Blind π)
    (unrecorded : ∀ (l : Lane) (hs : List HandedOut), π { l with handedOut := hs } = π l)
    (h : s.core.InStep) (still : s.core.leaving? a = none)
    (untallied : a = .reset → ∀ l : Lane, π { l with tally := l.tally.reset } = π l) :
    Index.Keeps π s.core.index (s.act a).core.index := by
  cases a with
  | submit now call =>
    rw [act, core_submit]
    exact Core.submit_keeps blind s.core now call
  | settle i =>
    change Index.Keeps _ _ (s.settle i).core.index
    unfold settle
    split <;> exact .refl _ _
  | complete now a => exact Core.complete_keeps blind unrecorded s.core now a
  | cancel a =>
    rw [act, core_cancel]
    exact (Core.cancel_reads (FileState.unpending_through blind.waiting) s.core a).keeps
  | migrate k => exact Core.migrate_keeps blind h k
  | dispatch now file d i k inQuantum =>
    have none : s.core.dispatch? now file d i k inQuantum = none :=
      Option.map_eq_none_iff.mpr (Option.map_eq_none_iff.mp still)
    rw [act, none]
    exact .refl _ _
  | dispatchHead now k =>
    have none : s.core.dispatchHead? now k = none :=
      Option.map_eq_none_iff.mpr (Option.map_eq_none_iff.mp still)
    rw [act, none]
    exact .refl _ _
  | handOver i =>
    change Index.Keeps _ _ (s.handOver i).core.index
    unfold handOver
    split <;> exact .refl _ _
  | steer file t => exact Core.steer_keeps blind s.core file t
  | stop => exact .refl _ _
  | reset =>
    have same (f : FileState) : f.resetTallies.through π = f.through π := by
      funext d
      cases d <;> exact untallied rfl _
    exact (Core.reset_reads s.core same).keeps

theorem act_records (blind : Lane.Blind π) (h : s.core.InStep) (out : s.core.leaving? a = some e) :
    ∃ (y : Index) (now : Nat) (inQuantum synchronous : Bool), Index.Keeps π s.core.index y ∧
      (s.act a).core.index =
        y.setFile ((y.fileOf e.file).recordDispatch e now inQuantum synchronous) := by
  cases a with
  | dispatch now file d i k inQuantum =>
    obtain ⟨⟨e, y⟩, he, rfl⟩ := Option.map_eq_some_iff.mp out
    have went : s.core.dispatch? now file d i k inQuantum = some (e.requests,
        { s.core with index := y }.recordDispatch now file e k inQuantum) := by
      rw [Core.dispatch?, he]
      rfl
    obtain ⟨f, counts, -, hf, -⟩ := Index.detach?_some he
    obtain ⟨l, hl, -, -⟩ := FileState.detach?_some hf
    have lane := (h.index.file file).lane d
    rw [Index.file_fileOf] at lane
    obtain ⟨rfl, -⟩ := (lane.queue.entries e (List.mem_of_getElem? (Lane.detach?_some hl).1)).own
    refine ⟨y, now, inQuantum, k.profile.synchronous, Index.detach?_keeps blind he, ?_⟩
    rw [act, went]
    rfl
  | dispatchHead now k =>
    obtain ⟨⟨e, timeline⟩, he, rfl⟩ := Option.map_eq_some_iff.mp out
    have went : s.core.dispatchHead? now k = some (e.requests, { s.core with
        index := s.core.index.noteTimelineRemove e.file e.count
        timeline := timeline }.recordDispatch now e.file e k false) := by
      rw [Core.dispatchHead?, he]
      rfl
    refine ⟨_, now, false, k.profile.synchronous,
      Index.noteTimelineRemove_keeps π s.core.index e.file e.count, ?_⟩
    rw [act, went]
    rfl
  | submit | settle | complete | cancel | migrate | handOver | steer | stop | reset => cases out

end

theorem act_follows (h : s.core.InStep) (file : String) (d : Direction) (a : Action) :
    (s.core.index.lane file d).Follows ((s.act a).core.index.lane file d) (s.flow file d a) := by
  cases out : s.core.leaving? a with
  | none =>
    have unseen : s.flow file d a = ⟨none, (s.flow file d a).idle⟩ := by
      unfold flow
      rw [out]
      rfl
    rw [unseen]
    exact (act_keeps Lane.blind_account (fun _ _ => rfl) h out fun _ _ => rfl).follows file d _
  | some e =>
    obtain ⟨y, now, inQuantum, synchronous, keeps, form⟩ := act_records Lane.blind_account h out
    unfold flow
    rw [out, form]
    exact Index.recordDispatch_follows keeps rfl now inQuantum synchronous file d

theorem run_accounts (setup : Setup) (actions : List Action) (file : String) (d : Direction) :
    Accounts ((run setup actions).core.index.lane file d)
      ((start setup).flows file d actions) := by
  induction actions using List.reverseRecOn with
  | nil =>
    have fresh : (run setup []).core.index.lane file d = .empty := by cases d <;> rfl
    rw [fresh]
    exact accounts_empty
  | append_singleton actions a ih =>
    rw [flows_concat, run_concat]
    exact ih.follow (act_follows (run_inStep setup actions) file d a)

theorem sinceIdle_of_idle (setup : Setup) (actions : List Action)
    (idle : ((run setup actions).core.index.lane file d).entries = []) :
    sinceIdle ((start setup).flows file d actions) = [] := by
  rcases List.eq_nil_or_concat actions with rfl | ⟨before, a, rfl⟩
  · rfl
  · rw [List.concat_eq_append, run_concat] at idle
    have last : ((run setup before).flow file d a).idle := List.isEmpty_iff.mpr idle
    rw [List.concat_eq_append, flows_concat, sinceIdle]
    refine List.rtakeWhile_concat_neg _ _ _ fun busy => ?_
    change (!((run setup before).flow file d a).idle) = true at busy
    rw [last] at busy
    cases busy

/-- What a lane counts as served in the course of a run, and what it learns from it. -/
structure CountsServed (setup : Setup) (actions : List Action) (file : String) (d : Direction) :
    Prop where
  accounts : Accounts ((run setup actions).core.index.lane file d)
    ((start setup).flows file d actions)
  idle : ((run setup actions).core.index.lane file d).entries = [] →
    sinceIdle ((start setup).flows file d actions) = []
  /-- The bytes of the current period, if only dispatches have ended those in which some went out. -/
  served : Tidy ((start setup).flows file d actions) →
    ((run setup actions).core.index.lane file d).served =
      wrapWord (bytesOut (sinceIdle ((start setup).flows file d actions)))
  learned : Tidy ((start setup).flows file d actions) → ∀ front f rest,
    (start setup).flows file d actions = front ++ f :: rest → f.drains →
      (∀ g ∈ rest, ¬ g.drains) → ((run setup actions).core.index.lane file d).learned =
        some (wrapWord (bytesOut (sinceIdle front) + f.bytes))

/-- A lane counts as served what has gone out since a dispatch last left it empty. That is what has
gone out since it was last empty, unless something else has left it empty after a dispatch. -/
theorem run_counts_served (setup : Setup) (actions : List Action) (file : String) (d : Direction) :
    CountsServed setup actions file d := by
  have accounts := run_accounts setup actions file d
  constructor
  case accounts => exact accounts
  case idle => exact sinceIdle_of_idle setup actions
  case served =>
    intro tidy
    rw [accounts.served, tidy.bytesOut_eq]
  case learned =>
    intro tidy front f rest split drains last
    rw [accounts.learned front f rest split drains last]
    rw [split] at tidy
    rw [tidy.left.bytesOut_eq]

/-- A busy period of two dispatches, and one in which a request is withdrawn while another one stays
behind: only dispatches have left the lane empty. -/
theorem counts_two_periods :
    let setup : Setup := .of { Config.defaults with defaultPolicy := "SJF" } .one 1
    let first : List Action :=
      [.submit 0 ⟨"f", .read, 0, 10, 0, 0⟩, .submit 0 ⟨"f", .read, 100, 20, 0, 0⟩,
        .dispatch 0 "f" .read 0 .shortestJob false]
    let last : Action := .dispatch 0 "f" .read 0 .shortestJob false
    let second : List Action :=
      [.submit 1 ⟨"f", .read, 0, 7, 0, 0⟩, .submit 1 ⟨"f", .read, 100, 8, 0, 0⟩,
        .submit 1 ⟨"f", .read, 200, 9, 0, 0⟩, .dispatch 1 "f" .read 0 .shortestJob false,
        .cancel ⟨"f", .read, 100, 8⟩]
    let actions := first ++ last :: second
    Tidy ((start setup).flows "f" .read actions) ∧
      ((run setup actions).core.index.lane "f" .read).served = 7 ∧
      ((run setup actions).core.index.lane "f" .read).learned = some 30 := by
  intro setup first last second actions
  have counts := run_counts_served setup actions "f" .read
  have tidy : Tidy ((start setup).flows "f" .read actions) := by decide +kernel
  let front := (start setup).flows "f" .read first
  let rest := (run setup (first ++ [last])).flows "f" .read second
  have split : (start setup).flows "f" .read actions = front ++ ⟨some 20, true⟩ :: rest := by
    decide +kernel
  have learned := counts.learned tidy front ⟨some 20, true⟩ rest split rfl (by decide +kernel)
  exact ⟨tidy, (counts.served tidy).trans (by decide +kernel), learned.trans (by decide +kernel)⟩

/-- The second request is withdrawn after the first one has gone out; the bytes of the first are
still counted when the lane is empty, and they are learned with those of the third one. -/
theorem bytes_carried_over :
    let setup : Setup := .of { Config.defaults with defaultPolicy := "SJF" } .one 1
    let actions : List Action :=
      [.submit 0 ⟨"f", .read, 0, 10, 0, 0⟩, .submit 0 ⟨"f", .read, 100, 10, 0, 0⟩,
        .dispatch 0 "f" .read 0 .shortestJob false, .cancel ⟨"f", .read, 100, 10⟩]
    let later : List Action :=
      [.submit 0 ⟨"f", .read, 200, 10, 0, 0⟩, .dispatch 0 "f" .read 0 .shortestJob false]
    ((run setup actions).core.index.lane "f" .read).entries = [] ∧
      ((run setup actions).core.index.lane "f" .read).served = 10 ∧
      bytesOut (sinceIdle ((start setup).flows "f" .read actions)) = 0 ∧
      ((run setup (actions ++ later)).core.index.lane "f" .read).learned = some 20 := by
  decide +kernel

end System

end IoScheduling
