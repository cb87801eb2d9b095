import IoScheduling.Proofs.Agreement
import IoScheduling.Proofs.Releases
import IoScheduling.Proofs.Samples
import IoScheduling.Service.Checksum

/-! # Periods between selections

While a meta-policy is in charge, each of its selections ends a period and begins the next. An
observer who knows the clock, and what is released when, writes down each period: its policy, its
beginning and end, and the lengths of the requests released in it. The dispatcher keeps no such
record. It has the time of the last selection and two counts in the core, and its measurements are
held against the record here. -/
namespace IoScheduling

open Outside (Call)

structure Period where
  policy : PolicyKind
  since : Nat
  till : Nat
  lengths : List Nat
  deriving DecidableEq

def Period.record (b : Bandwidth) (p : Period) : Bandwidth :=
  b.record p.policy p.lengths.sum (p.till - p.since) p.till

/-- The time in which a meta-policy is in charge. -/
structure Charge where
  known : Bandwidth
  installed : Nat
  /-- The lengths of the requests released before. -/
  earlier : List Nat
  ended : List Period
  policy : PolicyKind
  since : Nat

namespace Charge

def begin (known : Bandwidth) (policy : PolicyKind) (now : Nat) (released : List Nat) : Charge :=
  ⟨known, now, released, [], policy, now⟩

def counted (c : Charge) : List Nat := c.earlier ++ c.ended.flatMap Period.lengths

/-- What was released in the running period, given all that was released. -/
def running (c : Charge) (released : List Nat) : List Nat := released.drop c.counted.length

/-- Whether another selection may be made: the running period has lasted long enough, and enough
requests have been released in it. -/
def isDue (c : Charge) (config : Config) (now : Nat) (released : List Nat) : Bool :=
  nsOfMs config.selectPeriodMs ≤ now - c.since &&
    config.minRequestsBeforeSelection ≤ (c.running released).length

def close (c : Charge) (selected : PolicyKind) (now : Nat) (released : List Nat) : Charge :=
  { c with
    ended := c.ended ++ [⟨c.policy, c.since, now, c.running released⟩]
    policy := selected
    since := now }

end Charge

/-- A dispatcher at work on a core, and the record of an observer. -/
structure Chronicle where
  dispatcher : Dispatcher
  session : Session Metered
  charge : Option Charge

namespace Chronicle

inductive Operation where
  | call (c : Call)
  | check
  | runOnce (limit : Nat)

abbrev host (g : Circumstances) : Host Metered := g.metered (Metered.takeOccasion g)

def reading (g : Circumstances) (h : Chronicle) : Nat := g.reading h.session.world.readings

def chargeAfter (g : Circumstances) (h : Chronicle) (selected : PolicyKind) : Option Charge :=
  let released := h.session.world.released
  match h.session.core.forced with
  | some k =>
    if k.profile.isMeta then
      some (.begin h.dispatcher.bandwidth selected (h.reading g) released)
    else none
  | none => h.charge.map fun c =>
    if c.isDue h.session.core.config (h.reading g) released then
      c.close selected (h.reading g) released
    else c

def start (g : Circumstances) (setup : Setup) (script : List (List Call)) : Chronicle :=
  let (d, s) := Dispatcher.start (host g) ⟨.start setup, .start script⟩
  let nothing : Bandwidth := .empty (nsOfMs setup.config.performanceValidityMs)
  -- The first reading is taken before the meta-policy is put in charge.
  ⟨d, s, if setup.config.startingKind.profile.isMeta then
    some (.begin nothing d.policy.kind (g.reading 1) [])
    else none⟩

def step (g : Circumstances) (h : Chronicle) : Operation → Chronicle
  | .call c => { h with session := Metered.perform g c h.session }
  | .check =>
    let (d, s) := h.dispatcher.checkMigration (host g) h.session
    ⟨d, s, h.chargeAfter g d.policy.kind⟩
  | .runOnce limit =>
    let (d, result) := h.dispatcher.runOnce (host g) limit h.session
    { h with dispatcher := d, session := result.session }

def run (g : Circumstances) (setup : Setup) (script : List (List Call)) (ops : List Operation) :
    Chronicle :=
  ops.foldl (step g) (start g setup script)

end Chronicle

namespace Dispatcher

variable {ω : Type}

structure Carries (d : Dispatcher) (s : Session ω) (x : Dispatcher × Session ω) : Prop where
  selector : x.1.selector = d.selector
  bandwidth : x.1.bandwidth = d.bandwidth
  lastSelection : x.1.lastSelection = d.lastSelection
  world : x.2.world = s.world
  setup : x.2.core.setup = s.core.setup
  requests : x.2.core.periodRequests = s.core.periodRequests
  bytes : x.2.core.periodBytes = s.core.periodBytes

theorem ensure_carries (d : Dispatcher) (k : PolicyKind) (s : Session ω) :
    Carries d s (d.ensure k s) := by
  unfold ensure
  split
  · exact ⟨rfl, rfl, rfl, rfl, rfl, rfl, rfl⟩
  · have setup := congrArg Prod.fst (s.core.post_migrate k)
    have requests := congrArg Core.periodRequests (s.core.aside_transfer k)
    have bytes := congrArg Core.periodBytes (s.core.aside_transfer k)
    exact ⟨rfl, rfl, rfl, rfl, setup, requests, bytes⟩

end Dispatcher

namespace Charge

variable {config : Config} {c : Charge} {d d' : Dispatcher} {s s' : Session Metered} {now : Nat}

/-- What the dispatcher goes by agrees with the record. The measurements do as long as no sum of
bytes leaves the range of words. -/
structure Kept (config : Config) (c : Charge) (d : Dispatcher) (s : Session Metered) : Prop where
  policy : d.policy.kind = c.policy
  since : d.lastSelection = c.since
  counts : Counted s.core.post c.counted s
  measured : c.counted.sum < wordCount → d.bandwidth = c.ended.foldl Period.record c.known
  adjacent : c.ended.map Period.since ++ [c.since] = c.installed :: c.ended.map Period.till
  long : ∀ p ∈ c.ended, nsOfMs config.selectPeriodMs ≤ p.till - p.since ∧
    config.minRequestsBeforeSelection ≤ p.lengths.length

theorem Kept.written (h : c.Kept config d s) :
    s.world.released = c.counted ++ c.running s.world.released ∧
      s.core.periodRequests = (c.running s.world.released).length ∧
      s.core.periodBytes = (c.running s.world.released).sum := by
  obtain ⟨lengths, written, counts⟩ := h.counts.counts
  have same : c.running s.world.released = lengths := by
    rw [running, written, List.drop_left]
  rw [same]
  exact ⟨written, counts⟩

theorem counted_close (c : Charge) (k : PolicyKind) (now : Nat) (released : List Nat) :
    (c.close k now released).counted = c.counted ++ c.running released := by
  simp [counted, close]

/-- The dispatcher makes a selection just when the record says that one is due. -/
theorem Kept.isDue_eq (h : c.Kept s.core.config d s) (now : Nat) :
    d.isDue now s.core = c.isDue s.core.config now s.world.released := by
  obtain ⟨-, requests, -⟩ := h.written
  rw [Dispatcher.isDue, isDue, h.since, requests]

theorem kept_begin (config : Config) {known : Bandwidth} {released : List Nat}
    (bandwidth : d.bandwidth = known) (since : d.lastSelection = now)
    (written : s.world.released = released) (requests : s.core.periodRequests = 0)
    (bytes : s.core.periodBytes = 0) : (begin known d.policy.kind now released).Kept config d s where
  policy := rfl
  since := since
  counts := by
    refine ⟨rfl, [], ?_, requests, bytes⟩
    simp [counted, begin, written]
  measured := fun _ => bandwidth
  adjacent := rfl
  long := nofun

theorem Kept.close (h : c.Kept config d s) (due : c.isDue config now s.world.released)
    (since : d'.lastSelection = now)
    (bandwidth : d'.bandwidth = d.bandwidth.record d.policy.kind (wrapWord s.core.periodBytes)
      (now - d.lastSelection) now)
    (released : s'.world.released = s.world.released) (requests : s'.core.periodRequests = 0)
    (bytes : s'.core.periodBytes = 0) :
    (c.close d'.policy.kind now s.world.released).Kept config d' s' := by
  obtain ⟨written, -, sum⟩ := h.written
  have counted := c.counted_close d'.policy.kind now s.world.released
  obtain ⟨lasted, enough⟩ := Bool.and_eq_true_iff.mp due
  constructor
  case policy => rfl
  case since => exact since
  case counts =>
    refine ⟨rfl, [], ?_, requests, bytes⟩
    rw [List.append_nil, counted, ← written]
    exact released
  case measured =>
    intro small
    rw [counted, List.sum_append] at small
    have before := h.measured (by omega)
    have whole : wrapWord s.core.periodBytes = (c.running s.world.released).sum := by
      rw [sum]
      exact wrapWord_eq (by omega)
    rw [bandwidth, before, h.policy, whole, h.since]
    let p : Period := ⟨c.policy, c.since, now, c.running s.world.released⟩
    exact (List.foldl_concat Period.record c.known p c.ended).symm
  case adjacent =>
    change (c.ended ++ [_]).map Period.since ++ [now] = c.installed :: (c.ended ++ [_]).map Period.till
    rw [List.map_append, List.map_append, ← List.cons_append, ← h.adjacent]
    rfl
  case long =>
    intro p hp
    rcases List.mem_append.mp hp with old | new
    · exact h.long p old
    · rw [List.mem_singleton.mp new]
      exact ⟨of_decide_eq_true lasted, of_decide_eq_true enough⟩

theorem Kept.move (h : c.Kept config d s) (counts : Counted s.core.post c.counted s')
    (kind : d'.policy.kind = d.policy.kind) (bandwidth : d'.bandwidth = d.bandwidth)
    (since : d'.lastSelection = d.lastSelection) : c.Kept config d' s' where
  policy := kind.trans h.policy
  since := since.trans h.since
  counts := counts.post ▸ counts
  measured := fun small => bandwidth.trans (h.measured small)
  adjacent := h.adjacent
  long := h.long

end Charge

namespace Chronicle

open Dispatcher (InLine)

variable {g : Circumstances} {setup : Setup} {h : Chronicle} {c : Charge} {k : PolicyKind}

structure Steady (setup : Setup) (h : Chronicle) : Prop where
  fixed : h.session.core.setup = setup
  counts : ∃ before, Counted h.session.core.post before h.session
  charged : h.dispatcher.selector.isSome = h.charge.isSome
  kept : ∀ c, h.charge = some c → c.Kept setup.config h.dispatcher h.session

theorem Steady.move (steady : Steady setup h) {d : Dispatcher} {s : Session Metered}
    (counts : ∀ before, Counted h.session.core.post before h.session →
      Counted h.session.core.post before s)
    (kind : d.policy.kind = h.dispatcher.policy.kind)
    (selector : d.selector = h.dispatcher.selector)
    (bandwidth : d.bandwidth = h.dispatcher.bandwidth)
    (since : d.lastSelection = h.dispatcher.lastSelection) : Steady setup ⟨d, s, h.charge⟩ := by
  obtain ⟨before, counted⟩ := steady.counts
  have post := (counts before counted).post
  constructor
  case fixed => exact (congrArg Prod.fst post).trans steady.fixed
  case counts => exact ⟨before, post ▸ counts before counted⟩
  case charged => exact (congrArg Option.isSome selector).trans steady.charged
  case kept =>
    intro c hc
    have kept := steady.kept c hc
    exact kept.move (counts c.counted kept.counts) kind bandwidth since

theorem call_counted {p : Setup × PolicyKind} {before : List Nat} (c : Call)
    (counted : Counted p before h.session) : Counted p before (h.step g (.call c)).session :=
  Metered.perform_counted c counted

theorem runOnce_counted {p : Setup × PolicyKind} {before : List Nat} (limit : Nat)
    (counted : Counted p before h.session) : Counted p before (h.step g (.runOnce limit)).session :=
  Policy.schedule_keeps (Metered.keeps_counted g p before) h.dispatcher.policy limit counted

theorem Steady.call (steady : Steady setup h) (c : Call) : Steady setup (h.step g (.call c)) :=
  steady.move (fun _ => call_counted c) rfl rfl rfl rfl

theorem Steady.runOnce (steady : Steady setup h) (limit : Nat) :
    Steady setup (h.step g (.runOnce limit)) :=
  steady.move (d := (h.dispatcher.runOnce (host g) limit h.session).1)
    (fun _ => runOnce_counted limit)
    (Policy.kind_schedule (host g) limit h.dispatcher.policy h.session) rfl rfl rfl

theorem steady_install {d : Dispatcher} {s : Session Metered} (fixed : s.core.setup = setup)
    (k : PolicyKind) :
    Steady setup ⟨(d.install (host g) k s).1, (d.install (host g) k s).2,
      some (.begin d.bandwidth (d.install (host g) k s).1.policy.kind (s.now (host g)).1
        s.world.released)⟩ := by
  let x := Selector.ofKind s.core.config k
  have carries := Dispatcher.ensure_carries
    { d with selector := some x, lastSelection := (s.now (host g)).1 } x.initial
    ((s.now (host g)).2.mapCore fun c => c.takePeriod.2)
  have kept := Charge.kept_begin setup.config carries.bandwidth carries.lastSelection
    (congrArg Metered.released carries.world) carries.requests carries.bytes
  constructor
  case fixed => exact carries.setup.trans fixed
  case counts => exact ⟨_, kept.counts⟩
  case charged => exact congrArg Option.isSome carries.selector
  case kept =>
    rintro _ ⟨⟩
    exact kept

theorem steady_start (g : Circumstances) (setup : Setup) (script : List (List Call)) :
    Steady setup (start g setup script) := by
  let begun : Dispatcher :=
    { policy := .ofKind setup (Core.start setup).active
      selector := none
      bandwidth := .empty (nsOfMs setup.config.performanceValidityMs)
      lastSelection := g.reading 0 }
  let s : Session Metered := ⟨.start setup, { Metered.start script with readings := 1 }⟩
  unfold start
  by_cases isMeta : setup.config.startingKind.profile.isMeta
  · have begins : Dispatcher.start (host g) ⟨.start setup, .start script⟩ =
        begun.install (host g) setup.config.startingKind s := if_pos isMeta
    rw [begins]
    dsimp only
    rw [if_pos isMeta]
    exact steady_install (d := begun) (s := s) rfl setup.config.startingKind
  · have begins : Dispatcher.start (host g) ⟨.start setup, .start script⟩ = (begun, s) :=
      if_neg isMeta
    rw [begins]
    dsimp only
    rw [if_neg isMeta]
    exact ⟨rfl, ⟨[], rfl, [], rfl, rfl, rfl⟩, rfl, nofun⟩

theorem Steady.taken (steady : Steady setup h) (hf : h.session.core.forced = some k) :
    Steady setup (h.step g .check) := by
  let s := h.session.mapCore fun c => { c with forced := none }
  have takes : h.dispatcher.checkMigration (host g) h.session =
      h.dispatcher.takeForced (host g) k s := by
    rw [Dispatcher.checkMigration, hf]
  unfold step chargeAfter
  dsimp only
  rw [takes, hf]
  by_cases isMeta : k.profile.isMeta
  · have installs : h.dispatcher.takeForced (host g) k s = h.dispatcher.install (host g) k s :=
      if_pos isMeta
    rw [installs]
    dsimp only
    rw [if_pos isMeta]
    exact steady_install (s := s) steady.fixed k
  · let free : Dispatcher := { h.dispatcher with selector := none }
    have ensures : h.dispatcher.takeForced (host g) k s = free.ensure k s := if_neg isMeta
    have carries := Dispatcher.ensure_carries free k s
    obtain ⟨before, counted⟩ := steady.counts
    rw [ensures]
    dsimp only
    rw [if_neg isMeta]
    constructor
    case fixed => exact carries.setup.trans steady.fixed
    case counts =>
      have written := congrArg Metered.released carries.world
      exact ⟨before, counted.elsewhere written carries.requests carries.bytes⟩
    case charged => exact congrArg Option.isSome carries.selector
    case kept => exact nofun

theorem Steady.selects (steady : Steady setup h) (x : Selector) (hc : h.charge = some c)
    (due : c.isDue setup.config (h.reading g) h.session.world.released) :
    let after := h.dispatcher.reselect (host g) x (h.reading g) (h.session.now (host g)).2
    Steady setup ⟨after.1, after.2,
      some (c.close after.1.policy.kind (h.reading g) h.session.world.released)⟩ := by
  intro after
  let bandwidth := h.dispatcher.bandwidth.record h.dispatcher.policy.kind
    (wrapWord h.session.core.periodBytes) (h.reading g - h.dispatcher.lastSelection) (h.reading g)
  let cleared : Session Metered :=
    { (h.session.now (host g)).2 with core := (h.session.now (host g)).2.core.takePeriod.2 }
  let selection := x.next (host g) bandwidth cleared
  have core : selection.2.2.core = cleared.core := by
    cases x <;> rfl
  have unwritten : selection.2.2.world.released = h.session.world.released := by
    cases x <;> rfl
  have carries := Dispatcher.ensure_carries
    { h.dispatcher with
      selector := some selection.2.1
      bandwidth := bandwidth
      lastSelection := h.reading g } selection.1 selection.2.2
  have kept := (steady.kept c hc).close due carries.lastSelection carries.bandwidth
    ((congrArg Metered.released carries.world).trans unwritten)
    (carries.requests.trans (congrArg Core.periodRequests core))
    (carries.bytes.trans (congrArg Core.periodBytes core))
  constructor
  case fixed => exact carries.setup.trans ((congrArg Core.setup core).trans steady.fixed)
  case counts => exact ⟨_, kept.counts⟩
  case charged => exact congrArg Option.isSome carries.selector
  case kept =>
    rintro _ ⟨⟩
    exact kept

theorem Steady.checks (steady : Steady setup h) (hf : h.session.core.forced = none)
    (hc : h.charge = some c) : ∃ x, h.dispatcher.checkMigration (host g) h.session =
      if c.isDue h.session.core.config (h.reading g) h.session.world.released then
        h.dispatcher.reselect (host g) x (h.reading g) (h.session.now (host g)).2
      else (h.dispatcher, (h.session.now (host g)).2) := by
  have charged := steady.charged
  rw [hc] at charged
  obtain ⟨x, hx⟩ := Option.isSome_iff_exists.mp charged
  have config : h.session.core.config = setup.config := congrArg Setup.config steady.fixed
  have same : h.dispatcher.isDue (h.session.now (host g)).1 (h.session.now (host g)).2.core =
      c.isDue h.session.core.config (h.reading g) h.session.world.released :=
    Charge.Kept.isDue_eq (s := h.session) (config ▸ steady.kept c hc) (h.reading g)
  refine ⟨x, ?_⟩
  rw [Dispatcher.checkMigration, hf, hx]
  dsimp only
  rw [same]
  rfl

theorem Steady.untaken (steady : Steady setup h) (hf : h.session.core.forced = none) :
    Steady setup (h.step g .check) := by
  cases hc : h.charge with
  | none =>
    have charged := steady.charged
    rw [hc] at charged
    have free : h.dispatcher.selector = none := by
      cases hx : h.dispatcher.selector with
      | none => rfl
      | some x =>
        rw [hx] at charged
        cases charged
    have takes : h.dispatcher.checkMigration (host g) h.session = (h.dispatcher, h.session) := by
      rw [Dispatcher.checkMigration, hf, free]
    have record (k : PolicyKind) : h.chargeAfter g k = none := by
      rw [chargeAfter, hf, hc]
      rfl
    unfold step
    dsimp only
    rw [takes]
    dsimp only
    rw [record, ← hc]
    exact steady
  | some c =>
    obtain ⟨x, checks⟩ := steady.checks (g := g) hf hc
    have config : h.session.core.config = setup.config := congrArg Setup.config steady.fixed
    unfold step chargeAfter
    dsimp only
    rw [checks, hf, hc]
    dsimp only [Option.map_some]
    by_cases due : c.isDue h.session.core.config (h.reading g) h.session.world.released
    · rw [if_pos due, if_pos due]
      exact steady.selects x hc (config ▸ due)
    · rw [if_neg due, if_neg due, ← hc]
      exact steady.move (s := (h.session.now (host g)).2) (fun _ counted => counted.passTime rfl)
        rfl rfl rfl rfl

theorem Steady.step (steady : Steady setup h) (x : Operation) : Steady setup (h.step g x) := by
  cases x with
  | call c => exact steady.call c
  | runOnce limit => exact steady.runOnce limit
  | check =>
    cases hf : h.session.core.forced with
    | none => exact steady.untaken hf
    | some k => exact steady.taken hf

theorem run_steady (g : Circumstances) (setup : Setup) (script : List (List Call))
    (ops : List Operation) : Steady setup (run g setup script ops) :=
  List.foldlRecOn (motive := Steady setup) ops (step g) (steady_start g setup script)
    fun _ steady x _ => steady.step x

/-- The operation ends the running period: it is a check, and the period has lasted long enough and
enough requests have been released in it. -/
def Ends (g : Circumstances) (h : Chronicle) (c : Charge) (x : Operation) : Prop :=
  x = .check ∧ c.isDue h.session.core.config (h.reading g) h.session.world.released

variable {x : Operation}

theorem charge_step (hc : h.charge = some c)
    (untaken : x = .check → h.session.core.forced = none) :
    (¬ h.Ends g c x → (h.step g x).charge = some c) ∧
      (h.Ends g c x → (h.step g x).charge = some (c.close (h.step g x).dispatcher.policy.kind
        (h.reading g) h.session.world.released)) := by
  cases x with
  | call _ => exact ⟨fun _ => hc, fun ends => nomatch ends.1⟩
  | runOnce _ => exact ⟨fun _ => hc, fun ends => nomatch ends.1⟩
  | check =>
    have form : (h.step g .check).charge =
        if c.isDue h.session.core.config (h.reading g) h.session.world.released then
          some (c.close (h.step g .check).dispatcher.policy.kind (h.reading g)
            h.session.world.released)
        else some c := by
      change h.chargeAfter g (h.step g .check).dispatcher.policy.kind = _
      unfold chargeAfter
      rw [untaken rfl, hc]
      exact apply_ite some _ _ _
    rw [form]
    constructor
    · intro ongoing
      exact if_neg fun due => ongoing ⟨rfl, due⟩
    · intro ends
      exact if_pos ends.2

theorem Steady.post_step (steady : Steady setup h) (hc : h.charge = some c)
    (untaken : x = .check → h.session.core.forced = none) (ongoing : ¬ h.Ends g c x) :
    (h.step g x).session.core.post = h.session.core.post := by
  obtain ⟨before, counted⟩ := steady.counts
  cases x with
  | call _ => exact (call_counted _ counted).post
  | runOnce _ => exact (runOnce_counted _ counted).post
  | check =>
    obtain ⟨x, checks⟩ := steady.checks (g := g) (untaken rfl) hc
    have stays : h.dispatcher.checkMigration (host g) h.session =
        (h.dispatcher, (h.session.now (host g)).2) := by
      rw [checks, if_neg fun due => ongoing ⟨rfl, due⟩]
    unfold Chronicle.step
    dsimp only
    rw [stays]
    rfl

theorem inLine_step (inLine : InLine setup h.dispatcher h.session)
    (config : setup.config.defaultKind.Direct)
    (counts : ∃ before, Counted h.session.core.post before h.session) (x : Operation) :
    InLine setup (h.step g x).dispatcher (h.step g x).session := by
  obtain ⟨before, counted⟩ := counts
  cases x with
  | call c => exact inLine.move (call_counted c counted).post rfl rfl
  | runOnce limit =>
    have kind := Policy.kind_schedule (host g) limit h.dispatcher.policy h.session
    exact inLine.move (runOnce_counted limit counted).post kind rfl
  | check => exact (inLine.checkMigration (host g) config).1

theorem run_inLine (config : setup.config.defaultKind.Direct) (g : Circumstances)
    (script : List (List Call)) (ops : List Operation) :
    InLine setup (run g setup script ops).dispatcher (run g setup script ops).session := by
  have begun := Dispatcher.inLine_start (host g) (s := ⟨.start setup, .start script⟩)
    (Config.direct_initialKind config) config
  have both : Steady setup (run g setup script ops) ∧
      InLine setup (run g setup script ops).dispatcher (run g setup script ops).session := by
    refine List.foldlRecOn (motive := fun h : Chronicle =>
      Steady setup h ∧ InLine setup h.dispatcher h.session) ops (step g)
      ⟨steady_start g setup script, begun.1⟩ ?_
    rintro h ⟨steady, inLine⟩ x -
    exact ⟨steady.step x, inLine_step inLine config steady.counts x⟩
  exact both.2

/-- The periods of a charge lie end to end from its installation on, and so do the releases. Each
period that has ended gave one measurement, of its own length and releases; and the next operation
changes policy and measurements only if it ends the running one. -/
structure Tiles (g : Circumstances) (setup : Setup) (h : Chronicle) (c : Charge) (x : Operation) :
    Prop where
  policy : h.dispatcher.policy.kind = c.policy
  active : setup.config.defaultKind.Direct → h.session.core.active = c.policy
  adjacent : c.ended.map Period.since ++ [c.since] = c.installed :: c.ended.map Period.till
  long : ∀ p ∈ c.ended, nsOfMs setup.config.selectPeriodMs ≤ p.till - p.since ∧
    setup.config.minRequestsBeforeSelection ≤ p.lengths.length
  released : h.session.world.released =
    c.earlier ++ c.ended.flatMap Period.lengths ++ c.running h.session.world.released
  measured : h.dispatcher.bandwidth = c.ended.foldl Period.record c.known
  goesOn : ¬ h.Ends g c x → (h.step g x).charge = some c ∧
    (h.step g x).session.core.active = h.session.core.active ∧
    (h.step g x).dispatcher.bandwidth = h.dispatcher.bandwidth
  selects : h.Ends g c x →
    (h.step g x).charge = some (c.close (h.step g x).dispatcher.policy.kind (h.reading g)
        h.session.world.released) ∧
      ∀ k, (h.step g x).dispatcher.bandwidth.samples.get k =
        let b := h.dispatcher.bandwidth
        let sample : Sample :=
          ⟨(c.running h.session.world.released).sum, h.reading g - c.since, h.reading g⟩
        if c.policy = k then
          (b.samples.get k ++ [sample]).dropWhile fun s => !s.isValid b.validity (h.reading g)
        else b.samples.get k

theorem run_periods_tile (lasting : 1 ≤ setup.config.selectPeriodMs) (g : Circumstances)
    (script : List (List Call)) (ops : List Operation) (x : Operation)
    (charged : (run g setup script ops).charge = some c)
    (untaken : x = .check → (run g setup script ops).session.core.forced = none)
    (small : (run g setup script ops).session.world.released.sum < wordCount) :
    Tiles g setup (run g setup script ops) c x := by
  have steady := run_steady g setup script ops
  have inLine (config : setup.config.defaultKind.Direct) := run_inLine config g script ops
  generalize run g setup script ops = h at charged untaken small steady inLine ⊢
  have kept := steady.kept c charged
  have next := steady.step (g := g) x
  obtain ⟨goesOn, selects⟩ := charge_step (g := g) charged untaken
  obtain ⟨written, -, -⟩ := kept.written
  have before : c.counted.sum < wordCount := by
    rw [written, List.sum_append] at small
    omega
  have measured := kept.measured before
  constructor
  case policy => exact kept.policy
  case active => exact fun config => (inLine config).kind.symm.trans kept.policy
  case adjacent => exact kept.adjacent
  case long => exact kept.long
  case released => exact written
  case measured => exact measured
  case goesOn =>
    intro ongoing
    have later := next.kept c (goesOn ongoing)
    have post := steady.post_step charged untaken ongoing
    exact ⟨goesOn ongoing, congrArg Prod.snd post, (later.measured before).trans measured.symm⟩
  case selects =>
    intro ends
    refine ⟨selects ends, ?_⟩
    intro k
    have later := next.kept _ (selects ends)
    have all : (c.close (h.step g x).dispatcher.policy.kind (h.reading g)
        h.session.world.released).counted = h.session.world.released :=
      (c.counted_close _ _ _).trans written.symm
    have lasted : 0 < h.reading g - c.since := by
      have long := of_decide_eq_true (Bool.and_eq_true_iff.mp ends.2).1
      have config : h.session.core.config = setup.config := congrArg Setup.config steady.fixed
      rw [config] at long
      have period : 0 < nsOfMs setup.config.selectPeriodMs := by
        apply Nat.lt_min.mpr
        constructor
        · omega
        · decide
      exact period.trans_le long
    rw [later.measured (by rw [all]; exact small)]
    change ((c.ended ++ [_]).foldl Period.record c.known).samples.get k = _
    rw [List.foldl_concat, ← measured]
    exact Bandwidth.samples_record h.dispatcher.bandwidth lasted c.policy k _ _

/-- The armed bandit is put in charge of thirty-two requests that another policy has handed out. They
come back in two periods, the first under the default policy; the next check ends the second. -/
theorem periods_tile_under_bandit :
    let g : Circumstances := ⟨fun n => 70000000 * n, fun n => n, fun _ _ => false⟩
    let setup : Setup := .of .defaults .one 1
    let returns := List.replicate 16 (Operation.call (.complete ⟨"f", .read, 0, 8⟩))
    let ops := [.call (.force .shortestJob), .check] ++
      List.replicate 32 (.call (.submit ⟨"f", .read, 0, 8, 0, 0⟩ [])) ++
      [.runOnce 4, .call (.force .armedBandit), .check] ++ returns ++ [.check] ++ returns
    let h := run g setup [] ops
    1 ≤ setup.config.selectPeriodMs ∧ h.session.core.forced = none ∧
      h.session.world.released.sum < wordCount ∧
      ∃ c, h.charge = some c ∧ c.policy = .feedback ∧
        c.ended = [⟨.aioli, 2590000000, 3780000000, List.replicate 16 8⟩] ∧
        h.Ends g c .check ∧ Tiles g setup h c .check := by
  intro g setup returns ops h
  have seen : h.session.core.forced = none ∧ h.session.world.released.sum < wordCount ∧
      (h.charge.map fun c => (c.policy, c.ended,
        c.isDue h.session.core.config (h.reading g) h.session.world.released)) =
      some (.feedback, [⟨.aioli, 2590000000, 3780000000, List.replicate 16 8⟩], true) := by
    decide +kernel
  obtain ⟨untaken, small, charged⟩ := seen
  obtain ⟨c, hc, facts⟩ := Option.map_eq_some_iff.mp charged
  obtain ⟨policy, rest⟩ := Prod.mk.inj facts
  obtain ⟨ended, due⟩ := Prod.mk.inj rest
  -- From here on the run is not to be computed again.
  have form : run g setup [] ops = h := rfl
  clear_value h
  subst form
  exact ⟨by decide, untaken, small, c, hc, policy, ended, ⟨rfl, due⟩,
    run_periods_tile (by decide) g [] ops .check hc (fun _ => untaken) small⟩

end Chronicle

end IoScheduling
