import IoScheduling.Config.Reader
import IoScheduling.Proofs.Runtimes
import IoScheduling.Service.Checksum
import IoScheduling.Service.Launch

/-! # Runtime and core agree

The active policy is kept twice, by the core and by the dispatcher, and both are to name a policy
that serves requests. A launch never lets a meta-policy through as the default, and whatever a
meta-policy selects serves requests, so they stay in step through every change of the policy. -/
namespace IoScheduling

/-- The kind is no meta-policy; it serves requests itself. -/
def PolicyKind.Direct (k : PolicyKind) : Prop := k.profile.isMeta = false

open PolicyKind (Direct)

instance : DecidablePred Direct := fun k => inferInstanceAs (Decidable (k.profile.isMeta = false))

namespace Config

variable {c : Config}

theorem direct_of_validate (h : c.validate = .ok ()) : c.defaultKind.Direct := by
  unfold validate policyNamed at h
  cases hf : c.sizeFault? with
  | some cause => simp [hf, bind, Except.bind, throw, throwThe, MonadExceptOf.throw] at h
  | none =>
    unfold defaultKind
    cases hk : PolicyKind.lookup? c.defaultPolicy with
    | none => simp [hf, hk, bind, Except.bind] at h
    | some k =>
      by_contra other
      have other : k.profile.isMeta = true := Bool.not_eq_false _ ▸ other
      simp [hf, hk, other, bind, Except.bind, throw, throwThe, MonadExceptOf.throw] at h

theorem direct_defaults : defaults.defaultKind.Direct := by decide +kernel

theorem direct_orDefaults {r : Except Fault Config} (h : ∀ c, r = .ok c → c.defaultKind.Direct) :
    (orDefaults r).defaultKind.Direct := by
  cases r with
  | error fault => exact direct_defaults
  | ok c => exact h c rfl

theorem direct_of_accept {c' : Config} (h : c.accept = .ok c') : c'.defaultKind.Direct := by
  unfold accept at h
  cases hv : c.validate with
  | error fault =>
    rw [hv] at h
    cases h
  | ok =>
    rw [hv] at h
    cases h
    exact direct_of_validate hv

theorem direct_of_load {read? : String → Option Config} {bytes : Option ByteArray}
    (h : load read? bytes = .ok c) : c.defaultKind.Direct := by
  unfold load at h
  split at h
  · cases h
  · split at h
    · cases h
    · exact direct_of_accept h

theorem direct_initialKind (h : c.defaultKind.Direct) : c.initialKind.Direct := by
  unfold initialKind
  split
  · exact h
  · rename_i real
    exact Bool.eq_false_iff.mpr real

end Config

namespace Service

theorem ConfigSource.direct_resolve (read? : String → Option Config) (source : ConfigSource) :
    (source.resolve read?).defaultKind.Direct := by
  cases source with
  | defaults => exact Config.direct_defaults
  | given c => exact Config.direct_orDefaults fun _ => Config.direct_of_accept
  | file bytes => exact Config.direct_orDefaults fun _ => Config.direct_of_load

theorem Launch.direct_setup {l : Launch} {read? : String → Option Config} {hash : String → Nat}
    {result : Setup} (h : l.setup read? hash = .ok result) :
    result.config.defaultKind.Direct := by
  unfold Launch.setup at h
  cases hc : Callbacks.of? l.takesOne l.takesMany with
  | error fault =>
    rw [hc] at h
    cases h
  | ok callbacks =>
    rw [hc] at h
    cases h
    exact l.config.direct_resolve read?

end Service

theorem PolicyKind.direct_candidate {k : PolicyKind} (h : k ∈ candidates) : k.Direct := by
  have all : ∀ k ∈ candidates, k.Direct := by decide
  exact all k h

namespace Bandit

variable {b : Bandit}

theorem direct_initial (h : b.default.Direct) : b.initial.Direct := by
  unfold initial
  split
  · exact h
  · rfl

theorem direct_pick (roll : Nat) {shares : List (PolicyKind × Nat)} {last : PolicyKind}
    (each : ∀ x ∈ shares, x.1.Direct) (h : last.Direct) : (pick roll shares last).Direct := by
  induction shares generalizing roll last with
  | nil => exact h
  | cons x rest ih =>
    have first : x.1.Direct := each x List.mem_cons_self
    unfold pick
    split
    · exact first
    · exact ih _ (fun y hy => each y (List.mem_cons_of_mem _ hy)) first

theorem direct_draw (b : Bandit) (roll : Nat) : (b.draw roll).Direct :=
  direct_pick roll (fun _ hx => PolicyKind.direct_candidate (List.of_mem_zip hx).1) rfl

theorem direct_choose (b : Bandit) (bandwidth : Bandwidth) (now roll : Nat) :
    (b.choose bandwidth now roll).1.Direct ∧
      (b.choose bandwidth now roll).2.default = b.default := by
  unfold choose
  split
  · rename_i untried hu
    exact ⟨PolicyKind.direct_candidate (List.mem_of_find?_eq_some hu), rfl⟩
  · exact ⟨direct_draw _ _, rfl⟩

end Bandit

theorem AccessPattern.direct_suggest (p : AccessPattern) : p.suggest.Direct := by
  unfold suggest
  split
  · split <;> rfl
  · split
    · rfl
    · split <;> rfl

namespace DecisionTree

/-- What the tree starts with and what it has committed itself to serve requests. -/
structure Sound (t : DecisionTree) : Prop where
  default : t.default.Direct
  chosen : ∀ k, t.chosen = some k → k.Direct

variable {t : DecisionTree}

theorem Sound.initial (h : t.Sound) : t.initial.Direct := by
  unfold DecisionTree.initial
  cases hc : t.chosen with
  | none => exact h.default
  | some k => exact h.chosen k hc

theorem Sound.decide (h : t.Sound) (p : AccessPattern) :
    (t.decide p).1.Direct ∧ (t.decide p).2.Sound := by
  unfold DecisionTree.decide
  split
  · rename_i k hc
    exact ⟨h.chosen k hc, h⟩
  · exact ⟨p.direct_suggest, h.default, fun k hk => Option.some.inj hk ▸ p.direct_suggest⟩

end DecisionTree

namespace Selector

def Sound : Selector → Prop
  | bandit b => b.default.Direct
  | tree t => t.Sound

variable {c : Config} {k : PolicyKind} {x : Selector}

theorem sound_ofKind (h : c.defaultKind.Direct) (k : PolicyKind) : (ofKind c k).Sound := by
  cases k <;> first | exact h | exact ⟨h, fun _ hk => nomatch hk⟩

theorem kind_ofKind (c : Config) (h : ¬ k.Direct) : (ofKind c k).kind = k := by
  cases k <;> first | rfl | exact absurd rfl h

theorem Sound.initial (h : x.Sound) : x.initial.Direct := by
  cases x with
  | bandit b => exact Bandit.direct_initial h
  | tree t => exact DecisionTree.Sound.initial h

theorem Sound.next {ω : Type} (h : x.Sound) (host : Host ω) (bandwidth : Bandwidth)
    (s : Session ω) :
    (next host bandwidth s x).1.Direct ∧ (next host bandwidth s x).2.1.Sound ∧
      (next host bandwidth s x).2.1.kind = x.kind ∧
      (next host bandwidth s x).2.2.core = s.core := by
  cases x with
  | bandit b =>
    let chosen := b.choose bandwidth (s.now host).1 ((host.roll (s.now host).2.world).1 % 100)
    obtain ⟨direct, default⟩ : chosen.1.Direct ∧ chosen.2.default = b.default :=
      b.direct_choose _ _ _
    have sound : chosen.2.default.Direct := by
      rw [default]
      exact h
    exact ⟨direct, sound, rfl, rfl⟩
  | tree t =>
    obtain ⟨direct, sound⟩ := DecisionTree.Sound.decide h (.ofReport s.core.report)
    exact ⟨direct, sound, rfl, rfl⟩

end Selector

namespace Dispatcher

variable {ω : Type} (host : Host ω) {setup : Setup} {d : Dispatcher} {s : Session ω}
  {k : PolicyKind}

/-- Dispatcher and core name the same policy, which serves requests, as does everything that a
meta-policy has in store. -/
structure InLine (setup : Setup) (d : Dispatcher) (s : Session ω) : Prop where
  setup : s.core.setup = setup
  kind : d.policy.kind = s.core.active
  direct : s.core.active.Direct
  sound : ∀ x, d.selector = some x → x.Sound

theorem InLine.move (h : InLine setup d s) {d' : Dispatcher} {s' : Session ω}
    (post : s'.core.post = s.core.post) (kind : d'.policy.kind = d.policy.kind)
    (selector : d'.selector = d.selector) : InLine setup d' s' := by
  obtain ⟨same, active⟩ := Prod.mk.inj post
  constructor
  case setup => exact same.trans h.setup
  case kind => exact kind.trans (h.kind.trans active.symm)
  case direct => exact (congrArg Direct active).mpr h.direct
  case sound =>
    intro x hx
    exact h.sound x (selector ▸ hx)

theorem InLine.switchTo (h : InLine setup d s) (hk : k.Direct) :
    InLine setup (d.switchTo k s).1 (d.switchTo k s).2 where
  setup := (congrArg Prod.fst (s.core.post_migrate k)).trans h.setup
  kind := Policy.kind_ofKind s.core.setup hk
  direct := hk
  sound := h.sound

theorem InLine.ensure (h : InLine setup d s) (hk : k.Direct) :
    InLine setup (d.ensure k s).1 (d.ensure k s).2 := by
  unfold Dispatcher.ensure
  split
  · exact h
  · exact h.switchTo hk

theorem selector_ensure (d : Dispatcher) (k : PolicyKind) (s : Session ω) :
    (d.ensure k s).1.selector = d.selector := by
  unfold ensure
  split <;> rfl

def inCharge (d : Dispatcher) : Option PolicyKind := d.selector.map Selector.kind

/-- The meta-policy that is in charge under the chosen policy. -/
def metaOf (k : PolicyKind) : Option PolicyKind := if k.profile.isMeta then some k else none

theorem InLine.install (h : InLine setup d s) (config : setup.config.defaultKind.Direct)
    (hk : ¬ k.Direct) :
    InLine setup (install host d k s).1 (install host d k s).2 ∧
      (install host d k s).1.inCharge = some k := by
  have sound : (Selector.ofKind s.core.config k).Sound :=
    Selector.sound_ofKind (by rw [Core.config, h.setup]; exact config) k
  constructor
  · refine InLine.ensure ⟨h.setup, h.kind, h.direct, fun x hx => ?_⟩ sound.initial
    rw [← Option.some.inj hx]
    exact sound
  · unfold inCharge Dispatcher.install
    dsimp only
    rw [selector_ensure]
    exact congrArg some (Selector.kind_ofKind _ hk)

theorem InLine.takeForced (h : InLine setup d s) (config : setup.config.defaultKind.Direct)
    (k : PolicyKind) :
    InLine setup (takeForced host d k s).1 (takeForced host d k s).2 ∧
      (takeForced host d k s).1.inCharge = metaOf k := by
  unfold Dispatcher.takeForced metaOf
  split
  · rename_i isMeta
    exact h.install host config (Bool.not_eq_false _ ▸ isMeta)
  · rename_i plain
    have hk : k.Direct := Bool.eq_false_iff.mpr plain
    refine ⟨InLine.ensure ⟨h.setup, h.kind, h.direct, fun x hx => nomatch hx⟩ hk, ?_⟩
    unfold inCharge
    rw [selector_ensure]
    rfl

theorem InLine.reselect (h : InLine setup d s) {x : Selector} (sound : x.Sound) (now : Nat) :
    InLine setup (reselect host d x now s).1 (reselect host d x now s).2 ∧
      (reselect host d x now s).1.inCharge = some x.kind := by
  let bandwidth := d.bandwidth.record d.policy.kind s.core.takePeriod.1 (now - d.lastSelection) now
  obtain ⟨direct, sound, kind, core⟩ :=
    sound.next host bandwidth { s with core := s.core.takePeriod.2 }
  constructor
  · refine InLine.ensure ⟨(congrArg Core.setup core).trans h.setup,
      h.kind.trans (congrArg Core.active core).symm,
      (congrArg (fun c => c.active.Direct) core).mpr h.direct, fun y hy => ?_⟩ direct
    rw [← Option.some.inj hy]
    exact sound
  · unfold inCharge Dispatcher.reselect
    dsimp only
    rw [selector_ensure]
    exact congrArg some kind

theorem InLine.checkMigration (h : InLine setup d s) (config : setup.config.defaultKind.Direct) :
    InLine setup (checkMigration host d s).1 (checkMigration host d s).2 ∧
      (checkMigration host d s).1.inCharge = (s.core.forced.map metaOf).getD d.inCharge := by
  unfold Dispatcher.checkMigration
  cases s.core.forced with
  | some k =>
    have taken : InLine setup d (s.mapCore fun c => { c with forced := none }) :=
      ⟨h.setup, h.kind, h.direct, h.sound⟩
    exact taken.takeForced host config k
  | none =>
    cases hx : d.selector with
    | none => exact ⟨h, rfl⟩
    | some x =>
      have read : InLine setup d (s.now host).2 := ⟨h.setup, h.kind, h.direct, h.sound⟩
      dsimp only
      split
      · obtain ⟨inLine, charge⟩ := read.reselect host (h.sound x hx) (s.now host).1
        refine ⟨inLine, charge.trans ?_⟩
        unfold inCharge
        rw [hx]
        rfl
      · exact ⟨read, rfl⟩

theorem inLine_start (direct : s.core.active.Direct) (config : s.core.config.defaultKind.Direct) :
    InLine s.core.setup (start host s).1 (start host s).2 ∧
      (start host s).1.inCharge = metaOf s.core.config.startingKind := by
  have begun : InLine s.core.setup
      { policy := .ofKind s.core.setup s.core.active
        selector := none
        bandwidth := .empty (nsOfMs s.core.config.performanceValidityMs)
        lastSelection := (s.now host).1 } (s.now host).2 :=
    ⟨rfl, Policy.kind_ofKind s.core.setup direct, direct, fun x hx => nomatch hx⟩
  unfold start metaOf
  dsimp only
  split
  · rename_i isMeta
    exact begun.install host config (Bool.not_eq_false _ ▸ isMeta)
  · exact ⟨begun, rfl⟩

end Dispatcher

theorem Policy.kind_schedule {ω : Type} (host : Host ω) (limit : Nat) (p : Policy) (s : Session ω) :
    (p.schedule host limit s).1.kind = p.kind := by
  cases p <;> rfl

namespace Runtime

open Dispatcher (InLine metaOf)
open Outside (Call)

variable {g : Circumstances} {setup : Setup} {r : Runtime}

/-- Dispatcher and core agree on a policy that serves requests, and a meta-policy is in charge just
if it was the last to be chosen. -/
structure Agrees (r : Runtime) : Prop where
  kind : r.dispatcher.policy.kind = r.session.core.active
  direct : r.session.core.active.profile.isMeta = false
  inCharge : ∀ k, r.dispatcher.selector.map Selector.kind = some k ↔ r.chosen = k ∧ k.profile.isMeta

/-- What every operation keeps. -/
structure Steady (setup : Setup) (r : Runtime) : Prop where
  inLine : InLine setup r.dispatcher r.session
  inCharge : r.dispatcher.inCharge = metaOf r.chosen

theorem Steady.agrees (h : Steady setup r) : r.Agrees where
  kind := h.inLine.kind
  direct := h.inLine.direct
  inCharge k := by
    have charge : r.dispatcher.selector.map Selector.kind = metaOf r.chosen := h.inCharge
    rw [charge]
    unfold metaOf
    split
    · rename_i isMeta
      constructor
      · intro same
        obtain rfl := Option.some.inj same
        exact ⟨rfl, isMeta⟩
      · exact fun both => congrArg some both.1
    · rename_i plain
      constructor
      · exact fun none => nomatch none
      · rintro ⟨rfl, isMeta⟩
        exact absurd isMeta plain

theorem Steady.move (h : Steady setup r) {s : Session Outside}
    (post : s.core.post = r.session.core.post) {policy : Policy}
    (kind : policy.kind = r.dispatcher.policy.kind) :
    Steady setup { r with dispatcher := { r.dispatcher with policy := policy }, session := s } :=
  ⟨h.inLine.move post kind rfl, h.inCharge⟩

theorem steady_start (config : setup.config.defaultKind.Direct) (script : List (List Call)) :
    Steady setup (start g setup script) := by
  obtain ⟨inLine, charge⟩ := Dispatcher.inLine_start (host g)
    (s := ⟨.start setup, .start script⟩) (Config.direct_initialKind config) config
  exact ⟨inLine, charge⟩

theorem Steady.step (h : Steady setup r) (config : setup.config.defaultKind.Direct) {op : Operation}
    (asked : ∀ k, op ≠ .migrate k) : Steady setup (r.step g op) := by
  cases op with
  | call c => exact h.move (Outside.post_perform c r.session) rfl
  | check =>
    obtain ⟨inLine, charge⟩ := h.inLine.checkMigration (host g) config
    refine ⟨inLine, charge.trans ?_⟩
    change _ = metaOf (r.session.core.forced.getD r.chosen)
    rw [h.inCharge]
    cases r.session.core.forced <;> rfl
  | runOnce limit =>
    have kept := (Policy.schedule_twins (respects g r.session.core.post) r.dispatcher.policy limit
      (Outside.twins_refl r.session)).2.session.post
    have kind := Policy.kind_schedule (host g) limit r.dispatcher.policy r.session
    exact h.move (s := (r.step g (.runOnce limit)).session) kept kind
  | migrate k => exact absurd rfl (asked k)

/-- However the scheduler is launched, whatever reads its configuration and spreads its files, and
whatever the callers do and the rolls are, dispatcher and core agree. -/
theorem run_agrees (read? : String → Option Config) (hash : String → Nat) (l : Service.Launch)
    (launched : l.setup read? hash = .ok setup) (g : Circumstances) (script : List (List Call)) (ops : List Operation) (asked : ∀ k, .migrate k ∉ ops) :
    (run g setup script ops).Agrees := by
  have config := Service.Launch.direct_setup launched
  have steady : Steady setup (run g setup script ops) :=
    List.foldlRecOn (motive := Steady setup) ops (step g) (steady_start config script)
      fun r h op member => h.step config fun k same => asked k (same ▸ member)
  exact steady.agrees

/-- An unreadable configuration gives way to the defaults. The decision tree is asked for, then
multi-level feedback, and by the code that is handed a request the armed bandit. -/
theorem meta_policies_agree :
    let l : Service.Launch := ⟨true, false, .file none, none, none, none⟩
    let g : Circumstances := ⟨fun n => 1000 * n, fun n => n, fun _ _ => false⟩
    let setup : Setup := .of .defaults .one 1
    let ops : List Operation := [.call (.force .decisionTree), .check, .call (.force .feedback),
      .check, .call (.submit ⟨"f", .read, 0, 8, 0, 0⟩ []), .runOnce 4, .check]
    let r := run g setup [[.force .armedBandit]] ops
    l.setup Config.readText? fileHash = .ok setup ∧ (∀ k, .migrate k ∉ ops) ∧ r.chosen = .armedBandit ∧ r.Agrees :=
  have asked := by simp
  ⟨rfl, asked, by decide +kernel,
    run_agrees Config.readText? fileHash ⟨true, false, .file none, none, none, none⟩ rfl _ _ _ asked⟩

end Runtime

end IoScheduling
