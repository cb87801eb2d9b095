import IoScheduling.Proofs.Notes
import IoScheduling.Proofs.Schedules
import IoScheduling.Service.Checksum

/-! # What a file has waited for

A file that is put to sleep notes for which entry, and does not wait for it again as long as the
note stands. There is one note for both lanes, and only another cooldown overwrites it. So a file
may wait for an entry again, but not before it has waited for another one. -/
namespace IoScheduling

/-- A cooldown: the file that is put to sleep and the number of the entry that is held back. -/
structure Arming where
  file : String
  seq : Nat
  deriving DecidableEq, Repr

/-- The cooldown that is armed if the entry at place `i` of a lane is selected. -/
def Core.armed? (c : Core) (file : String) (d : Direction) (i now : Nat) : Option Arming :=
  ((c.index.file? file).bind fun f => f.holdback? c.setup d i now).map fun (e, _) =>
    ⟨file, e.firstSeq⟩

def Feedback.armed? (quantum now : Nat) (c : Core) (file : String) (d : Direction) :
    Option Arming := do
  let f ← c.index.file? file
  if (f.lane d).entries.isEmpty || (f.cooldown? now).isSome then none
  else
    let (c, selected) := promoteLane quantum now f d c
    c.armed? file d (← selected) now

def Burst.armed? (q : QuantumBounds) (k : Candidate) (now dispatched consumed : Nat) (c : Core) :
    Option Arming := do
  let f ← c.index.file? k.file
  let l := f.lane k.direction
  if l.entries.isEmpty then none
  else if dispatched = 0 then c.armed? k.file k.direction 0 now
  else
    let promoted := promoteHead l
    let eligible := promoted.entries.head?.any (·.eligible q.quantumBytes)
    if l.grant.granted ≤ consumed || !eligible then none
    else (modifyLane c k fun _ => promoted).armed? k.file k.direction 0 now

namespace System

def armed? (s : System) : Operation → Option Arming
  | .act _ => none
  | .visit _ _ quantum now file d => Feedback.armed? quantum now s.core file d
  | .select _ _ => none
  | .turn q k now dispatched consumed => Burst.armed? q k now dispatched consumed s.core

/-- All cooldowns that are armed in the course of `ops`. -/
def armings (s : System) : List Operation → List Arming
  | [] => []
  | op :: ops => (s.armed? op).toList ++ (s.perform op).armings ops

end System

def waits (log : List Arming) (file : String) : List Nat :=
  (log.filter (·.file = file)).map Arming.seq

@[simp] theorem waits_nil (file : String) : waits [] file = [] := rfl

@[simp] theorem waits_append (log later : List Arming) (file : String) :
    waits (log ++ later) file = waits log file ++ waits later file := by
  simp [waits]

theorem waits_single (a : Arming) (file : String) :
    waits [a] file = if a.file = file then [a.seq] else [] := by
  by_cases here : a.file = file <;> simp [waits, here]

namespace FileState

@[simp] theorem waitedSeq_setLane (f : FileState) (d : Direction) (l : Lane) :
    (f.setLane d l).waitedSeq = f.waitedSeq := by
  cases d <;> rfl

theorem blind_waitedSeq : Blind waitedSeq where
  counted := fun _ _ _ => rfl
  waiting := fun f d _ _ _ => f.waitedSeq_setLane d _
  granted := fun f d _ => f.waitedSeq_setLane d _

end FileState

theorem Index.modifyLane_reads (x : Index) (name : String) (d : Direction) (g : Lane → Lane) :
    Reads FileState.waitedSeq x (x.setFile ((x.fileOf name).modifyLane d g)) :=
  setFile_reads ((FileState.file_setLane _ d _).trans (file_fileOf x name))
    (FileState.waitedSeq_setLane _ d _)

namespace Core

open Index (Reads)

structure Calm (c c' : Core) : Prop where
  reads : Reads FileState.waitedSeq c.index c'.index
  waits : c'.ledger.waits = c.ledger.waits

/-- The cooldowns of `log` are armed, none of them for the entry that its file has noted. -/
structure Notes (log : List Arming) (c c' : Core) : Prop where
  noted : ∀ n, (c'.index.fileOf n).waitedSeq =
    (waits log n).getLast?.or (c.index.fileOf n).waitedSeq
  anew : ∀ n, ((c.index.fileOf n).waitedSeq.toList ++ waits log n).IsChain (· ≠ ·)

structure Waits (log : List Arming) (c c' : Core) : Prop extends Notes log c c' where
  counted : c'.ledger.waits = c.ledger.waits + log.length

variable {c c' c'' : Core} {log later : List Arming} {now : Nat} {a : Address} {r : Request}

theorem Calm.refl (c : Core) : Calm c c := ⟨fun _ => rfl, rfl⟩

theorem Calm.trans (h : Calm c c') (k : Calm c' c'') : Calm c c'' :=
  ⟨h.reads.trans k.reads, k.waits.trans h.waits⟩

theorem notes_of_reads (h : Reads FileState.waitedSeq c.index c'.index) : Notes [] c c' where
  noted := h
  anew := by
    intro n
    cases (c.index.fileOf n).waitedSeq <;> simp

theorem Calm.waiting (h : Calm c c') : Waits [] c c' := ⟨notes_of_reads h.reads, h.waits⟩

theorem Notes.trans (h : Notes log c c') (k : Notes later c' c'') : Notes (log ++ later) c c'' where
  noted := by
    intro n
    rw [k.noted, h.noted, waits_append, List.getLast?_append, Option.or_assoc]
  anew := by
    intro n
    have next := k.anew n
    rw [h.noted] at next
    rw [waits_append, ← List.append_assoc]
    -- What is noted in between is the last one of the first part.
    have last : ((c.index.fileOf n).waitedSeq.toList ++ waits log n).getLast? =
        (waits log n).getLast?.or (c.index.fileOf n).waitedSeq := by
      rw [List.getLast?_append]
      cases (c.index.fileOf n).waitedSeq <;> rfl
    rw [← last] at next
    refine List.isChain_append.mpr ⟨h.anew n, (List.isChain_append.mp next).2.1, ?_⟩
    intro x hx
    refine (List.isChain_append.mp next).2.2 x ?_
    rw [Option.mem_def.mp hx]
    rfl

theorem Waits.trans (h : Waits log c c') (k : Waits later c' c'') : Waits (log ++ later) c c'' where
  toNotes := h.toNotes.trans k.toNotes
  counted := by
    rw [k.counted, h.counted, List.length_append, Nat.add_assoc]

theorem Waits.calm (h : Waits log c c') (k : Calm c' c'') : Waits log c c'' := by
  have both := h.trans k.waiting
  rwa [List.append_nil] at both

theorem Calm.waits_trans (h : Calm c c') (k : Waits log c' c'') : Waits log c c'' :=
  h.waiting.trans k

theorem holdBack_waits (c : Core) (file : String) (d : Direction) (i now : Nat) :
    Waits (c.armed? file d i now).toList c (c.holdBack file d i now).1 := by
  unfold armed? holdBack
  cases hf : c.index.file? file with
  | none => exact (Calm.refl c).waiting
  | some f =>
    dsimp only [Option.bind_some]
    cases hw : f.holdback? c.setup d i now with
    | none => exact (Calm.refl c).waiting
    | some held =>
      obtain ⟨e, wait⟩ := held
      have fresh := (FileState.holdback?_some hw).1
      have here := Index.fileOf_eq hf
      have file_eq : (f.arm e wait now).file = file := here ▸ Index.file_fileOf c.index file
      change Waits [⟨file, e.firstSeq⟩] c { c with
        index := c.index.setFile (f.arm e wait now), ledger := c.ledger.recordWait }
      refine ⟨⟨?noted, ?anew⟩, ?counted⟩
      case counted => rfl
      case noted =>
        intro n
        rw [Index.fileOf_setFile c.index file_eq, waits_single]
        by_cases same : n = file
        · rw [if_pos same, if_pos same.symm]
          rfl
        · rw [if_neg same, if_neg (Ne.symm same)]
          rfl
      case anew =>
        intro n
        rw [waits_single]
        by_cases same : file = n
        · subst same
          rw [if_pos rfl, here]
          cases hs : f.waitedSeq with
          | none => simp
          | some q =>
            rw [hs] at fresh
            simpa using fun eq => fresh (congrArg some eq)
        · rw [if_neg same, List.append_nil]
          cases (c.index.fileOf n).waitedSeq <;> simp

open FileState (blind_waitedSeq)

theorem submit_calm (c : Core) (now : Nat) (call : Submission) : Calm c (c.submit now call).1 := by
  refine ⟨submit_reads blind_waitedSeq.toUnpending c now call, ?_⟩
  unfold submit enqueue
  dsimp only
  split
  · rfl
  · split
    · rfl
    · split <;> rfl

theorem complete_calm (c : Core) (now : Nat) (a : Address) : Calm c (c.complete now a).1 := by
  refine ⟨complete_reads blind_waitedSeq.unreleased (fun f d _ => f.waitedSeq_setLane d _) c now a, ?_⟩
  obtain ⟨h, x, signal, -, form⟩ | ⟨fault, -, form⟩ := c.complete_cases now a
  · rw [form]
    rfl
  · rw [form]
    split <;> rfl

theorem cancel_calm (h : c.InStep) (a : Address) : Calm c (c.cancel a).1 := by
  refine ⟨cancel_reads blind_waitedSeq.toUnpending c a, ?_⟩
  unfold cancel
  cases hd : c.dequeue a with
  | error fault => rfl
  | ok result =>
    obtain ⟨x, t, form, -⟩ := dequeue_effect h hd
    have waits : result.2.ledger.waits = c.ledger.waits := by rw [form]
    exact waits

theorem migrate_calm (h : c.InStep) (k : PolicyKind) : Calm c (c.migrate k) := by
  obtain ⟨⟨x, t, form⟩, -⟩ := migrate_effect h k
  exact ⟨migrate_reads blind_waitedSeq.toUnpending h k, by rw [form]; rfl⟩

theorem recordDispatch_calm (c : Core) (now : Nat) (file : String) (e : Entry) (k : PolicyKind)
    (inQuantum : Bool) : Calm c (c.recordDispatch now file e k inQuantum) :=
  ⟨Index.modifyLane_reads c.index file e.direction _, rfl⟩

theorem dispatch?_calm {file : String} {d : Direction} {i : Nat} {k : PolicyKind}
    {inQuantum : Bool} {requests : List Request}
    (h : c.dispatch? now file d i k inQuantum = some (requests, c')) : Calm c c' := by
  obtain ⟨⟨e, index⟩, he, same⟩ := Option.map_eq_some_iff.mp h
  obtain ⟨-, rfl⟩ := Prod.mk.inj same
  have left : Calm c { c with index := index } := ⟨Index.detach?_reads blind_waitedSeq.toUnpending he, rfl⟩
  exact left.trans (recordDispatch_calm _ now file e k inQuantum)

theorem dispatchHead?_calm {k : PolicyKind} {requests : List Request}
    (h : c.dispatchHead? now k = some (requests, c')) : Calm c c' := by
  obtain ⟨⟨e, timeline⟩, -, same⟩ := Option.map_eq_some_iff.mp h
  obtain ⟨-, rfl⟩ := Prod.mk.inj same
  have left : Calm c { c with
      index := c.index.noteTimelineRemove e.file e.count, timeline := timeline } :=
    ⟨Index.noteTimelineRemove_reads blind_waitedSeq.counted c.index e.file e.count, rfl⟩
  exact left.trans (recordDispatch_calm _ now e.file e k false)

theorem steer_calm (c : Core) (file : String) {s : Steering}
    (own : ∀ waitingUntil waitedSeq, s ≠ .cool waitingUntil waitedSeq) : Calm c (c.steer file s) := by
  refine ⟨steer_reads blind_waitedSeq c file fun _ w q same => absurd same (own w q), ?_⟩
  unfold steer
  split <;> rfl

theorem promoteLane_calm (c : Core) {f : FileState} {file : String}
    (hf : c.index.file? file = some f) (quantum now : Nat) (d : Direction) :
    Calm c (Feedback.promoteLane quantum now f d c).1 := by
  have here := Index.fileOf_eq hf
  subst here
  have file_eq (l : Lane) :
      (((c.index.fileOf file).expire now).setLane d l).file = file :=
    (FileState.file_setLane _ d l).trans (Index.file_fileOf c.index file)
  exact ⟨Index.setFile_reads (file_eq _) (FileState.waitedSeq_setLane _ d _), rfl⟩

theorem visit_waits {ω : Type} (host : Host ω) (quantum now : Nat) (scan : Feedback.Scan ω)
    (file : String) (d : Direction) :
    Waits (Feedback.armed? quantum now scan.session.core file d).toList scan.session.core
      (Feedback.visit host quantum now scan (file, d)).session.core := by
  have nothing := (Calm.refl scan.session.core).waiting
  unfold Feedback.visit Feedback.armed?
  dsimp only
  cases hf : scan.session.core.index.file? file with
  | none => exact nothing
  | some f =>
    dsimp only [Option.bind_eq_bind, Option.bind_some]
    by_cases empty : (f.lane d).entries.isEmpty
    · rw [if_pos empty, empty]
      exact nothing
    cases cool : f.cooldown? now with
    | some left =>
      rw [if_neg empty, if_pos (by simp)]
      exact nothing
    | none =>
      have promoted := promoteLane_calm scan.session.core hf quantum now d
      rw [if_neg empty, if_neg (by simpa using empty)]
      cases hp : Feedback.promoteLane quantum now f d scan.session.core with
      | mk c₁ selected =>
      rw [hp] at promoted
      cases selected with
      | none => exact promoted.waiting
      | some i =>
        have held := promoted.waits_trans (holdBack_waits c₁ file d i now)
        dsimp only [Option.bind_some]
        cases hw : c₁.holdBack file d i now with
        | mk c₂ wait =>
        rw [hw] at held
        cases wait with
        | some wait => exact held
        | none =>
          dsimp only
          split
          · exact held
          · rename_i requests s hd
            obtain ⟨⟨rs, c₃⟩, went, same⟩ := Option.map_eq_some_iff.mp hd
            obtain ⟨rfl, rfl⟩ := Prod.mk.inj same
            exact held.calm (dispatch?_calm went)

theorem modifyLane_calm (c : Core) (k : Burst.Candidate) (g : Lane → Lane) :
    Calm c (Burst.modifyLane c k g) := by
  unfold Burst.modifyLane
  split
  · rename_i f hf
    have here := Index.fileOf_eq hf
    subst here
    exact ⟨Index.modifyLane_reads c.index k.file k.direction g, rfl⟩
  · exact .refl c

theorem firstTurn_waits (c : Core) (q : QuantumBounds) (k : Burst.Candidate) (now : Nat) :
    Waits (c.armed? k.file k.direction 0 now).toList c (Burst.firstTurn q k now c).2 := by
  have held := holdBack_waits c k.file k.direction 0 now
  unfold Burst.firstTurn
  split
  · rename_i c₁ wait hc
    rw [hc] at held
    exact held
  · rename_i c₁ hc
    rw [hc] at held
    exact held.calm (modifyLane_calm c₁ k _)

theorem laterTurn_waits (c : Core) (q : QuantumBounds) (k : Burst.Candidate) (now consumed : Nat)
    (l : Lane) :
    let eligible := (Burst.promoteHead l).entries.head?.any (·.eligible q.quantumBytes)
    let promoted := Burst.modifyLane c k fun _ => Burst.promoteHead l
    Waits (if l.grant.granted ≤ consumed || !eligible then none
        else promoted.armed? k.file k.direction 0 now).toList c
      (Burst.laterTurn q k now consumed l c).2 := by
  intro eligible promoted
  have calm : Calm c promoted := modifyLane_calm c k _
  unfold Burst.laterTurn
  dsimp only
  split
  · exact (calm.trans (modifyLane_calm _ k _)).waiting
  · have held := calm.waits_trans (holdBack_waits promoted k.file k.direction 0 now)
    split
    · rename_i c₁ wait hc
      rw [hc] at held
      exact held.calm (modifyLane_calm c₁ k _)
    · rename_i c₁ hc
      rw [hc] at held
      exact held

theorem turn_waits (c : Core) (q : QuantumBounds) (k : Burst.Candidate)
    (now dispatched consumed : Nat) :
    Waits (Burst.armed? q k now dispatched consumed c).toList c
      (Burst.turn q k now dispatched consumed c).2 := by
  have nothing := (Calm.refl c).waiting
  unfold Burst.turn Burst.armed?
  cases hf : c.index.file? k.file with
  | none => exact nothing
  | some f =>
    dsimp only [Option.bind_eq_bind, Option.bind_some]
    by_cases empty : (f.lane k.direction).entries.isEmpty
    · rw [if_pos empty, if_pos empty]
      split
      · exact nothing
      · exact (modifyLane_calm c k _).waiting
    rw [if_neg empty, if_neg empty]
    split
    · exact firstTurn_waits c q k now
    · exact laterTurn_waits c q k now consumed (f.lane k.direction)

end Core

/-- Whether a note of a cooldown is put in place of a file's own. -/
def Operation.overwrites : Operation → Bool
  | .act (.steer _ (.cool _ _)) => true
  | _ => false

namespace System

open IoScheduling.Core (Calm Notes Waits)

variable {s : System} {setup : Setup}

theorem act_calm (h : s.core.InStep) {a : Action} (own : (Operation.act a).overwrites = false)
    (counting : a ≠ .reset) : Calm s.core (s.act a).core := by
  cases a with
  | submit now call =>
    rw [act, core_submit]
    exact Core.submit_calm s.core now call
  | settle i =>
    change Calm s.core (s.settle i).core
    unfold settle
    split
    · exact .refl s.core
    · exact ⟨fun _ => rfl, rfl⟩
  | complete now a => exact Core.complete_calm s.core now a
  | cancel a =>
    rw [act, core_cancel]
    exact Core.cancel_calm h a
  | migrate k => exact Core.migrate_calm h k
  | dispatch now file d i k inQuantum =>
    rw [act]
    cases hd : s.core.dispatch? now file d i k inQuantum with
    | none => exact .refl s.core
    | some result => exact Core.dispatch?_calm hd
  | dispatchHead now k =>
    rw [act]
    cases hd : s.core.dispatchHead? now k with
    | none => exact .refl s.core
    | some result => exact Core.dispatchHead?_calm hd
  | handOver i =>
    change Calm s.core (s.handOver i).core
    unfold handOver
    split <;> exact .refl s.core
  | steer file t =>
    refine Core.steer_calm s.core file fun waitingUntil waitedSeq same => ?_
    rw [same] at own
    cases own
  | stop => exact ⟨fun _ => rfl, rfl⟩
  | reset => exact absurd rfl counting

theorem select_calm (h : s.core.InStep) (quantumBytes now : Nat) :
    Calm s.core (s.perform (.select quantumBytes now)).core := by
  refine ⟨?_, rfl⟩
  change Index.Reads _ _ (Burst.scanIndex now s.core.index)
  rw [Burst.scanIndex_eq h.index]
  refine Index.mapAll_reads s.core.index (fun f => (Burst.alike_scanFile now f).file)
    (fun n => rfl) fun f => ?_
  unfold Burst.scanFile
  split <;> rfl

theorem perform_waits (h : s.core.InStep) {op : Operation} (own : op.overwrites = false)
    (counting : op ≠ .act .reset) : Waits (s.armed? op).toList s.core (s.perform op).core := by
  cases op with
  | act a => exact (act_calm h own fun same => counting (congrArg _ same)).waiting
  | visit host world quantum now file d =>
    rw [perform, core_foldl_handOut]
    exact Core.visit_waits host quantum now ⟨⟨s.core, world⟩, [], none⟩ file d
  | select quantumBytes now => exact (select_calm h quantumBytes now).waiting
  | turn q k now dispatched consumed => exact Core.turn_waits s.core q k now dispatched consumed

theorem perform_notes (h : s.core.InStep) {op : Operation} (own : op.overwrites = false) :
    Notes (s.armed? op).toList s.core (s.perform op).core := by
  by_cases reset : op = .act .reset
  · subst reset
    exact Core.notes_of_reads (Core.reset_reads s.core fun _ => rfl)
  · exact (perform_waits h own reset).toNotes

theorem performAll_notes (h : s.Kept setup) {ops : List Operation}
    (own : ∀ op ∈ ops, op.overwrites = false) :
    Notes (s.armings ops) s.core (s.performAll ops).core := by
  induction ops generalizing s with
  | nil => exact (Calm.refl s.core).waiting.toNotes
  | cons op ops ih =>
    have first := perform_notes h.inStep (own op List.mem_cons_self)
    exact first.trans (ih (perform_kept h op) fun o ho => own o (List.mem_cons_of_mem op ho))

theorem performAll_waits (h : s.Kept setup) {ops : List Operation}
    (own : ∀ op ∈ ops, op.overwrites = false) (counting : ∀ op ∈ ops, op ≠ .act .reset) :
    Waits (s.armings ops) s.core (s.performAll ops).core := by
  induction ops generalizing s with
  | nil => exact (Calm.refl s.core).waiting
  | cons op ops ih =>
    have first := perform_waits h.inStep (own op List.mem_cons_self)
      (counting op List.mem_cons_self)
    exact first.trans (ih (perform_kept h op) (fun o ho => own o (List.mem_cons_of_mem op ho))
      fun o ho => counting o (List.mem_cons_of_mem op ho))

theorem exists_between {log before between after : List Arming} {a : Arming}
    (anew : (waits log a.file).IsChain (· ≠ ·))
    (split : log = before ++ a :: between ++ a :: after) :
    ∃ b ∈ between, b.file = a.file ∧ b.seq ≠ a.seq := by
  have single : waits [a] a.file = [a.seq] := (waits_single a a.file).trans (if_pos rfl)
  have parts : log = before ++ [a] ++ between ++ [a] ++ after := by simp [split]
  rw [parts, waits_append, waits_append, waits_append, waits_append, single] at anew
  have twice := List.IsChain.left_of_append anew
  rw [List.append_assoc, List.append_assoc] at twice
  have chain := List.IsChain.right_of_append twice
  cases hb : waits between a.file with
  | nil => simp [hb] at chain
  | cons q rest =>
    rw [hb] at chain
    have other : a.seq ≠ q := (List.isChain_cons_cons.mp chain).1
    have mem : q ∈ waits between a.file := hb ▸ List.mem_cons_self
    obtain ⟨b, kept, rfl⟩ := List.mem_map.mp mem
    obtain ⟨there, file⟩ := List.mem_filter.mp kept
    exact ⟨b, there, of_decide_eq_true file, other.symm⟩

/-- What is known of the cooldowns of a run. -/
structure WaitsAnew (setup : Setup) (ops : List Operation) : Prop where
  /-- Between two cooldowns of a file for the same entry there is one for another entry. -/
  anew : ∀ before between after a,
    (start setup).armings ops = before ++ a :: between ++ a :: after →
      ∃ b ∈ between, b.file = a.file ∧ b.seq ≠ a.seq
  noted : ∀ n, (((start setup).performAll ops).core.index.fileOf n).waitedSeq =
    (waits ((start setup).armings ops) n).getLast?
  counted : (∀ op ∈ ops, op ≠ .act .reset) →
    ((start setup).performAll ops).core.ledger.waits = ((start setup).armings ops).length
  /-- A call of a policy that holds entries back goes on with the run. -/
  scheduled : ∀ {ω : Type} (host : Host ω), host.Performs (fun op => op.overwrites = false) →
    ∀ p : Policy, p.kind = .feedback ∨ p.kind = .aioli → ∀ limit world,
      ((start setup).performAll ops).Leads (fun op => op.overwrites = false)
        (p.schedule host limit ⟨((start setup).performAll ops).core, world⟩).2.session.core

/-- A file does not wait twice in a row for the same entry, in whatever order its entries are
selected and whatever the clock shows. -/
theorem run_waits_anew (setup : Setup) (ops : List Operation)
    (own : ∀ op ∈ ops, op.overwrites = false) : WaitsAnew setup ops := by
  have kept := kept_start setup
  have notes := performAll_notes kept own
  have unnoted : ∀ n, ((start setup).core.index.fileOf n).waitedSeq = none := fun _ => rfl
  constructor
  case anew =>
    intro before between after a split
    have chain := notes.anew a.file
    rw [unnoted] at chain
    exact exists_between chain split
  case noted =>
    intro n
    rw [notes.noted, unnoted, Option.or_none]
  case counted =>
    intro counting
    have waits := (performAll_waits kept own counting).counted
    rwa [show (start setup).core.ledger.waits = 0 from rfl, Nat.zero_add] at waits
  case scheduled =>
    intro ω host performs p scans limit world
    have allowed : ∀ op : Operation, op.Scheduled → op.overwrites = false := by
      rintro _ (_ | _ | _ | _) <;> rfl
    exact Policy.schedule_leads performs allowed p scans limit (.refl _ _)

/-- Three requests go out as one entry, so the file waits for more than the next one. While it does
another request arrives in front of that, is waited for and goes out; then the file waits for the
first one again. -/
def interleaved : List Operation :=
  let visit (now : Nat) : Operation := .visit Host.prompt () 8192 now "f" .read
  let submit (now offset : Nat) : Operation := .act (.submit now ⟨"f", .read, offset, 8, 0, 0⟩)
  [submit 0 0, submit 0 8, submit 0 16, visit 0, submit 0 1000, visit 0, submit 0 500, visit 1000,
    visit 2000, visit 2000]

def waiting : Setup :=
  .of { Config.defaults with defaultPolicy := "MLF", aggregationWaitNs := 1000 } .one 1

theorem interleaved_waits_anew : (∀ op ∈ interleaved, op.overwrites = false) ∧
    WaitsAnew waiting interleaved ∧ Host.prompt.Performs (fun op => op.overwrites = false) :=
  ⟨by decide, run_waits_anew waiting interleaved (by decide), Host.prompt_performs fun _ => rfl⟩

theorem waits_twice_for_one_entry :
    (start waiting).armings interleaved = [⟨"f", 3⟩, ⟨"f", 4⟩, ⟨"f", 3⟩] := by
  decide +kernel

end System

end IoScheduling
