import IoScheduling.Proofs.Shape

/-! # What a split leaves

A request that leaves an entry may have been the bridge between others. The remaining requests are
gone through once, in the order of their offsets, and a run is closed as soon as a request starts
behind the largest end so far. The runs divide the requests and nothing else: which requests go
together is settled before any of them becomes an entry. -/
namespace IoScheduling

/-- A read of which only the range matters. -/
def Request.reading (file : String) (offset length : Nat) : Request :=
  ⟨file, .read, offset, length, 0, offset, 0, 0, 0⟩

/-- Every request but the first starts within the reach of those before it. -/
def Gapless (rs : List Request) : Prop :=
  ∀ front r back, rs = front ++ r :: back → front ≠ [] → ∃ s ∈ front, r.offset ≤ s.stop

/-- Requests divided into runs: they keep their order, no run has a gap, and there is a gap between
any two runs, so that none could be longer. -/
structure Division (rs : List Request) (parts : List Members) : Prop where
  whole : parts.flatMap Members.toList = rs
  gapless : ∀ m ∈ parts, Gapless m.toList
  apart : parts.Pairwise fun m n => m.greatest Request.stop < n.least Request.offset

/-- The head of an entry is that of its requests, and only several requests are an aggregate. -/
structure Entry.Faithful (e : Entry) : Prop where
  isAggregate_iff : e.isAggregate ↔ 2 ≤ e.count
  offset_eq : (e.requests.map Request.offset).min? = some e.offset
  stop_eq : (e.requests.map Request.stop).max? = some e.stop
  arrival_eq : (e.requests.map Request.arrival).min? = some e.earliestArrival
  seq_eq : (e.requests.map Request.seq).min? = some e.firstSeq

/-- The entries made of requests that have been left behind by one of them. -/
structure Split (factor : Nat) (rs : List Request) (runs : List Entry) : Prop where
  whole : (runs.flatMap Entry.requests).map Request.bare = rs.map Request.bare
  gapless : ∀ run ∈ runs, Gapless run.requests
  apart : runs.Pairwise fun a b => a.stop < b.offset
  faithful : ∀ run ∈ runs, run.Faithful
  factor_eq : ∀ run ∈ runs, run.factor = factor
  /-- The runs reach exactly the bytes that the requests reach. -/
  bytes : ∀ t, (∃ run ∈ runs, run.offset ≤ t ∧ t < run.stop) ↔
    ∃ r ∈ rs, r.offset ≤ t ∧ t < r.stop

theorem gapless_singleton (r : Request) : Gapless [r] := by
  intro front q back split hne
  obtain ⟨s, front, rfl⟩ := List.exists_cons_of_ne_nil hne
  have none := (List.cons.inj split).2
  simp at none

theorem gapless_concat {rs : List Request} {r : Request} (h : Gapless rs)
    (reached : ∃ s ∈ rs, r.offset ≤ s.stop) : Gapless (rs ++ [r]) := by
  intro front q back split hne
  rcases back.eq_nil_or_concat with rfl | ⟨back, last, rfl⟩
  · obtain ⟨rfl, same⟩ := List.append_inj' split rfl
    obtain rfl := List.singleton_inj.mp same
    exact reached
  · rw [List.concat_eq_append, ← List.cons_append, ← List.append_assoc] at split
    exact h front q back (List.append_inj' split rfl).1 hne

namespace Members

variable {m : Members}

theorem least_eq_first (sorted : m.toList.Pairwise fun r s => r.offset ≤ s.offset) :
    m.least Request.offset = m.first.offset := by
  apply le_antisymm
  · exact least_le _ List.mem_cons_self
  · obtain ⟨r, hr, same⟩ := m.exists_least Request.offset
    rw [← same]
    rcases List.mem_cons.mp hr with rfl | hr
    · exact le_rfl
    · exact (List.pairwise_cons.mp sorted).1 r hr

theorem covers (gapless : Gapless m.toList)
    (sorted : m.toList.Pairwise fun r s => r.offset ≤ s.offset) :
    Covers m.toList (m.least Request.offset) (m.greatest Request.stop) := by
  intro t low high
  obtain ⟨last, hlast, same⟩ := m.exists_greatest Request.stop
  have found : (m.toList.find? fun s => t ≤ s.stop).isSome := by
    simpa [List.find?_isSome] using ⟨last, hlast, same ▸ high⟩
  obtain ⟨r, hr⟩ := Option.isSome_iff_exists.mp found
  obtain ⟨behind, front, back, split, before⟩ := List.find?_eq_some_iff_append.mp hr
  refine ⟨r, List.mem_of_find?_eq_some hr, ?_, of_decide_eq_true behind⟩
  by_cases hne : front = []
  · subst hne
    obtain ⟨rfl, -⟩ := List.cons.inj split
    rwa [least_eq_first sorted] at low
  · obtain ⟨s, hs, near⟩ := gapless front r back split hne
    have short : s.stop < t := by simpa using before s hs
    exact near.trans_lt short

theorem reaches_iff (gapless : Gapless m.toList)
    (sorted : m.toList.Pairwise fun r s => r.offset ≤ s.offset) (t : Nat) :
    (m.least Request.offset ≤ t ∧ t < m.greatest Request.stop) ↔
      ∃ r ∈ m.toList, r.offset ≤ t ∧ t < r.stop := by
  constructor
  · rintro ⟨low, high⟩
    obtain ⟨r, hr, starts, ends⟩ := covers gapless sorted (t + 1) (Nat.lt_succ_of_le low) high
    exact ⟨r, hr, Nat.le_of_lt_succ starts, ends⟩
  · rintro ⟨r, hr, low, high⟩
    exact ⟨(least_le _ hr).trans low, high.trans_le (le_greatest _ hr)⟩

theorem greatest_push (m : Members) (r : Request) :
    (m.push r).greatest Request.stop = max (m.greatest Request.stop) r.stop :=
  greatest_append (b := ⟨r, []⟩) Request.stop (List.Perm.refl _)

end Members

namespace Division

variable {rs rest : List Request} {parts : List Members} {m : Members}

theorem sublist (h : Division rs parts) (hm : m ∈ parts) : m.toList.Sublist rs := by
  rw [← h.whole, List.flatMap_def]
  exact List.sublist_flatten_of_mem (List.mem_map_of_mem hm)

theorem single (gapless : Gapless m.toList) : Division m.toList [m] where
  whole := List.append_nil _
  gapless := List.forall_mem_singleton.mpr gapless
  apart := List.pairwise_singleton _ _

theorem cons (h : Division rest parts) (gapless : Gapless m.toList)
    (behind : ∀ r ∈ rest, m.greatest Request.stop < r.offset) :
    Division (m.toList ++ rest) (m :: parts) where
  whole := congrArg (m.toList ++ ·) h.whole
  gapless := List.forall_mem_cons.mpr ⟨gapless, h.gapless⟩
  apart := by
    refine List.pairwise_cons.mpr ⟨fun n hn => ?_, h.apart⟩
    obtain ⟨r, hr, same⟩ := n.exists_least Request.offset
    exact same ▸ behind r ((h.sublist hn).subset hr)

end Division

/-- The induction is on the requests still to come; the run in the making has no gap, and `reach` is
its largest end. -/
theorem regroupFrom_divides (factor : Nat) (run : Members) {reach : Nat} {rest : List Request}
    (reach_eq : reach = run.greatest Request.stop) (gapless : Gapless run.toList)
    (sorted : (run.toList ++ rest).Pairwise fun r s => r.offset ≤ s.offset) :
    ∃ parts, regroupFrom factor run reach rest = parts.map (Entry.ofRun factor) ∧
      Division (run.toList ++ rest) parts := by
  induction rest generalizing run reach with
  | nil =>
    rw [List.append_nil]
    exact ⟨[run], rfl, .single gapless⟩
  | cons r rest ih =>
    unfold regroupFrom
    split
    · rename_i gap
      have sorted_rest := (List.pairwise_append.mp sorted).2.1
      obtain ⟨parts, same, division⟩ := ih ⟨r, []⟩ rfl (gapless_singleton r) sorted_rest
      have behind : ∀ s ∈ r :: rest, run.greatest Request.stop < s.offset := by
        intro s hs
        rw [← reach_eq]
        rcases List.mem_cons.mp hs with rfl | hs
        · exact gap
        · exact gap.trans_le ((List.pairwise_cons.mp sorted_rest).1 s hs)
      exact ⟨run :: parts, congrArg (Entry.ofRun factor run :: ·) same,
        division.cons gapless behind⟩
    · rename_i near
      have same : (run.push r).toList ++ rest = run.toList ++ r :: rest := by simp
      have grown : max reach r.stop = (run.push r).greatest Request.stop := by
        rw [Members.greatest_push, reach_eq]
      obtain ⟨s, hs, longest⟩ := run.exists_greatest Request.stop
      have reached : Gapless (run.push r).toList :=
        gapless_concat gapless ⟨s, hs, by omega⟩
      rw [← same] at sorted ⊢
      exact ih (run.push r) grown reached sorted

theorem regroup_divides (factor : Nat) {rs : List Request}
    (sorted : rs.Pairwise fun r s => r.offset ≤ s.offset) :
    ∃ parts, regroup factor rs = parts.map (Entry.ofRun factor) ∧ Division rs parts := by
  cases rs with
  | nil => exact ⟨[], rfl, rfl, by simp, .nil⟩
  | cons r rest =>
    exact regroupFrom_divides factor ⟨r, []⟩ rfl (gapless_singleton r) sorted

/-- The last request starts behind the end of the one before it, but not behind that of the run. -/
example :
    let requests : List Request := [(10, 5), (50, 0), (200, 100), (210, 10), (280, 40)].map
      fun (offset, length) => ⟨"a", .read, offset, length, 0, 0, 0, 0, 0⟩
    (regroup 1 requests).map (fun e => (e.offset, e.stop, e.count)) =
      [(10, 15, 1), (50, 50, 1), (200, 320, 3)] := by decide +kernel

namespace Entry

variable {m : Members}

theorem offset_ofRun (factor : Nat) (m : Members) :
    (ofRun factor m).offset = m.least Request.offset := by
  obtain ⟨first, rest⟩ := m
  cases rest <;> rfl

theorem stop_ofRun (factor : Nat) (word : ∀ r ∈ m.toList, r.offset ≤ maxWord) :
    (ofRun factor m).stop = m.greatest Request.stop := by
  obtain ⟨first, rest⟩ := m
  cases rest with
  | nil => rfl
  | cons second rest =>
    let m : Members := ⟨first, second :: rest⟩
    have headed : (aggregate (Head.of m factor) m).Headed m.length :=
      ⟨rfl, by simp [m, Members.length], le_rfl, word⟩
    exact headed.stop_eq

theorem offset_le_stop_ofRun (factor : Nat) (word : ∀ r ∈ m.toList, r.offset ≤ maxWord) :
    (ofRun factor m).offset ≤ (ofRun factor m).stop := by
  obtain ⟨r, hr, same⟩ := m.exists_least Request.offset
  rw [offset_ofRun, stop_ofRun factor word, ← same]
  exact (offset_le_stop (word r hr)).trans (Members.le_greatest _ hr)

theorem factor_ofRun (factor : Nat) (m : Members) : (ofRun factor m).factor = factor := by
  obtain ⟨first, rest⟩ := m
  cases rest <;> rfl

theorem gapless_ofRun (factor : Nat) (h : Gapless m.toList) :
    Gapless (ofRun factor m).requests := by
  obtain ⟨first, rest⟩ := m
  cases rest with
  | nil => exact gapless_singleton _
  | cons => exact h

theorem faithful_ofRun (factor : Nat) (word : ∀ r ∈ m.toList, r.offset ≤ maxWord) :
    (ofRun factor m).Faithful := by
  have stop := stop_ofRun factor word
  obtain ⟨first, rest⟩ := m
  cases rest with
  | nil => exact ⟨by simp [ofRun, isAggregate, count], rfl, rfl, rfl, rfl⟩
  | cons second rest =>
    let m : Members := ⟨first, second :: rest⟩
    constructor
    case isAggregate_iff => simp [ofRun, isAggregate, count, Members.length]
    case offset_eq => exact m.min?_map_toList Request.offset
    case stop_eq => exact (m.max?_map_toList Request.stop).trans (congrArg some stop.symm)
    case arrival_eq => exact m.min?_map_toList Request.arrival
    case seq_eq => exact m.min?_map_toList Request.seq

variable {bound : Nat} {file : String} {d : Direction} {e : Entry}

theorem sound_ofRun {run : Members} (factor : Nat) (gapless : Gapless run.toList)
    (belongs : ∀ r ∈ run.toList, r.file = file ∧ r.direction = d)
    (sorted : run.toList.Pairwise fun r s => r.offset ≤ s.offset)
    (word : ∀ r ∈ run.toList, r.offset ≤ maxWord) (size : run.length ≤ bound) :
    (ofRun factor run).Sound bound file d := by
  have covered := Members.covers gapless sorted
  obtain ⟨first, rest⟩ := run
  cases rest with
  | nil =>
    have hb := belongs first List.mem_cons_self
    exact sound_single hb.1 hb.2
  | cons second rest =>
    let run : Members := ⟨first, second :: rest⟩
    have headed : (aggregate (Head.of run factor) run).Headed bound :=
      ⟨rfl, by simp [run, Members.length], size, word⟩
    refine ⟨⟨belongs, sorted, headed⟩, ?_⟩
    change Covers run.toList (aggregate (Head.of run factor) run).offset
      (aggregate (Head.of run factor) run).stop
    rw [headed.offset_eq, headed.stop_eq]
    exact covered

theorem sound_regroup {rs : List Request} (factor : Nat)
    (belongs : ∀ r ∈ rs, r.file = file ∧ r.direction = d)
    (sorted : rs.Pairwise fun r s => r.offset ≤ s.offset)
    (word : ∀ r ∈ rs, r.offset ≤ maxWord) (size : rs.length ≤ bound) :
    ∀ e ∈ regroup factor rs, e.Sound bound file d := by
  intro e he
  obtain ⟨parts, same, division⟩ := regroup_divides factor sorted
  rw [same] at he
  obtain ⟨m, hm, rfl⟩ := List.mem_map.mp he
  have sub := division.sublist hm
  refine sound_ofRun factor (division.gapless m hm) (fun r hr => belongs r (sub.subset hr))
    (sorted.sublist sub) (fun r hr => word r (sub.subset hr)) ?_
  exact m.length_toList ▸ sub.length_le.trans size

theorem sound_extract {i : Nat} {r : Request} {runs : List Entry} (h : e.Sound bound file d)
    (hx : e.extract i = some (r, runs)) : ∀ o ∈ runs, o.Sound bound file d := by
  obtain ⟨q, hq, -, rfl⟩ := extract_some hx
  have sub : (e.requests.eraseIdx i).Sublist e.requests := List.eraseIdx_sublist _ _
  cases e with
  | single s =>
    have hi : i = 0 := by
      have := (List.getElem?_eq_some_iff.mp hq).1
      simp only [requests, List.length_singleton] at this
      omega
    subst hi
    simp [requests, regroup]
  | aggregate head m =>
    refine sound_regroup _ (fun s hs => h.belongs s (sub.subset hs)) (h.sorted.sublist sub)
      (fun s hs => h.headed.2.2.2 s (sub.subset hs)) ?_
    exact sub.length_le.trans h.headed.2.2.1

end Entry

theorem Division.split {rs : List Request} {parts : List Members} (h : Division rs parts)
    (factor : Nat) (sorted : rs.Pairwise fun r s => r.offset ≤ s.offset)
    (word : ∀ r ∈ rs, r.offset ≤ maxWord) : Split factor rs (parts.map (Entry.ofRun factor)) := by
  have words : ∀ m ∈ parts, ∀ r ∈ m.toList, r.offset ≤ maxWord :=
    fun m hm r hr => word r ((h.sublist hm).subset hr)
  constructor
  case whole =>
    rw [← h.whole, List.flatMap_map, List.map_flatMap, List.map_flatMap]
    exact List.flatMap_congr fun m _ => requests_ofRun factor m
  case gapless => exact List.forall_mem_map.mpr fun m hm => Entry.gapless_ofRun factor (h.gapless m hm)
  case faithful => exact List.forall_mem_map.mpr fun m hm => Entry.faithful_ofRun factor (words m hm)
  case factor_eq => exact List.forall_mem_map.mpr fun m _ => Entry.factor_ofRun factor m
  case apart =>
    refine List.pairwise_map.mpr (h.apart.imp_of_mem fun {m n} hm _ lt => ?_)
    rwa [Entry.stop_ofRun factor (words m hm), Entry.offset_ofRun]
  case bytes =>
    intro t
    have run : ∀ m ∈ parts,
        ((Entry.ofRun factor m).offset ≤ t ∧ t < (Entry.ofRun factor m).stop ↔
          ∃ r ∈ m.toList, r.offset ≤ t ∧ t < r.stop) := by
      intro m hm
      rw [Entry.offset_ofRun, Entry.stop_ofRun factor (words m hm)]
      exact Members.reaches_iff (h.gapless m hm) (sorted.sublist (h.sublist hm)) t
    rw [← h.whole]
    constructor
    · rintro ⟨_, hrun, reaches⟩
      obtain ⟨m, hm, rfl⟩ := List.mem_map.mp hrun
      obtain ⟨r, hr, here⟩ := (run m hm).mp reaches
      exact ⟨r, List.mem_flatMap.mpr ⟨m, hm, hr⟩, here⟩
    · rintro ⟨r, hr, here⟩
      obtain ⟨m, hm, hr⟩ := List.mem_flatMap.mp hr
      exact ⟨_, List.mem_map_of_mem hm, (run m hm).mpr ⟨r, hr, here⟩⟩

namespace Entry

/-- A request at a place of an entry can be taken out; the others are left in maximal runs. -/
theorem extract_splits {e : Entry} {i : Nat}
    (sorted : e.requests.Pairwise fun r s => r.offset ≤ s.offset)
    (word : ∀ r ∈ e.requests, r.offset ≤ maxWord) (hi : i < e.requests.length) :
    ∃ runs, e.extract i =
        some ({ e.requests[i] with factor := max e.requests[i].factor e.factor }, runs) ∧
      Split e.factor (e.requests.eraseIdx i) runs := by
  have sub : (e.requests.eraseIdx i).Sublist e.requests := List.eraseIdx_sublist _ _
  obtain ⟨parts, same, division⟩ := regroup_divides e.factor (sorted.sublist sub)
  refine ⟨regroup e.factor (e.requests.eraseIdx i), ?_, ?_⟩
  · rw [extract, List.getElem?_eq_getElem hi]
    rfl
  · rw [same]
    exact division.split e.factor (sorted.sublist sub) fun r hr => word r (sub.subset hr)

/-- The first request reaches over all others but the last two. Without it a nested and an empty one
stand apart, one within another ends before the next begins, and the last two end beyond all words. -/
def tangled : Entry :=
  let read := Request.reading "a"
  let members : Members := ⟨read 0 400, [read 10 5, read 50 0, read 200 100, read 210 10,
    read 280 40, read (maxWord - 5) 9, read (maxWord - 2) 9]⟩
  .aggregate (Head.of members 4) members

theorem tangled_splits : (tangled.requests.Pairwise fun r s => r.offset ≤ s.offset) ∧
    (∀ r ∈ tangled.requests, r.offset ≤ maxWord) ∧ 0 < tangled.requests.length ∧
    ∃ runs, tangled.extract 0 = some ({ tangled.first with factor := 4 }, runs) ∧
      Split 4 (tangled.requests.eraseIdx 0) runs :=
  ⟨by decide, by decide, by decide, extract_splits (by decide) (by decide) (by decide)⟩

end Entry

end IoScheduling
