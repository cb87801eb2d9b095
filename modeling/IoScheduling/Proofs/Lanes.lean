import IoScheduling.Pending.FileState
import IoScheduling.Proofs.Queue

/-! # Lanes

A lane counts the requests and the bytes of its queue. What its operations do to the queue is known,
so both counters stay exact if they change by what the queue takes in or gives up; that of the bytes
is a word and may have wrapped around. -/
namespace IoScheduling

namespace Lane

def contents (l : Lane) : Multiset Request := IoScheduling.contents l.entries

/-- The bytes that wait in the lane fit in a word. -/
def Fits (l : Lane) : Prop := sumOf Request.length (l.entries.flatMap Entry.requests) < wordCount

/-- The queue of the lane is sound and its two counters are exact. -/
structure Sound (bound : Nat) (file : String) (d : Direction) (l : Lane) : Prop where
  queue : OffsetQueue.Sound bound file d l.entries
  requests_eq : l.requests = l.contents.card
  bytes_eq : l.bytes = wrapWord (l.contents.map Request.length).sum

variable {bound limit : Nat} {file : String} {d : Direction} {l : Lane} {e : Entry}

theorem sound_empty : empty.Sound bound file d := ⟨OffsetQueue.sound_nil, rfl, rfl⟩

theorem Sound.congr {l' : Lane} (h : l.Sound bound file d) (he : l'.entries = l.entries)
    (hr : l'.requests = l.requests) (hb : l'.bytes = l.bytes) : l'.Sound bound file d := by
  have hc : l'.contents = l.contents := congrArg IoScheduling.contents he
  exact ⟨he ▸ h.queue, by rw [hr, hc, h.requests_eq], by rw [hb, hc, h.bytes_eq]⟩

theorem contents_insert (l : Lane) (e : Entry) (limit : Nat) :
    (l.insert e limit).1.contents = l.contents + e.contents :=
  OffsetQueue.contents_insert l.entries e limit

theorem sound_insert (h : l.Sound bound file d) (he : e.Sound bound file d)
    (hl : limit ≤ bound) : (l.insert e limit).1.Sound bound file d where
  queue := OffsetQueue.sound_insert h.queue he hl
  requests_eq := by
    rw [contents_insert, Multiset.card_add, card_contents_entry, ← h.requests_eq]
    rfl
  bytes_eq := by
    rw [contents_insert, Multiset.map_add, Multiset.sum_add, ← wrapAdd_wrapWord, ← h.bytes_eq,
      ← bytes_eq_contents]
    rfl

theorem detach?_some {i : Nat} {l' : Lane} (h : l.detach? i = some (e, l')) :
    l.entries[i]? = some e ∧ l' = { l with
      entries := l.entries.eraseIdx i
      bytes := wrapSub l.bytes e.bytes
      requests := l.requests - e.count } := by
  obtain ⟨q, hq, h⟩ := Option.map_eq_some_iff.mp h
  obtain ⟨rfl, rfl⟩ := Prod.mk.inj h
  exact ⟨hq, rfl⟩

theorem contents_of_getElem? {i : Nat} (h : l.entries[i]? = some e) :
    l.contents = e.contents + IoScheduling.contents (l.entries.eraseIdx i) := by
  obtain ⟨hi, rfl⟩ := List.getElem?_eq_some_iff.mp h
  rw [contents, ← contents_perm (List.getElem_cons_eraseIdx_perm hi), contents_cons]

theorem contents_detach? {i : Nat} {l' : Lane} (h : l.detach? i = some (e, l')) :
    l.contents = e.contents + l'.contents := by
  obtain ⟨he, rfl⟩ := detach?_some h
  exact contents_of_getElem? he

theorem Sound.split {es : List Entry} {c : Multiset Request} (h : l.Sound bound file d)
    (hc : l.contents = c + IoScheduling.contents es) :
    l.requests = c.card + (IoScheduling.contents es).card ∧
      l.bytes = wrapWord ((c.map Request.length).sum +
        ((IoScheduling.contents es).map Request.length).sum) := by
  rw [h.requests_eq, h.bytes_eq, hc]
  simp

theorem Sound.bytes_exact (h : l.Sound bound file d) :
    l.bytes = bytesOf (l.entries.flatMap Entry.requests) :=
  h.bytes_eq.trans (congrArg wrapWord (sum_length_bareBag _))

theorem Sound.bytes_le {c rest : Multiset Request} (h : l.Sound bound file d) (fits : l.Fits)
    (hc : l.contents = c + rest) : (c.map Request.length).sum ≤ l.bytes := by
  have total : (l.contents.map Request.length).sum < wordCount :=
    (sum_length_bareBag _).trans_lt fits
  rw [h.bytes_eq, wrapWord_eq total, hc, Multiset.map_add, Multiset.sum_add]
  exact Nat.le_add_right _ _

theorem sound_detach? {i : Nat} {l' : Lane} (h : l.Sound bound file d)
    (hd : l.detach? i = some (e, l')) :
    l'.Sound bound file d ∧ l.requests = e.count + l'.requests := by
  obtain ⟨he, rfl⟩ := detach?_some hd
  obtain ⟨hr, hb⟩ := h.split (contents_of_getElem? he)
  rw [card_contents_entry] at hr
  have queue := h.queue.sublist (List.eraseIdx_sublist l.entries i)
  dsimp only
  refine ⟨⟨queue, ?_, ?_⟩, by omega⟩
  · dsimp only [contents]
    omega
  · rw [hb, bytes_eq_contents, wrapSub_wrapWord, wrapSub_add]
    rfl

theorem sound_drain (l : Lane) : l.drain.2.Sound bound file d := sound_empty.congr rfl rfl rfl

theorem withdraw?_some {a : Address} {r : Request} {l' : Lane}
    (h : l.withdraw? a = some (r, l')) :
    ∃ entries, OffsetQueue.withdraw l.entries a = some (r, entries) ∧ l' = { l with
      entries := entries, bytes := wrapSub l.bytes r.length, requests := l.requests - 1 } := by
  obtain ⟨⟨q, entries⟩, hq, h⟩ := Option.map_eq_some_iff.mp h
  obtain ⟨rfl, rfl⟩ := Prod.mk.inj h
  exact ⟨entries, hq, rfl⟩

theorem contents_withdraw? {a : Address} {r : Request} {l' : Lane}
    (h : l.withdraw? a = some (r, l')) : l.contents = r.bare ::ₘ l'.contents := by
  obtain ⟨entries, hw, rfl⟩ := withdraw?_some h
  exact OffsetQueue.contents_withdraw hw

theorem sound_withdraw? {a : Address} {r : Request} {l' : Lane} (h : l.Sound bound file d)
    (hw : l.withdraw? a = some (r, l')) :
    l'.Sound bound file d ∧ l.requests = 1 + l'.requests := by
  obtain ⟨entries, hq, rfl⟩ := withdraw?_some hw
  obtain ⟨hr, hb⟩ := h.split (c := {r.bare}) (OffsetQueue.contents_withdraw hq)
  rw [Multiset.card_singleton] at hr
  rw [Multiset.map_singleton, Multiset.sum_singleton, Request.length_bare] at hb
  have queue := OffsetQueue.sound_withdraw h.queue hq
  dsimp only
  refine ⟨⟨queue, ?_, ?_⟩, by omega⟩
  · dsimp only [contents]
    omega
  · rw [hb, wrapSub_add]
    rfl

theorem release?_some {a : Address} {h : HandedOut} {l' : Lane}
    (hr : l.release? a = some (h, l')) :
    ∃ i : Nat, l.handedOut[i]? = some h ∧ h.request.matchesRange a ∧
      l' = { l with handedOut := l.handedOut.eraseIdx i } := by
  simp only [release?, Option.bind_eq_bind, Option.bind_eq_some_iff, Option.pure_def,
    Option.some.injEq, Prod.mk.injEq] at hr
  obtain ⟨i, hi, q, hq, rfl, rfl⟩ := hr
  obtain ⟨lt, matches', -⟩ := List.findIdx?_eq_some_iff_getElem.mp hi
  obtain ⟨_, rfl⟩ := List.getElem?_eq_some_iff.mp hq
  exact ⟨i, hq, matches', rfl⟩

def promoteAt (i : Nat) (l : Lane) : Lane := { l with entries := l.entries.modify i Entry.promote }

/-- The same entries with other factors. -/
abbrev Refactored : List Entry → List Entry → Prop :=
  List.Forall₂ fun e e' => ∃ n, e' = e.withFactor n

variable {es fs : List Entry}

theorem refactored_refl (es : List Entry) : Refactored es es :=
  List.forall₂_same.mpr fun e _ => ⟨e.factor, e.withFactor_factor.symm⟩

theorem refactored_promoteAt (es : List Entry) (i : Nat) :
    Refactored es (es.modify i Entry.promote) := by
  induction es generalizing i with
  | nil =>
    rw [List.modify_nil]
    exact .nil
  | cons e es ih =>
    cases i with
    | zero => exact .cons ⟨_, rfl⟩ (refactored_refl es)
    | succ i => exact .cons ⟨_, e.withFactor_factor.symm⟩ (ih i)

theorem refactored_promoteAll (es : List Entry) : Refactored es (es.map Entry.promote) :=
  List.forall₂_map_right_iff.mpr (List.forall₂_same.mpr fun _ _ => ⟨_, rfl⟩)

theorem contents_refactored (h : Refactored es fs) :
    IoScheduling.contents fs = IoScheduling.contents es := by
  induction h with
  | nil => rfl
  | cons first _ ih =>
    obtain ⟨n, rfl⟩ := first
    rw [contents_cons, contents_cons, contents_withFactor, ih]

theorem queue_refactored (h : Refactored es fs) (hq : OffsetQueue.Sound bound file d es) :
    OffsetQueue.Sound bound file d fs := by
  have offsets : fs.map Entry.offset = es.map Entry.offset := by
    induction h with
    | nil => rfl
    | cons first _ ih =>
      obtain ⟨n, rfl⟩ := first
      rw [List.map_cons, List.map_cons, Entry.offset_withFactor,
        ih (hq.sublist (List.sublist_cons_self _ _))]
  refine ⟨?_, ?_⟩
  · have order := List.pairwise_map.mpr hq.inOrder
    rw [← offsets] at order
    exact List.pairwise_map.mp order
  · intro e he
    obtain ⟨i, hi, rfl⟩ := List.getElem_of_mem he
    obtain ⟨n, same⟩ := h.get (h.length_eq ▸ hi) hi
    rw [List.get_eq_getElem] at same
    rw [same]
    exact (hq.entries _ (List.get_mem _ _)).withFactor n

theorem sound_refactored (hl : l.Sound bound file d) (h : Refactored l.entries fs) :
    ({ l with entries := fs } : Lane).Sound bound file d where
  queue := queue_refactored h hl.queue
  requests_eq := hl.requests_eq.trans (congrArg _ (contents_refactored h).symm)
  bytes_eq := hl.bytes_eq.trans (by rw [contents, contents, contents_refactored h])

end Lane

end IoScheduling
