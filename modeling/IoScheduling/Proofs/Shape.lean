import IoScheduling.Pending.Ring
import IoScheduling.Proofs.Contents

/-! # The shape of entries

The requests of an entry stand in the order of their offsets and leave no gap, and the head of an
aggregate describes exactly its requests. That a range has no gap is said of a set of requests and
not of their order, so that joining two ranges is a matter of two numbers. -/
namespace IoScheduling

theorem exists_boundary {α : Type} {p : α → Bool} {xs : List α}
    (h : xs.Pairwise fun a b => p b → p a) :
    ∃ front back, xs = front ++ back ∧ (∀ x ∈ front, p x) ∧ (∀ x ∈ back, p x = false) ∧
      partitionPoint p xs = front.length := by
  have parts : ∃ front back, xs = front ++ back ∧ (∀ x ∈ front, p x) ∧
      (∀ x ∈ back, p x = false) := by
    induction xs with
    | nil => exact ⟨[], [], rfl, by simp, by simp⟩
    | cons x xs ih =>
      obtain ⟨hx, hxs⟩ := List.pairwise_cons.mp h
      by_cases px : p x
      · obtain ⟨front, back, rfl, hf, hb⟩ := ih hxs
        exact ⟨x :: front, back, rfl, List.forall_mem_cons.mpr ⟨px, hf⟩, hb⟩
      · refine ⟨[], x :: xs, rfl, by simp, ?_⟩
        have none : ∀ y ∈ xs, p y = false := fun y hy =>
          Bool.eq_false_iff.mpr fun py => px (hx y hy py)
        exact List.forall_mem_cons.mpr ⟨Bool.eq_false_iff.mpr px, none⟩
  obtain ⟨front, back, rfl, hf, hb⟩ := parts
  exact ⟨front, back, rfl, hf, hb, partitionPoint_append hf hb⟩

theorem exists_slot {α : Type} (key : α → Nat) {xs : List α} (n : Nat)
    (h : xs.Pairwise fun a b => key a ≤ key b) :
    ∃ front back, xs = front ++ back ∧ (∀ x ∈ front, key x ≤ n) ∧ (∀ x ∈ back, n < key x) ∧
      partitionPoint (fun x => key x ≤ n) xs = front.length := by
  have mono : xs.Pairwise fun a b => decide (key b ≤ n) → decide (key a ≤ n) :=
    h.imp fun hab hb => decide_eq_true (hab.trans (of_decide_eq_true hb))
  obtain ⟨front, back, he, hf, hb, hp⟩ := exists_boundary mono
  exact ⟨front, back, he, fun x hx => of_decide_eq_true (hf x hx),
    fun x hx => Nat.lt_of_not_le (of_decide_eq_false (hb x hx)), hp⟩

theorem pairwise_insert_slot {α : Type} (key : α → Nat) {xs : List α} (a : α)
    (h : xs.Pairwise fun a b => key a ≤ key b) :
    (xs.insertIdx (partitionPoint (fun x => key x ≤ key a) xs) a).Pairwise
      fun a b => key a ≤ key b := by
  obtain ⟨front, back, rfl, hf, hb, hp⟩ := exists_slot key (key a) h
  obtain ⟨h1, h2, h3⟩ := List.pairwise_append.mp h
  rw [hp, Ring.insertIdx_length_append]
  refine List.pairwise_append.mpr ⟨h1, List.pairwise_cons.mpr ⟨?_, h2⟩, ?_⟩
  · exact fun b hm => (hb b hm).le
  · intro x hx b hm
    rcases List.mem_cons.mp hm with rfl | hm
    · exact hf x hx
    · exact h3 x hx b hm

namespace Members

theorem min?_map_toList (f : Request → Nat) (m : Members) :
    (m.toList.map f).min? = some (m.least f) := by
  rw [toList, List.map_cons, List.min?_cons', List.foldl_map, least]

theorem max?_map_toList (f : Request → Nat) (m : Members) :
    (m.toList.map f).max? = some (m.greatest f) := by
  rw [toList, List.map_cons, List.max?_cons', List.foldl_map, greatest]

theorem least_le (f : Request → Nat) {m : Members} {r : Request} (h : r ∈ m.toList) :
    m.least f ≤ f r :=
  (List.min?_eq_some_iff.mp (min?_map_toList f m)).2 _ (List.mem_map_of_mem h)

theorem le_greatest (f : Request → Nat) {m : Members} {r : Request} (h : r ∈ m.toList) :
    f r ≤ m.greatest f :=
  (List.max?_eq_some_iff.mp (max?_map_toList f m)).2 _ (List.mem_map_of_mem h)

theorem exists_least (f : Request → Nat) (m : Members) : ∃ r ∈ m.toList, f r = m.least f :=
  List.mem_map.mp (List.min?_eq_some_iff.mp (min?_map_toList f m)).1

theorem exists_greatest (f : Request → Nat) (m : Members) :
    ∃ r ∈ m.toList, f r = m.greatest f :=
  List.mem_map.mp (List.max?_eq_some_iff.mp (max?_map_toList f m)).1

variable {m a b : Members}

theorem least_append (f : Request → Nat) (h : m.toList.Perm (a.toList ++ b.toList)) :
    m.least f = min (a.least f) (b.least f) := by
  apply le_antisymm
  · obtain ⟨r, hr, er⟩ := exists_least f a
    obtain ⟨s, hs, es⟩ := exists_least f b
    have h1 := least_le f (h.mem_iff.mpr (List.mem_append_left _ hr))
    have h2 := least_le f (h.mem_iff.mpr (List.mem_append_right _ hs))
    omega
  · obtain ⟨r, hr, er⟩ := exists_least f m
    rw [← er]
    rcases List.mem_append.mp (h.mem_iff.mp hr) with hr | hr
    · exact (min_le_left _ _).trans (least_le f hr)
    · exact (min_le_right _ _).trans (least_le f hr)

theorem greatest_append (f : Request → Nat) (h : m.toList.Perm (a.toList ++ b.toList)) :
    m.greatest f = max (a.greatest f) (b.greatest f) := by
  apply le_antisymm
  · obtain ⟨r, hr, er⟩ := exists_greatest f m
    rw [← er]
    rcases List.mem_append.mp (h.mem_iff.mp hr) with hr | hr
    · exact (le_greatest f hr).trans (le_max_left _ _)
    · exact (le_greatest f hr).trans (le_max_right _ _)
  · obtain ⟨r, hr, er⟩ := exists_greatest f a
    obtain ⟨s, hs, es⟩ := exists_greatest f b
    have h1 := le_greatest f (h.mem_iff.mpr (List.mem_append_left _ hr))
    have h2 := le_greatest f (h.mem_iff.mpr (List.mem_append_right _ hs))
    omega

theorem pairwise_insert {r : Request}
    (h : m.toList.Pairwise fun r s => r.offset ≤ s.offset) :
    (m.insert r).toList.Pairwise fun r s => r.offset ≤ s.offset := by
  rw [Members.insert, toList_insertAt]
  exact pairwise_insert_slot Request.offset r h

theorem pairwise_foldl_insert {rs : List Request}
    (h : m.toList.Pairwise fun r s => r.offset ≤ s.offset) :
    (rs.foldl Members.insert m).toList.Pairwise fun r s => r.offset ≤ s.offset := by
  induction rs generalizing m with
  | nil => exact h
  | cons r rs ih => exact ih (pairwise_insert h)

end Members

/-- Every point of the range is reached by a request that starts before it. -/
def Covers (rs : List Request) (low high : Nat) : Prop :=
  ∀ t, low < t → t ≤ high → ∃ r ∈ rs, r.offset < t ∧ t ≤ r.stop

theorem covers_request (r : Request) : Covers [r] r.offset r.stop :=
  fun _ hl hh => ⟨r, List.mem_singleton_self r, hl, hh⟩

theorem covers_subset {rs ss : List Request} {low high : Nat} (h : Covers rs low high)
    (hs : rs ⊆ ss) : Covers ss low high := by
  intro t hl hh
  obtain ⟨r, hr, k⟩ := h t hl hh
  exact ⟨r, hs hr, k⟩

theorem covers_append {rs ss : List Request} {a b c d : Nat} (h : Covers rs a b)
    (k : Covers ss c d) (hl : a ≤ d) (hr : c ≤ b) :
    Covers (rs ++ ss) (min a c) (max b d) := by
  intro t lo hi
  have side : (a < t ∧ t ≤ b) ∨ (c < t ∧ t ≤ d) := by omega
  rcases side with ⟨l, u⟩ | ⟨l, u⟩
  · exact covers_subset h (List.subset_append_left rs ss) t l u
  · exact covers_subset k (List.subset_append_right rs ss) t l u

theorem reached_of_covers {front back : List Request} {r : Request} {low high : Nat}
    (h : Covers (front ++ r :: back) low high)
    (sorted : (front ++ r :: back).Pairwise fun r s => r.offset ≤ s.offset)
    (bounds : ∀ s ∈ front ++ r :: back, low ≤ s.offset ∧ s.offset ≤ s.stop ∧ s.stop ≤ high)
    (hne : front ≠ []) : ∃ s ∈ front, r.offset ≤ s.stop := by
  obtain ⟨-, hr, cross⟩ := List.pairwise_append.mp sorted
  have br := bounds r (by simp)
  -- Either the point `r.offset` is reached from in front, or nothing starts before it.
  rcases br.1.lt_or_eq with lt | eq
  · obtain ⟨s, hs, before, reach⟩ := h r.offset lt (br.2.1.trans br.2.2)
    rcases List.mem_append.mp hs with hs | hs
    · exact ⟨s, hs, reach⟩
    · rcases List.mem_cons.mp hs with rfl | hs
      · omega
      · have := (List.pairwise_cons.mp hr).1 s hs
        omega
  · obtain ⟨s, hs⟩ := List.exists_mem_of_ne_nil front hne
    have bs := bounds s (List.mem_append_left _ hs)
    have := cross s hs r List.mem_cons_self
    exact ⟨s, hs, by omega⟩

def Entry.Described : Entry → Prop
  | .single _ => True
  | .aggregate h m => h = Head.of m h.factor

instance (e : Entry) : Decidable e.Described :=
  match e with
  | .single _ => inferInstanceAs (Decidable True)
  | .aggregate h m => inferInstanceAs (Decidable (h = Head.of m h.factor))

/-- The head describes exactly the members, of which there are at least two and at most `bound`. -/
def Entry.Headed (bound : Nat) : Entry → Prop
  | .single _ => True
  | .aggregate h m => h = Head.of m h.factor ∧ 2 ≤ m.length ∧ m.length ≤ bound ∧
      ∀ r ∈ m.toList, r.offset ≤ maxWord

/-- An entry of one lane, gaps aside. -/
structure Entry.Formed (bound : Nat) (file : String) (d : Direction) (e : Entry) : Prop where
  belongs : ∀ r ∈ e.requests, r.file = file ∧ r.direction = d
  sorted : e.requests.Pairwise fun r s => r.offset ≤ s.offset
  headed : e.Headed bound

structure Entry.Sound (bound : Nat) (file : String) (d : Direction) (e : Entry) : Prop
    extends e.Formed bound file d where
  covered : Covers e.requests e.offset e.stop

theorem stop_le_maxWord (r : Request) : r.stop ≤ maxWord := satAdd_le_maxWord _ _

theorem offset_le_stop {r : Request} (h : r.offset ≤ maxWord) : r.offset ≤ r.stop := le_satAdd h

theorem Entry.count_pos (e : Entry) : 0 < e.count := by
  cases e with
  | single => exact Nat.one_pos
  | aggregate => exact Nat.succ_pos _

theorem Entry.requests_ne_nil (e : Entry) : e.requests ≠ [] :=
  List.ne_nil_of_length_pos (e.length_requests ▸ e.count_pos)

theorem entries_eq_nil {es : List Entry} (h : contents es = 0) : es = [] := by
  cases es with
  | nil => rfl
  | cons e es =>
    have size := congrArg Multiset.card h
    rw [contents_cons, Multiset.card_add, card_contents_entry, Multiset.card_zero] at size
    have := e.count_pos
    omega

namespace Entry

variable {bound : Nat} {file : String} {d : Direction} {e o : Entry}

theorem first_mem (e : Entry) : e.first ∈ e.requests := by
  cases e <;> exact List.mem_cons_self

theorem Formed.own (h : e.Formed bound file d) : e.file = file ∧ e.direction = d :=
  h.belongs e.first e.first_mem

theorem Formed.file_eq (h : e.Formed bound file d) : ∀ r ∈ e.contents, r.file = file := by
  intro r hr
  obtain ⟨q, hq, rfl⟩ := List.mem_map.mp (Multiset.mem_coe.mp hr)
  exact (h.belongs q hq).1

theorem Sound.alone (h : e.Sound bound file d) : e.Sound bound e.file e.direction := by
  obtain ⟨rfl, rfl⟩ := h.own
  exact h

theorem sound_single {r : Request} (hf : r.file = file) (hd : r.direction = d) :
    (single r).Sound bound file d where
  belongs := by simp [requests, hf, hd]
  sorted := List.pairwise_singleton _ r
  headed := trivial
  covered := covers_request r

theorem Described.offset_eq (h : e.Described) : e.offset = e.members.least Request.offset := by
  cases e with
  | single => rfl
  | aggregate head m => exact congrArg Head.offset h

theorem Described.stop_eq (h : e.Described) (word : ∀ r ∈ e.requests, r.offset ≤ maxWord) :
    e.stop = e.members.greatest Request.stop := by
  cases e with
  | single => rfl
  | aggregate head m =>
    obtain ⟨r, hr, er⟩ := m.exists_least Request.offset
    obtain ⟨s, hs, es⟩ := m.exists_greatest Request.stop
    have h1 := offset_le_stop (word r hr)
    have h2 := m.le_greatest Request.stop hr
    have h3 := stop_le_maxWord s
    have low : head.offset = m.least Request.offset := congrArg Head.offset h
    have span : head.length = m.greatest Request.stop - m.least Request.offset :=
      congrArg Head.length h
    change satAdd head.offset head.length = m.greatest Request.stop
    rw [satAdd_eq (by omega)]
    omega

theorem Headed.described (h : e.Headed bound) : e.Described := by
  cases e with
  | single => trivial
  | aggregate head m => exact h.1

theorem Headed.offset_eq (h : e.Headed bound) : e.offset = e.members.least Request.offset :=
  h.described.offset_eq

theorem Headed.word (h : e.Headed bound) (hw : e.offset ≤ maxWord) :
    ∀ r ∈ e.requests, r.offset ≤ maxWord := by
  cases e with
  | single r =>
    intro s hs
    obtain rfl := List.mem_singleton.mp hs
    exact hw
  | aggregate head m => exact h.2.2.2

theorem Headed.stop_eq (h : e.Headed bound) : e.stop = e.members.greatest Request.stop := by
  cases e with
  | single => rfl
  | aggregate head m => exact h.described.stop_eq h.2.2.2

theorem Headed.withFactor (h : e.Headed bound) (n : Nat) : (e.withFactor n).Headed bound := by
  cases e with
  | single => trivial
  | aggregate head m => exact ⟨by rw [h.1]; rfl, h.2⟩

theorem Sound.withFactor (h : e.Sound bound file d) (n : Nat) :
    (e.withFactor n).Sound bound file d := by
  cases e with
  | single r =>
    have hr := h.belongs r (List.mem_singleton_self r)
    exact sound_single hr.1 hr.2
  | aggregate head m => exact ⟨⟨h.belongs, h.sorted, h.headed.withFactor n⟩, h.covered⟩

theorem touches_word (h : e.touches o.offset o.stop) :
    e.offset ≤ o.stop ∧ o.offset ≤ e.stop ∧ e.offset ≤ maxWord ∧ o.offset ≤ maxWord := by
  obtain ⟨h1, h2⟩ : e.offset ≤ o.stop ∧ o.offset ≤ e.stop := by simpa [touches] using h
  exact ⟨h1, h2, h1.trans (satAdd_le_maxWord _ _), h2.trans (satAdd_le_maxWord _ _)⟩

theorem members_absorb_perm (e o : Entry) :
    (e.absorb o).members.toList.Perm (e.members.toList ++ o.members.toList) := by
  simpa using requests_absorb_perm e o

theorem formed_absorb (he : e.Formed bound file d) (ho : o.Formed bound file d)
    (hw : e.offset ≤ maxWord) (hw' : o.offset ≤ maxWord) (hc : e.count + o.count ≤ bound) :
    (e.absorb o).Formed bound file d where
  belongs := by
    intro r hr
    rcases List.mem_append.mp ((requests_absorb_perm e o).mem_iff.mp hr) with hr | hr
    · exact he.belongs r hr
    · exact ho.belongs r hr
  sorted := Members.pairwise_foldl_insert (by simpa using he.sorted)
  headed := by
    have size : (o.requests.foldl Members.insert e.members).length = e.count + o.count :=
      count_absorb e o
    have h1 := count_pos e
    have h2 := count_pos o
    refine ⟨rfl, by omega, by omega, ?_⟩
    intro r hr
    rcases List.mem_append.mp ((requests_absorb_perm e o).mem_iff.mp hr) with hr | hr
    · exact he.headed.word hw r hr
    · exact ho.headed.word hw' r hr

theorem described_absorb (e o : Entry) : (e.absorb o).Described := rfl

theorem offset_absorb (he : e.Described) (ho : o.Described) :
    (e.absorb o).offset = min e.offset o.offset := by
  rw [he.offset_eq, ho.offset_eq]
  exact Members.least_append Request.offset (members_absorb_perm e o)

theorem stop_absorb (he : e.Headed bound) (ho : o.Headed bound)
    (h : (e.absorb o).Headed bound) : (e.absorb o).stop = max e.stop o.stop := by
  rw [he.stop_eq, ho.stop_eq, h.stop_eq]
  exact Members.greatest_append Request.stop (members_absorb_perm e o)

theorem sound_absorb (he : e.Sound bound file d) (ho : o.Sound bound file d)
    (ht : e.touches o.offset o.stop) (hc : e.count + o.count ≤ bound) :
    (e.absorb o).Sound bound file d := by
  obtain ⟨h1, h2, h3, h4⟩ := touches_word ht
  have formed := formed_absorb he.toFormed ho.toFormed h3 h4 hc
  refine ⟨formed, ?_⟩
  rw [offset_absorb he.headed.described ho.headed.described,
    stop_absorb he.headed ho.headed formed.headed]
  exact covers_subset (covers_append he.covered ho.covered h1 h2)
    (requests_absorb_perm e o).symm.subset

/-- The neighbours of an entry need not touch each other; joined with it they have no gap. -/
theorem sound_bridge {before after node : Entry} (hb : before.Sound bound file d)
    (ha : after.Sound bound file d) (hn : node.Sound bound file d)
    (htb : before.touches node.offset node.stop) (hta : after.touches node.offset node.stop)
    (hc : before.count + after.count + node.count ≤ bound) :
    ((before.absorb after).absorb node).Sound bound file d := by
  obtain ⟨b1, b2, b3, b4⟩ := touches_word htb
  obtain ⟨a1, a2, a3, a4⟩ := touches_word hta
  have outer := formed_absorb hb.toFormed ha.toFormed b3 a3 (by have := count_pos node; omega)
  have low := offset_absorb hb.headed.described ha.headed.described
  have high := stop_absorb hb.headed ha.headed outer.headed
  have formed := formed_absorb outer hn.toFormed (by omega) b4 (by rw [count_absorb]; exact hc)
  refine ⟨formed, ?_⟩
  -- `before` and `after` may lie apart, so the ranges are joined through `node`.
  have joined := covers_append (covers_append hb.covered hn.covered b1 b2) ha.covered
    (by omega) (by omega)
  rw [offset_absorb (described_absorb _ _) hn.headed.described,
    stop_absorb outer.headed hn.headed formed.headed, low, high]
  have sub : before.requests ++ node.requests ++ after.requests ⊆
      ((before.absorb after).absorb node).requests := by
    intro r hr
    rw [(requests_absorb_perm _ _).mem_iff, List.mem_append, (requests_absorb_perm _ _).mem_iff]
    simp only [List.mem_append] at hr ⊢
    rcases hr with (h | h) | h
    · exact Or.inl (Or.inl h)
    · exact Or.inr h
    · exact Or.inl (Or.inr h)
  intro t hl hh
  exact covers_subset joined sub t (by omega) (by omega)

end Entry

end IoScheduling
