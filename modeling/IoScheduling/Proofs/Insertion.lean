import IoScheduling.Proofs.Queue

/-! # What an insertion does to a queue

An entry is inserted between the entries that start no later than it does and those that start
later. Only the last of the former and the first of the latter are looked at. Which of the two the
node joins is settled by what touches it and by what fits under the limit, so that the queue after
an insertion is known up to the order of the requests inside the one entry that is formed. -/
namespace IoScheduling

/-- The offsets are words, and the head of an aggregate is the one computed from its requests. -/
structure Entry.Proper (e : Entry) : Prop where
  described : e.Described
  word : ∀ r ∈ e.requests, r.offset ≤ maxWord

instance (e : Entry) : Decidable e.Proper :=
  decidable_of_iff (e.Described ∧ ∀ r ∈ e.requests, r.offset ≤ maxWord)
    ⟨fun h => ⟨h.1, h.2⟩, fun h => ⟨h.described, h.word⟩⟩

theorem Entry.Proper.absorb {target other : Entry} (ht : target.Proper) (ho : other.Proper) :
    (target.absorb other).Proper where
  described := described_absorb target other
  word := by
    intro r hr
    rcases List.mem_append.mp ((requests_absorb_perm target other).mem_iff.mp hr) with hr | hr
    · exact ht.word r hr
    · exact ho.word r hr

namespace OffsetQueue

section

variable {node : Entry} {limit : Nat}

def Joinable (node : Entry) (limit : Nat) (e : Entry) : Prop :=
  e.touches node.offset node.stop ∧ e.count + node.count ≤ limit

/-- Both neighbours touch the node, and the three fit into one entry. -/
def Bridgeable (node : Entry) (limit : Nat) (p s : Entry) : Prop :=
  p.touches node.offset node.stop ∧ s.touches node.offset node.stop ∧
    p.count + s.count + node.count ≤ limit

/-- What an entry formed from `parts` owes to them. -/
structure Formation (limit : Nat) (parts : List Entry) (e : Entry) : Prop where
  proper : e.Proper
  requests : e.requests.Perm (parts.flatMap Entry.requests)
  room : e.count ≤ limit
  factor : (parts.map Entry.factor).max? = some e.factor
  low : (e.requests.map Request.offset).min? = some e.offset
  high : (e.requests.map Request.stop).max? = some e.stop

/-- The outcome of an insertion between `front` and `back`. The guards of the four cases exclude one
another. -/
inductive Outcome (node : Entry) (limit : Nat) :
    List Entry → List Entry → List Entry × Placement → Prop where
  | both {front back p s e} : Bridgeable node limit p s → Formation limit [p, s, node] e →
      Outcome node limit (front ++ [p]) (s :: back) (front ++ e :: back, .merged e.count)
  | before {front back p e} : Joinable node limit p →
      (∀ s ∈ back.head?, ¬ Bridgeable node limit p s ∧
        (Joinable node limit s → s.count ≤ p.count)) →
      Formation limit [p, node] e →
      Outcome node limit (front ++ [p]) back (front ++ e :: back, .merged e.count)
  | after {front back s e} : Joinable node limit s →
      (∀ p ∈ front.getLast?, ¬ Bridgeable node limit p s ∧
        (Joinable node limit p → p.count < s.count)) →
      Formation limit [s, node] e →
      Outcome node limit front (s :: back) (front ++ e :: back, .merged e.count)
  | alone {front back} : (∀ p ∈ front.getLast?, ¬ Joinable node limit p) →
      (∀ s ∈ back.head?, ¬ Joinable node limit s) →
      Outcome node limit front back (front ++ node :: back, .alone)

/-- The insertion of `node` into `queue` with the result `result`. -/
structure Inserted (queue : List Entry) (node : Entry) (limit : Nat)
    (result : List Entry × Placement) : Prop where
  inOrder : InOrder result.1
  requests : (result.1.flatMap Entry.requests).Perm
    (queue.flatMap Entry.requests ++ node.requests)
  outcome : ∃ front back, queue = front ++ back ∧ (∀ e ∈ front, e.offset ≤ node.offset) ∧
    (∀ e ∈ back, node.offset < e.offset) ∧ Outcome node limit front back result

instance (e : Entry) : Decidable (Joinable node limit e) :=
  inferInstanceAs (Decidable (_ ∧ _))

theorem filter_joinable (neighbour : Option Entry) :
    ((neighbour.filter (touching node)).filter fun e => e.count + node.count ≤ limit) =
      neighbour.filter fun e => Joinable node limit e := by
  cases neighbour with
  | none => rfl
  | some e =>
    by_cases touch : touching node e
    · have same : Joinable node limit e ↔ e.count + node.count ≤ limit := and_iff_right touch
      simp [Option.filter_some, touch, same]
    · have apart : ¬ Joinable node limit e := fun h => touch h.1
      simp [Option.filter_some, touch, apart]

theorem mem_filter_joinable {neighbour : Option Entry} {e : Entry}
    (h : (neighbour.filter fun e => Joinable node limit e) = some e) :
    e ∈ neighbour ∧ Joinable node limit e := by
  simpa [Option.filter_eq_some_iff] using h

theorem not_joinable_of_filter {neighbour : Option Entry}
    (h : (neighbour.filter fun e => Joinable node limit e) = none) :
    ∀ e ∈ neighbour, ¬ Joinable node limit e := by
  simpa [Option.filter_eq_none_iff] using h

/-- Why the choice between the neighbours falls as it does. -/
def ChoiceExact (before after : Option Entry) (node : Entry) (limit : Nat) : Joining → Prop
  | .both _ _ => False
  | .before p => ∀ s ∈ after, Joinable node limit s → s.count ≤ p.count
  | .after s => ∀ p ∈ before, Joinable node limit p → p.count < s.count
  | .none => (∀ p ∈ before, ¬ Joinable node limit p) ∧ ∀ s ∈ after, ¬ Joinable node limit s

theorem joinOne_exact (before after : Option Entry) (node : Entry) (limit : Nat) :
    ChoiceExact before after node limit
      (joinOne (before.filter (touching node)) (after.filter (touching node)) node limit) := by
  unfold joinOne
  dsimp only
  rw [filter_joinable, filter_joinable]
  split
  · rename_i b a hb ha
    have is_before := (mem_filter_joinable hb).1
    have is_after := (mem_filter_joinable ha).1
    split
    · rename_i fewer
      intro p hp _
      obtain rfl := Option.mem_unique hp is_before
      exact fewer
    · rename_i fewer
      intro s hs _
      obtain rfl := Option.mem_unique hs is_after
      exact Nat.le_of_not_lt fewer
  · rename_i b _ ha
    intro s hs fits
    exact absurd fits (not_joinable_of_filter ha s hs)
  · rename_i a hb _
    intro p hp fits
    exact absurd fits (not_joinable_of_filter hb p hp)
  · rename_i hb ha
    exact ⟨not_joinable_of_filter hb, not_joinable_of_filter ha⟩

theorem joining_cases (before after : Option Entry) (node : Entry) (limit : Nat) :
    (∃ p s, joining before after node limit = .both p s) ∨
      (∀ p ∈ before, ∀ s ∈ after, ¬ Bridgeable node limit p s) ∧
        ChoiceExact before after node limit (joining before after node limit) := by
  have choice := joinOne_exact before after node limit
  unfold joining
  dsimp only
  split
  · rename_i b a hb ha
    split
    · exact Or.inl ⟨b, a, rfl⟩
    · rename_i crowded
      refine Or.inr ⟨?_, choice⟩
      intro p hp s hs bridge
      obtain rfl := Option.mem_unique hp (Option.filter_eq_some_iff.mp hb).1
      obtain rfl := Option.mem_unique hs (Option.filter_eq_some_iff.mp ha).1
      exact crowded bridge.2.2
  · rename_i apart
    refine Or.inr ⟨?_, choice⟩
    intro p hp s hs bridge
    exact apart p s (Option.filter_eq_some_iff.mpr ⟨hp, bridge.1⟩)
      (Option.filter_eq_some_iff.mpr ⟨hs, bridge.2.1⟩)

theorem formation_absorb {parts : List Entry} {target other : Entry} (ht : target.Proper)
    (ho : other.Proper)
    (requests : (target.requests ++ other.requests).Perm (parts.flatMap Entry.requests))
    (room : target.count + other.count ≤ limit)
    (factor : (parts.map Entry.factor).max? = some (max target.factor other.factor)) :
    Formation limit parts (target.absorb other) := by
  have proper := ht.absorb ho
  constructor
  case proper => exact proper
  case requests => exact (requests_absorb_perm target other).trans requests
  case room => rwa [count_absorb]
  case factor => exact factor
  case low =>
    rw [← Entry.toList_members, Members.min?_map_toList, proper.described.offset_eq]
  case high =>
    rw [← Entry.toList_members, Members.max?_map_toList, proper.described.stop_eq proper.word]

theorem formation_pair {e : Entry} (he : e.Proper) (hn : node.Proper)
    (fits : Joinable node limit e) : Formation limit [e, node] (e.absorb node) := by
  apply formation_absorb he hn
  · simp
  · exact fits.2
  · rfl

theorem formation_bridge {p s : Entry} (hp : p.Proper) (hs : s.Proper) (hn : node.Proper)
    (fits : Bridgeable node limit p s) :
    Formation limit [p, s, node] ((p.absorb s).absorb node) := by
  apply formation_absorb (hp.absorb hs) hn
  · simpa using (requests_absorb_perm p s).append_right node.requests
  · rw [count_absorb]
    exact fits.2.2
  · rfl

variable {front back queue : List Entry} {result : List Entry × Placement}

theorem Outcome.requests (h : Outcome node limit front back result) :
    (result.1.flatMap Entry.requests).Perm
      ((front ++ back).flatMap Entry.requests ++ node.requests) := by
  apply List.perm_iff_count.mpr
  intro r
  cases h with
  | both _ formed =>
    have parts := formed.requests.count_eq r
    simp only [List.flatMap_cons, List.flatMap_nil, List.flatMap_append, List.count_append,
      List.count_nil] at parts ⊢
    omega
  | before _ _ formed =>
    have parts := formed.requests.count_eq r
    simp only [List.flatMap_cons, List.flatMap_nil, List.flatMap_append, List.count_append,
      List.count_nil] at parts ⊢
    omega
  | after _ _ formed =>
    have parts := formed.requests.count_eq r
    simp only [List.flatMap_cons, List.flatMap_nil, List.flatMap_append, List.count_append,
      List.count_nil] at parts ⊢
    omega
  | alone =>
    simp only [List.flatMap_cons, List.flatMap_append, List.count_append]
    omega

theorem outcome_insert (hq : ∀ e ∈ queue, e.Proper) (hn : node.Proper) (limit : Nat) :
    Outcome node limit (queue.take (slot queue node.offset))
      (queue.drop (slot queue node.offset)) (insert queue node limit) := by
  have shape := spliced queue node limit
  have whole := List.take_append_drop (slot queue node.offset) queue
  generalize insert queue node limit = result at shape ⊢
  generalize queue.take (slot queue node.offset) = front at shape whole ⊢
  generalize queue.drop (slot queue node.offset) = back at shape whole ⊢
  subst whole
  have sound := joining_sound front.getLast? back.head? node limit
  have cases := joining_cases front.getLast? back.head? node limit
  generalize joining front.getLast? back.head? node limit = j at shape sound cases
  cases shape with
  | both front back b a =>
    have bridge : Bridgeable node limit b a := sound.2.2
    exact .both bridge (formation_bridge (hq b (by simp)) (hq a (by simp)) hn bridge)
  | before front back e =>
    obtain ⟨_, _, other⟩ | ⟨apart, choice⟩ := cases
    · cases other
    · have fits : Joinable node limit e := sound.2
      refine .before fits ?_ (formation_pair (hq e (by simp)) hn fits)
      intro s hs
      exact ⟨apart e sound.1 s hs, choice s hs⟩
  | after front back e =>
    obtain ⟨_, _, other⟩ | ⟨apart, choice⟩ := cases
    · cases other
    · have fits : Joinable node limit e := sound.2
      refine .after fits ?_ (formation_pair (hq e (by simp)) hn fits)
      intro p hp
      exact ⟨apart p hp e sound.1, choice p hp⟩
  | alone =>
    obtain ⟨_, _, other⟩ | ⟨-, choice⟩ := cases
    · cases other
    · exact .alone choice.1 choice.2

end

/-- An insertion into a queue in order comes out as specified, whatever the limit. -/
theorem insert_specified {queue : List Entry} {node : Entry} (limit : Nat) (order : InOrder queue)
    (hq : ∀ e ∈ queue, e.Proper) (hn : node.Proper) :
    Inserted queue node limit (insert queue node limit) := by
  have outcome := outcome_insert hq hn limit
  have shape := insertion queue node limit
  obtain ⟨front, back, rfl, low, high, place⟩ := exists_slot Entry.offset node.offset order
  rw [slot, place, List.take_left, List.drop_left] at outcome shape
  have described : ∀ e ∈ front ++ back, e.Described := fun e he => (hq e he).described
  constructor
  case inOrder => exact inOrder_insertion shape order described hn.described low high
  case requests => exact outcome.requests
  case outcome => exact ⟨front, back, rfl, low, high, outcome⟩

/-- A lone request lies within the range of a full aggregate, and another follows it after a gap. -/
def nested : List Entry :=
  let members : Members := ⟨.reading "a" 0 50, [.reading "a" 50 50, .reading "a" 60 10]⟩
  [.aggregate (Head.of members 8) members, .single (.reading "a" 20 10),
    .single (.reading "a" 40 20)]

def gap : Entry :=
  let members : Members := ⟨.reading "a" 30 5, [.reading "a" 35 5]⟩
  .aggregate (Head.of members 2) members

/-- Neighbours of one request each touch the node, and there is room for one of them. -/
theorem gap_specified : InOrder nested ∧ (∀ e ∈ nested, e.Proper) ∧ gap.Proper ∧
    Inserted nested gap 3 (insert nested gap 3) := by
  have order : InOrder nested := by
    unfold InOrder
    decide
  exact ⟨order, by decide, by decide, insert_specified 3 order (by decide) (by decide)⟩

example : (insert nested gap 3).1.map Entry.count = [3, 3, 1] := by decide +kernel

example : (insert nested gap 4).2 = .merged 4 := by decide +kernel

end OffsetQueue

end IoScheduling
