import IoScheduling.Proofs.Splitting
import Mathlib.Tactic.Abel

/-! # Offset-ordered queues

An insertion replaces at most the two neighbours of the new entry, and a withdrawal replaces one
entry by its runs. What is said of either is said once, by the ways in which it can end. -/
namespace IoScheduling
namespace OffsetQueue

def InOrder (queue : List Entry) : Prop := queue.Pairwise fun a b => a.offset ≤ b.offset

/-- The ways in which an insertion between `front` and `back` can end. -/
inductive Insertion (node : Entry) (limit : Nat) :
    List Entry → List Entry → List Entry × Placement → Prop where
  | both {front back before after} : before.touches node.offset node.stop →
      after.touches node.offset node.stop →
      before.count + after.count + node.count ≤ limit →
      Insertion node limit (front ++ [before]) (after :: back)
        (front ++ (before.absorb after).absorb node :: back,
          .merged ((before.absorb after).absorb node).count)
  | before {front back e} : e.touches node.offset node.stop → e.count + node.count ≤ limit →
      Insertion node limit (front ++ [e]) back
        (front ++ e.absorb node :: back, .merged (e.absorb node).count)
  | after {front back e} : e.touches node.offset node.stop → e.count + node.count ≤ limit →
      Insertion node limit front (e :: back)
        (front ++ e.absorb node :: back, .merged (e.absorb node).count)
  | alone {front back} : Insertion node limit front back (front ++ node :: back, .alone)

/-- What the decision between the neighbours promises about the ones it picks. -/
def JoiningSound (before after : Option Entry) (node : Entry) (limit : Nat) : Joining → Prop
  | .both b a => before = some b ∧ after = some a ∧ touching node b ∧ touching node a ∧
      b.count + a.count + node.count ≤ limit
  | .before e => before = some e ∧ touching node e ∧ e.count + node.count ≤ limit
  | .after e => after = some e ∧ touching node e ∧ e.count + node.count ≤ limit
  | .none => True

theorem joinOne_sound (before after : Option Entry) (node : Entry) (limit : Nat) :
    JoiningSound before after node limit
      (joinOne (before.filter (touching node)) (after.filter (touching node)) node limit) := by
  unfold joinOne
  dsimp only
  split
  · rename_i b a hb ha
    simp only [Option.filter_eq_some_iff, decide_eq_true_eq] at hb ha
    split
    · exact ⟨ha.1.1, ha.1.2, ha.2⟩
    · exact ⟨hb.1.1, hb.1.2, hb.2⟩
  · rename_i b hb _
    simp only [Option.filter_eq_some_iff, decide_eq_true_eq] at hb
    exact ⟨hb.1.1, hb.1.2, hb.2⟩
  · rename_i a _ ha
    simp only [Option.filter_eq_some_iff, decide_eq_true_eq] at ha
    exact ⟨ha.1.1, ha.1.2, ha.2⟩
  · trivial

theorem joining_sound (before after : Option Entry) (node : Entry) (limit : Nat) :
    JoiningSound before after node limit (joining before after node limit) := by
  unfold joining
  dsimp only
  split
  · rename_i b a hb ha
    split
    · rename_i fits
      obtain ⟨hb, tb⟩ := Option.filter_eq_some_iff.mp hb
      obtain ⟨ha, ta⟩ := Option.filter_eq_some_iff.mp ha
      exact ⟨hb, ha, tb, ta, fits⟩
    · exact joinOne_sound before after node limit
  · exact joinOne_sound before after node limit

/-- How the queue is put together once it is decided which neighbours the node joins. -/
inductive Spliced (node : Entry) :
    Joining → List Entry → List Entry → List Entry × Placement → Prop where
  | both (front back b a) : Spliced node (.both b a) (front ++ [b]) (a :: back)
      (front ++ (b.absorb a).absorb node :: back, .merged ((b.absorb a).absorb node).count)
  | before (front back e) : Spliced node (.before e) (front ++ [e]) back
      (front ++ e.absorb node :: back, .merged (e.absorb node).count)
  | after (front back e) : Spliced node (.after e) front (e :: back)
      (front ++ e.absorb node :: back, .merged (e.absorb node).count)
  | alone (front back) : Spliced node .none front back (front ++ node :: back, .alone)

theorem spliced (queue : List Entry) (node : Entry) (limit : Nat) :
    Spliced node
      (joining (queue.take (slot queue node.offset)).getLast?
        (queue.drop (slot queue node.offset)).head? node limit)
      (queue.take (slot queue node.offset)) (queue.drop (slot queue node.offset))
      (insert queue node limit) := by
  unfold insert
  dsimp only
  generalize queue.take (slot queue node.offset) = front
  generalize queue.drop (slot queue node.offset) = back
  have sound := joining_sound front.getLast? back.head? node limit
  have last : ∀ e, front.getLast? = some e → front.dropLast ++ [e] = front := fun e he =>
    List.dropLast_append_getLast? e he
  have first : ∀ e, back.head? = some e → e :: back.tail = back := fun e he =>
    (List.eq_cons_of_mem_head? he).symm
  cases hj : joining front.getLast? back.head? node limit with
  | both b a =>
    rw [hj] at sound
    have step : Spliced node (.both b a) _ _ _ := .both front.dropLast back.tail b a
    rwa [last b sound.1, first a sound.2.1] at step
  | before e =>
    rw [hj] at sound
    have step : Spliced node (.before e) _ _ _ := .before front.dropLast back e
    rwa [last e sound.1] at step
  | after e =>
    rw [hj] at sound
    have step : Spliced node (.after e) _ _ _ := .after front back.tail e
    rwa [first e sound.1] at step
  | none => exact .alone front back

theorem insertion (queue : List Entry) (node : Entry) (limit : Nat) :
    Insertion node limit (queue.take (slot queue node.offset))
      (queue.drop (slot queue node.offset)) (insert queue node limit) := by
  have shape := spliced queue node limit
  generalize insert queue node limit = result at shape ⊢
  generalize queue.take (slot queue node.offset) = front at shape ⊢
  generalize queue.drop (slot queue node.offset) = back at shape ⊢
  have sound := joining_sound front.getLast? back.head? node limit
  generalize joining front.getLast? back.head? node limit = j at shape sound
  cases shape with
  | both front back b a => exact .both sound.2.2.1 sound.2.2.2.1 sound.2.2.2.2
  | before front back e => exact .before sound.2.1 sound.2.2
  | after front back e => exact .after sound.2.1 sound.2.2
  | alone => exact .alone

section

variable {node : Entry} {limit bound : Nat} {file : String} {d : Direction}
  {front back queue : List Entry} {result : List Entry × Placement}

theorem contents_insertion (h : Insertion node limit front back result) :
    contents result.1 = contents (front ++ back) + node.contents := by
  cases h <;> simp <;> abel

theorem contents_insert (queue : List Entry) (node : Entry) (limit : Nat) :
    contents (insert queue node limit).1 = contents queue + node.contents := by
  have h := contents_insertion (insertion queue node limit)
  rwa [List.take_append_drop] at h

structure Sound (bound : Nat) (file : String) (d : Direction) (queue : List Entry) : Prop where
  inOrder : InOrder queue
  entries : ∀ e ∈ queue, e.Sound bound file d

theorem sound_nil : Sound bound file d [] := ⟨List.Pairwise.nil, by simp⟩

theorem Sound.sublist {other : List Entry} (h : Sound bound file d queue)
    (hs : other.Sublist queue) : Sound bound file d other :=
  ⟨h.inOrder.sublist hs, fun e he => h.entries e (hs.subset he)⟩

theorem InOrder.splice (middle : List Entry) {e : Entry} (h : InOrder (front ++ middle ++ back))
    (low : ∀ x ∈ front, x.offset ≤ e.offset) (high : ∀ x ∈ back, e.offset ≤ x.offset) :
    InOrder (front ++ e :: back) := by
  obtain ⟨h1, h2, h3⟩ := List.pairwise_append.mp h
  apply List.pairwise_append.mpr
  refine ⟨h1.sublist (List.sublist_append_left _ _), List.pairwise_cons.mpr ⟨high, h2⟩, ?_⟩
  intro x hx y hy
  rcases List.mem_cons.mp hy with rfl | hy
  · exact low x hx
  · exact h3 x (List.mem_append_left _ hx) y hy

theorem inOrder_insertion (h : Insertion node limit front back result)
    (order : InOrder (front ++ back)) (hq : ∀ e ∈ front ++ back, e.Described)
    (hn : node.Described) (low : ∀ x ∈ front, x.offset ≤ node.offset)
    (high : ∀ x ∈ back, node.offset < x.offset) : InOrder result.1 := by
  have ordered := List.pairwise_append.mp order
  cases h with
  | @both front back before after tb ta fits =>
    have inner := Entry.offset_absorb (hq before (by simp)) (hq after (by simp))
    have outer := Entry.offset_absorb (Entry.described_absorb before after) hn
    have lb := low before (by simp)
    have ha := high after (by simp)
    -- The new entry starts where `before` does and takes its place.
    have at_before : ((before.absorb after).absorb node).offset = before.offset := by omega
    apply InOrder.splice [before, after]
    · simpa using order
    · intro x hx
      rw [at_before]
      exact (List.pairwise_append.mp ordered.1).2.2 x hx before (by simp)
    · intro x hx
      rw [at_before]
      exact lb.trans (high x (List.mem_cons_of_mem _ hx)).le
  | @before front back e te fits =>
    have offset := Entry.offset_absorb (hq e (by simp)) hn
    have le := low e (by simp)
    apply InOrder.splice [e] order
    · intro x hx
      have := (List.pairwise_append.mp ordered.1).2.2 x hx e (by simp)
      omega
    · intro x hx
      have := high x hx
      omega
  | @after front back e te fits =>
    have offset := Entry.offset_absorb (hq e (by simp)) hn
    have he := high e (by simp)
    apply InOrder.splice [e]
    · simpa using order
    · intro x hx
      have := low x hx
      omega
    · intro x hx
      have := high x (List.mem_cons_of_mem _ hx)
      omega
  | alone =>
    apply InOrder.splice []
    · simpa using order
    · exact low
    · exact fun x hx => (high x hx).le

theorem forall_splice {p : Entry → Prop} {e : Entry} (middle : List Entry)
    (h : ∀ x ∈ front ++ middle ++ back, p x) (he : p e) : ∀ x ∈ front ++ e :: back, p x := by
  intro x hx
  rcases List.mem_append.mp hx with hx | hx
  · exact h x (by simp [hx])
  · rcases List.mem_cons.mp hx with rfl | hx
    · exact he
    · exact h x (by simp [hx])

theorem sound_insertion (h : Insertion node limit front back result)
    (hq : Sound bound file d (front ++ back)) (hn : node.Sound bound file d)
    (low : ∀ x ∈ front, x.offset ≤ node.offset) (high : ∀ x ∈ back, node.offset < x.offset)
    (hl : limit ≤ bound) : Sound bound file d result.1 where
  inOrder := inOrder_insertion h hq.inOrder (fun e he => (hq.entries e he).headed.described)
    hn.headed.described low high
  entries := by
    cases h with
    | @both front back before after tb ta fits =>
      have sb := hq.entries before (by simp)
      have sa := hq.entries after (by simp)
      refine forall_splice [before, after] ?_ (Entry.sound_bridge sb sa hn tb ta (fits.trans hl))
      simpa using hq.entries
    | @before front back e te fits =>
      have se := hq.entries e (by simp)
      exact forall_splice [e] hq.entries (Entry.sound_absorb se hn te (fits.trans hl))
    | @after front back e te fits =>
      have se := hq.entries e (by simp)
      refine forall_splice [e] ?_ (Entry.sound_absorb se hn te (fits.trans hl))
      simpa using hq.entries
    | alone => exact forall_splice [] (by simpa using hq.entries) hn

theorem sound_insert (hq : Sound bound file d queue) (hn : node.Sound bound file d)
    (hl : limit ≤ bound) : Sound bound file d (insert queue node limit).1 := by
  obtain ⟨front, back, rfl, low, high, hp⟩ := exists_slot Entry.offset node.offset hq.inOrder
  have h := insertion (front ++ back) node limit
  rw [slot, hp, List.take_left, List.drop_left] at h
  exact sound_insertion h hq hn low high hl

end

section

variable {bound : Nat} {file : String} {d : Direction} {queue : List Entry} {a : Address}

theorem reinsert_perm (queue : List Entry) (run : Entry) :
    (reinsert queue run).Perm (run :: queue) :=
  List.perm_insertIdx _ _ (partitionPoint_le_length _ _)

theorem foldl_reinsert_perm (queue runs : List Entry) :
    (runs.foldl reinsert queue).Perm (runs ++ queue) := by
  induction runs generalizing queue with
  | nil => exact List.Perm.refl _
  | cons run runs ih =>
    have step := (reinsert_perm queue run).append_left runs
    exact (ih (reinsert queue run)).trans (step.trans List.perm_middle)

theorem sound_reinsert {run : Entry} (hq : Sound bound file d queue)
    (hr : run.Sound bound file d) : Sound bound file d (reinsert queue run) := by
  refine ⟨pairwise_insert_slot Entry.offset run hq.inOrder, ?_⟩
  intro e he
  rcases List.mem_cons.mp ((reinsert_perm queue run).mem_iff.mp he) with rfl | he
  · exact hr
  · exact hq.entries e he

theorem sound_foldl_reinsert {runs : List Entry} (hq : Sound bound file d queue)
    (hr : ∀ e ∈ runs, e.Sound bound file d) :
    Sound bound file d (runs.foldl reinsert queue) := by
  induction runs generalizing queue with
  | nil => exact hq
  | cons run runs ih =>
    obtain ⟨h, hs⟩ := List.forall_mem_cons.mp hr
    exact ih (sound_reinsert hq h) hs

theorem withdraw_some {r : Request} {rest : List Entry}
    (h : withdraw queue a = some (r, rest)) :
    ∃ (i k : Nat) (e : Entry) (runs : List Entry), queue[i]? = some e ∧
      e.position a = some k ∧ e.extract k = some (r, runs) ∧
      rest = runs.foldl reinsert (queue.eraseIdx i) := by
  simp only [withdraw, Option.bind_eq_bind, Option.bind_eq_some_iff, Option.pure_def,
    Option.some.injEq, Prod.mk.injEq, Prod.exists] at h
  obtain ⟨i, k, hl, e, he, q, runs, hx, rfl, rfl⟩ := h
  simp only [locate, Option.bind_eq_some_iff, Option.map_eq_some_iff, Prod.mk.injEq] at hl
  obtain ⟨j, -, k', ⟨e', he', hk⟩, rfl, rfl⟩ := hl
  obtain rfl := Option.some.inj (he'.symm.trans he)
  exact ⟨j, k', e', runs, he, hk, hx, rfl⟩

theorem contents_withdraw {r : Request} {rest : List Entry}
    (h : withdraw queue a = some (r, rest)) :
    contents queue = r.bare ::ₘ contents rest := by
  obtain ⟨i, k, e, runs, he, -, hx, rfl⟩ := withdraw_some h
  obtain ⟨hi, rfl⟩ := List.getElem?_eq_some_iff.mp he
  rw [← contents_perm (List.getElem_cons_eraseIdx_perm hi),
    contents_perm (foldl_reinsert_perm _ _), contents_cons, contents_append,
    contents_extract hx, Multiset.cons_add]

theorem sound_withdraw {r : Request} {rest : List Entry} (hq : Sound bound file d queue)
    (h : withdraw queue a = some (r, rest)) : Sound bound file d rest := by
  obtain ⟨i, k, e, runs, he, -, hx, rfl⟩ := withdraw_some h
  have hs := hq.entries e (List.mem_of_getElem? he)
  exact sound_foldl_reinsert (hq.sublist (List.eraseIdx_sublist _ _)) (Entry.sound_extract hs hx)

end

end OffsetQueue

end IoScheduling
