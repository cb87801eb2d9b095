import IoScheduling.Proofs.Notes

/-! # Records of what is handed out

A record waits in the lane of its request until the request is acknowledged. Records enter a lane
by a dispatch and leave it by an acknowledgment; nothing else that happens to a file touches them. -/
namespace IoScheduling

def addressed (a : Address) (requests : List Request) : Nat :=
  requests.countP fun r => r.address = a

namespace Request

variable {r : Request} {a b : Address}

theorem matchesRange_def (r : Request) (a : Address) : r.matchesRange a ↔
    r.direction = a.direction ∧ r.offset = a.offset ∧ r.length = a.length := by
  simp [matchesRange, and_assoc]

theorem matchesRange_iff (h : r.file = a.file) : r.matchesRange a ↔ r.address = a := by
  rw [matchesRange_def, address, Address.mk.injEq]
  exact ⟨fun range => ⟨h, range⟩, fun same => same.2⟩

theorem matchesRange_iff_eq (h : r.matchesRange a) (hf : b.file = a.file) :
    r.matchesRange b ↔ b = a := by
  obtain ⟨direction, offset, length⟩ := (matchesRange_def r a).mp h
  rw [matchesRange_def, direction, offset, length, Address.mk.injEq]
  exact ⟨fun ⟨hd, ho, hl⟩ => ⟨hf, hd.symm, ho.symm, hl.symm⟩,
    fun ⟨_, hd, ho, hl⟩ => ⟨hd.symm, ho.symm, hl.symm⟩⟩

end Request

theorem Lane.release?_of_mem {l : Lane} {r : HandedOut} {a : Address} (hr : r ∈ l.handedOut)
    (range : r.request.matchesRange a) : ∃ h l', l.release? a = some (h, l') := by
  have some_place : (l.handedOut.findIdx? fun h => h.request.matchesRange a).isSome := by
    rw [List.findIdx?_isSome]
    exact List.any_eq_true.mpr ⟨r, hr, range⟩
  obtain ⟨i, hi⟩ := Option.isSome_iff_exists.mp some_place
  obtain ⟨lt, -, -⟩ := List.findIdx?_eq_some_iff_getElem.mp hi
  refine ⟨l.handedOut[i], { l with handedOut := l.handedOut.eraseIdx i }, ?_⟩
  simp only [release?, hi, List.getElem?_eq_getElem lt, Option.bind_eq_bind, Option.bind_some,
    Option.pure_def]

theorem addressed_eq_zero {a : Address} {requests : List Request}
    (h : ∀ r ∈ requests, r.address ≠ a) : addressed a requests = 0 :=
  List.countP_eq_zero.mpr fun r hr same => h r hr (of_decide_eq_true same)

/-- How many of the records are of the address, in the lane of which they are. -/
def recordsAt (a : Address) (records : List HandedOut) : Nat :=
  records.countP fun h => h.request.matchesRange a

def withoutOldest (a : Address) (records : List HandedOut) : List HandedOut :=
  records.eraseP fun h => h.request.matchesRange a

section

variable {a b : Address} {records front back : List HandedOut}

theorem withoutOldest_none (none : recordsAt a records = 0) : withoutOldest a records = records :=
  List.eraseP_of_forall_not (List.countP_eq_zero.mp none)

theorem withoutOldest_append : withoutOldest a (front ++ back) =
    if recordsAt a front = 0 then front ++ withoutOldest a back
    else withoutOldest a front ++ back := by
  split
  · rename_i none
    exact List.eraseP_append_right back (List.countP_eq_zero.mp none)
  · rename_i found
    obtain ⟨h, mem, range⟩ := List.countP_pos_iff.mp (Nat.pos_of_ne_zero found)
    exact List.eraseP_append_left (p := fun h => h.request.matchesRange a) range back mem

theorem recordsAt_withoutOldest (file : b.file = a.file) : recordsAt b (withoutOldest a records) =
    recordsAt b records - if b = a then 1 else 0 := by
  by_cases none : recordsAt a records = 0
  · rw [withoutOldest_none none]
    split
    · rename_i same
      rw [same, none]
    · rfl
  · obtain ⟨h, mem, range⟩ := List.countP_pos_iff.mp (Nat.pos_of_ne_zero none)
    obtain ⟨h, older, newer, -, range, split, rest⟩ :=
      List.exists_of_eraseP (p := fun h => h.request.matchesRange a) mem range
    have there : h.request.matchesRange b ↔ b = a := Request.matchesRange_iff_eq range file
    rw [withoutOldest, rest, split, recordsAt, recordsAt, List.countP_append, List.countP_append,
      List.countP_cons]
    simp only [there]
    omega

theorem mem_of_mem_withoutOldest {h : HandedOut} (mem : h ∈ withoutOldest a records) :
    h ∈ records := List.mem_of_mem_eraseP mem

theorem length_withoutOldest (found : recordsAt a records ≠ 0) :
    (withoutOldest a records).length = records.length - 1 := by
  obtain ⟨h, mem, range⟩ := List.countP_pos_iff.mp (Nat.pos_of_ne_zero found)
  exact List.length_eraseP_of_mem (p := fun h => h.request.matchesRange a) mem range

end

theorem Lane.release?_oldest {l l' : Lane} {a : Address} {h : HandedOut}
    (released : l.release? a = some (h, l')) :
    l.handedOut.find? (·.request.matchesRange a) = some h ∧
      l'.handedOut = withoutOldest a l.handedOut := by
  obtain ⟨i, place, taken⟩ := Option.bind_eq_some_iff.mp released
  obtain ⟨h', found, same⟩ := Option.bind_eq_some_iff.mp taken
  obtain ⟨rfl, rfl⟩ := Prod.mk.inj (Option.some.inj same)
  obtain ⟨lt, range, first⟩ := List.findIdx?_eq_some_iff_getElem.mp place
  obtain ⟨_, rfl⟩ := List.getElem?_eq_some_iff.mp found
  constructor
  · refine List.find?_eq_some_iff_getElem.mpr ⟨range, i, lt, rfl, fun j less => ?_⟩
    rw [Bool.not_eq_true', ← Bool.not_eq_true]
    exact first j less
  · rw [withoutOldest, List.eraseP_eq_eraseIdx, place]

namespace Index

def recordsOf (x : Index) (name : String) (d : Direction) : List HandedOut :=
  ((x.fileOf name).lane d).handedOut

/-- How many records an acknowledgment of the address may take. -/
def heldAt (x : Index) (a : Address) : Nat :=
  (x.recordsOf a.file a.direction).countP fun h => h.request.matchesRange a

def SameRecords (x y : Index) : Prop := ∀ n d, y.recordsOf n d = x.recordsOf n d

variable {x y z : Index} {f : FileState} {name : String} {e : Entry} {a b : Address}

theorem SameRecords.heldAt (h : SameRecords x y) (a : Address) : y.heldAt a = x.heldAt a := by
  rw [Index.heldAt, Index.heldAt, h]

theorem heldAt_withHash (hash : String → Nat) (size : Nat) (a : Address) :
    (withHash hash size).heldAt a = 0 := by
  unfold heldAt recordsOf
  cases a.direction <;> rfl

theorem recordsOf_update (x : Index) (hf : f.file = name) (p : Nat) (c : PendingCounts) (n : String)
    (d : Direction) : ((x.update name f p).setCounts c).recordsOf n d =
      if n = name then (f.lane d).handedOut else x.recordsOf n d := by
  have there : ((x.update name f p).setCounts c).fileOf n = if n = name then f else x.fileOf n :=
    fileOf_update x p hf n
  rw [recordsOf, there]
  split <;> rfl

theorem recordDispatch_heldAt {bound : Nat} {d : Direction} (he : e.Sound bound name d) (x : Index)
    (now : Nat) (inQuantum synchronous : Bool) (a : Address) :
    (x.setFile ((x.fileOf name).recordDispatch e now inQuantum synchronous)).heldAt a =
      x.heldAt a + addressed a e.requests := by
  obtain ⟨rfl, rfl⟩ := he.own
  have record := reading_recordDispatch Lane.handedOut x e.file e now inQuantum synchronous a.file
    a.direction
  rw [heldAt, heldAt, recordsOf, record]
  by_cases there : a.file = e.file ∧ a.direction = e.direction
  · obtain ⟨hf, hd⟩ := there
    rw [if_pos ⟨hf, hd⟩, recordsOf, hf, hd, Lane.recordDispatch, List.countP_append, List.countP_map]
    congr 1
    refine List.countP_congr fun r hr => ?_
    obtain ⟨file, direction⟩ := he.belongs r hr
    simp [Request.matchesRange_iff (file.trans hf.symm)]
  · rw [if_neg there, addressed_eq_zero fun r hr => ?_, add_zero, recordsOf]
    rintro rfl
    exact there (he.belongs r hr)

theorem release_oldest {h : HandedOut} (released : x.release a = .ok (h, y)) :
    (x.recordsOf a.file a.direction).find? (·.request.matchesRange a) = some h ∧
      ∀ n d, y.recordsOf n d = if n = a.file ∧ d = a.direction then
        withoutOldest a (x.recordsOf n d) else x.recordsOf n d := by
  obtain ⟨f, hf, rfl⟩ := release_ok released
  obtain ⟨l, hl, rfl⟩ := FileState.release?_lane hf
  obtain ⟨found, left⟩ := Lane.release?_oldest hl
  refine ⟨found, fun n d => ?_⟩
  have file : ((x.fileOf a.file).setLane a.direction l).file = a.file :=
    (FileState.file_setLane _ _ _).trans (file_fileOf x a.file)
  have after := recordsOf_update x file (x.bucketOf a.file).pending x.counts n d
  change (x.update _ _ _).recordsOf _ _ = _ at after
  rw [after]
  by_cases here : n = a.file
  · rw [if_pos here, FileState.reading_setLane Lane.handedOut, recordsOf, here]
    by_cases same : d = a.direction
    · rw [if_pos same, if_pos ⟨rfl, same⟩, left, same]
    · rw [if_neg same, if_neg fun both => same both.2]
  · rw [if_neg here, if_neg fun both => here both.1]

theorem release_heldAt {r : HandedOut} (h : x.release a = .ok (r, y)) (b : Address) :
    y.heldAt b + (if b = a then 1 else 0) = x.heldAt b := by
  obtain ⟨found, left⟩ := release_oldest h
  have range := List.find?_some found
  have held : 0 < recordsAt a (x.recordsOf a.file a.direction) :=
    List.countP_pos_iff.mpr ⟨r, List.mem_of_find?_eq_some found, range⟩
  change recordsAt b (y.recordsOf b.file b.direction) + _ =
    recordsAt b (x.recordsOf b.file b.direction)
  rw [left]
  by_cases here : b.file = a.file ∧ b.direction = a.direction
  · rw [if_pos here, recordsAt_withoutOldest here.1]
    by_cases same : b = a
    · subst same
      rw [if_pos rfl, Nat.sub_add_cancel held]
    · rw [if_neg same, Nat.sub_zero, Nat.add_zero]
  · have other : b ≠ a := by
      rintro rfl
      exact here ⟨rfl, rfl⟩
    rw [if_neg here, if_neg other, Nat.add_zero]

theorem release_of_heldAt (h : 0 < x.heldAt a) : ∃ r y, x.release a = .ok (r, y) := by
  obtain ⟨r, hr, range⟩ := List.countP_pos_iff.mp h
  cases hf : x.file? a.file with
  | none =>
    rw [recordsOf, fileOf_eq_fresh hf] at hr
    cases hd : a.direction <;> rw [hd] at hr <;> cases hr
  | some f =>
    rw [recordsOf, fileOf_eq hf] at hr
    obtain ⟨taken, l, hl⟩ := Lane.release?_of_mem hr range
    have known : (x.bucketOf a.file).file? a.file = some f := hf
    refine ⟨taken, x.setBucketOf a.file ((x.bucketOf a.file).set (f.setLane a.direction l)), ?_⟩
    simp only [release, Bucket.release?, known, FileState.release?, hl, Option.map_some,
      Option.bind_eq_bind, Option.bind_some, Option.pure_def]

end Index

theorem Core.reset_sameRecords (c : Core) : Index.SameRecords c.index c.resetStatistics.index := by
  have same (f : FileState) : f.resetTallies.through Lane.handedOut = f.through Lane.handedOut := by
    funext d
    cases d <;> rfl
  exact (reset_reads c same).keeps

end IoScheduling
