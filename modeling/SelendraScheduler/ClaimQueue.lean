import SelendraScheduler.Primitives

/-!
# SelendraScheduler.ClaimQueue

The two leaf structures of the scheduler:

* `IndrabaseClaimQueue`, the ordered queue of indrabase claims, each pre-assigned at
  enqueue time to an offset among the indrabase-multiplexer cores (`enqueue_entry`,
  `take_next_on_core`, `get_next_on_core`);
* the claim index `IndrabaseClaimIndex`, a `Vec<Id>` kept sorted and searched with
  `binary_search`.

The queue operations are characterised once, by `List.find?` and `List.eraseP` (the
first entry on an offset), so that the pallet's proofs never unfold them.  The index
operations are characterised on strictly increasing indices, the only ones the pallet
builds.
-/

namespace SelendraScheduler

/-- `QueuedIndrabase`: an indrabase entry and the multiplexer core it is waiting for, as
an offset from the first indrabase-multiplexer core. -/
structure QueuedIndrabase where
  claim : IndrabaseEntry
  coreOffset : Nat
  deriving Repr, DecidableEq

/-- `IndrabaseClaimQueue`: the queue and the offset the next enqueued entry gets. -/
structure IndrabaseClaimQueue where
  queue : List QueuedIndrabase
  nextCoreOffset : Nat
  deriving Repr, DecidableEq

namespace IndrabaseClaimQueue

/-- `Default for IndrabaseClaimQueue`. -/
def empty : IndrabaseClaimQueue := ⟨[], 0⟩

/-- `enqueue_entry`: append the entry on `next_core_offset` and advance the counter
round-robin.  The caller must pass `n_indrabase_cores > 0`; with `0` the remainder
panics. -/
def enqueueEntry (self : IndrabaseClaimQueue) (entry : IndrabaseEntry)
    (nIndrabaseCores : Nat) : Except Panic IndrabaseClaimQueue := do
  let coreOffset := self.nextCoreOffset
  let nextCoreOffset ← checkedRem (asU32 (self.nextCoreOffset + 1)) nIndrabaseCores
  return { queue := self.queue ++ [⟨entry, coreOffset⟩], nextCoreOffset }

/-- `take_next_on_core`: remove and return the first entry queued on the offset. -/
def takeNextOnCore (self : IndrabaseClaimQueue) (coreOffset : Nat) :
    IndrabaseClaimQueue × Option IndrabaseEntry :=
  match self.queue.findIdx? (·.coreOffset == coreOffset) with
  | some i => ({ self with queue := self.queue.eraseIdx i }, self.queue[i]?.map (·.claim))
  | none => (self, none)

/-- `get_next_on_core`: the first entry queued on the offset. -/
def getNextOnCore (self : IndrabaseClaimQueue) (coreOffset : Nat) : Option IndrabaseEntry :=
  match self.queue.findIdx? (·.coreOffset == coreOffset) with
  | some i => self.queue[i]?.map (·.claim)
  | none => none

/-! ## The first entry on an offset -/

/-- Position-then-index is `find?`. -/
private theorem findIdx?_bind_getElem? (l : List α) (p : α → Bool) :
    (l.findIdx? p).bind (l[·]?) = l.find? p := by
  induction l with
  | nil => rfl
  | cons x xs ih =>
    cases hx : p x
    · simp only [List.findIdx?_cons, hx, Bool.false_eq_true, ite_false, List.findIdx?_succ,
        List.find?_cons, ← ih]
      cases xs.findIdx? p <;> simp
    · simp [hx]

/-- Position-then-remove is `eraseP`. -/
private theorem findIdx?_eraseIdx (l : List α) (p : α → Bool) :
    ((l.findIdx? p).map l.eraseIdx).getD l = l.eraseP p := by
  induction l with
  | nil => rfl
  | cons x xs ih =>
    by_cases hx : p x
    · simp [hx]
    · simp only [List.findIdx?_cons, hx, List.findIdx?_succ, List.eraseP_cons, cond_false,
        ← ih, Option.map_map]
      cases xs.findIdx? p <;> rfl

theorem getNextOnCore_eq_find (q : IndrabaseClaimQueue) (o : Nat) :
    q.getNextOnCore o = (q.queue.find? (·.coreOffset == o)).map (·.claim) := by
  rw [← findIdx?_bind_getElem?, getNextOnCore]
  cases q.queue.findIdx? (·.coreOffset == o) <;> rfl

theorem takeNextOnCore_eq (q : IndrabaseClaimQueue) (o : Nat) :
    q.takeNextOnCore o =
      ({ q with queue := q.queue.eraseP (·.coreOffset == o) }, q.getNextOnCore o) := by
  rw [← findIdx?_eraseIdx, takeNextOnCore, getNextOnCore]
  cases q.queue.findIdx? (·.coreOffset == o) <;> rfl

@[simp] theorem takeNextOnCore_snd (q : IndrabaseClaimQueue) (o : Nat) :
    (q.takeNextOnCore o).2 = q.getNextOnCore o := by
  rw [takeNextOnCore_eq]

@[simp] theorem takeNextOnCore_nextCoreOffset (q : IndrabaseClaimQueue) (o : Nat) :
    (q.takeNextOnCore o).1.nextCoreOffset = q.nextCoreOffset := by
  rw [takeNextOnCore_eq]

/-- A take that finds nothing leaves the queue as it is. -/
theorem takeNextOnCore_of_none {q : IndrabaseClaimQueue} {o : Nat}
    (h : (q.takeNextOnCore o).2 = none) : (q.takeNextOnCore o).1 = q := by
  rw [takeNextOnCore_snd, getNextOnCore_eq_find, Option.map_eq_none'] at h
  rw [takeNextOnCore_eq, List.eraseP_of_forall_not (by simpa using List.find?_eq_none.mp h)]

/-- Taking on one offset does not change what is next on another. -/
theorem getNextOnCore_takeNextOnCore_of_ne (q : IndrabaseClaimQueue) {o o' : Nat}
    (h : o' ≠ o) : (q.takeNextOnCore o').1.getNextOnCore o = q.getNextOnCore o := by
  simp only [takeNextOnCore_eq, getNextOnCore_eq_find]
  cases hf : q.queue.find? (·.coreOffset == o') with
  | none => rw [List.eraseP_of_forall_not (by simpa using List.find?_eq_none.mp hf)]
  | some e =>
    obtain ⟨he, pre, post, hq, hpre⟩ := List.find?_eq_some.mp hf
    have he' : e.coreOffset = o' := by simpa using he
    rw [hq, List.eraseP_append_right _ (fun x hx => by simpa using hpre x hx)]
    simp [List.find?_append, he', h]

/-- An offset with nothing queued on it stays so when entries are taken out. -/
theorem getNextOnCore_of_sublist {q q' : IndrabaseClaimQueue} {o : Nat}
    (hs : List.Sublist q'.queue q.queue) (h : q.getNextOnCore o = none) :
    q'.getNextOnCore o = none := by
  rw [getNextOnCore_eq_find, Option.map_eq_none', List.find?_eq_none] at h ⊢
  exact fun x hx => h x (hs.subset hx)

/-- The entries after a take are the entries before it, with at most one removed. -/
theorem takeNextOnCore_fst_sublist (q : IndrabaseClaimQueue) (o : Nat) :
    List.Sublist (q.takeNextOnCore o).1.queue q.queue := by
  rw [takeNextOnCore_eq]; exact List.eraseP_sublist _

/-- A successful take removes exactly the entry it returns. -/
theorem takeNextOnCore_perm {q : IndrabaseClaimQueue} {o : Nat} {e : IndrabaseEntry}
    (h : (q.takeNextOnCore o).2 = some e) :
    ∃ x ∈ q.queue, x.claim = e ∧ x.coreOffset = o ∧
      q.queue.Perm (x :: (q.takeNextOnCore o).1.queue) := by
  rw [takeNextOnCore_snd, getNextOnCore_eq_find, Option.map_eq_some'] at h
  obtain ⟨x, hx, rfl⟩ := h
  have hmem := List.mem_of_find?_eq_some hx
  have hp := List.find?_some hx
  refine ⟨x, hmem, rfl, by simpa using hp, ?_⟩
  rw [takeNextOnCore_eq]
  obtain ⟨y, pre, post, hpre, hy, hq, herase⟩ := List.exists_of_eraseP (p := (·.coreOffset == o)) hmem hp
  have : y = x := by
    rw [hq, List.find?_append, List.find?_eq_none.mpr (by simpa using hpre)] at hx
    simpa [hy] using hx
  subst this
  rw [herase, hq]
  exact List.perm_middle

/-- `enqueue_entry` with a positive core count appends on the current offset. -/
@[simp] theorem enqueueEntry_of_pos (q : IndrabaseClaimQueue) (e : IndrabaseEntry) {n : Nat}
    (h : 0 < n) : q.enqueueEntry e n =
      .ok ⟨q.queue ++ [⟨e, q.nextCoreOffset⟩], asU32 (q.nextCoreOffset + 1) % n⟩ := by
  simp [enqueueEntry, h]

/-- `enqueue_entry` with no indrabase cores panics. -/
@[simp] theorem enqueueEntry_zero (q : IndrabaseClaimQueue) (e : IndrabaseEntry) :
    q.enqueueEntry e 0 = .error .remainderByZero := rfl

/-- A successful `enqueue_entry` appends the entry on the current offset. -/
theorem enqueueEntry_queue {q q' : IndrabaseClaimQueue} {e : IndrabaseEntry} {n : Nat}
    (h : q.enqueueEntry e n = .ok q') : q'.queue = q.queue ++ [⟨e, q.nextCoreOffset⟩] := by
  rcases Nat.eq_zero_or_pos n with rfl | hn
  · cases h
  rw [enqueueEntry_of_pos _ _ hn] at h
  cases h; rfl

/-- After `enqueue_entry`, what is next on an offset is what was next there before, or else
the new entry if it went on that offset. -/
theorem getNextOnCore_enqueueEntry {q q' : IndrabaseClaimQueue} {e : IndrabaseEntry} {n o : Nat}
    (h : q.enqueueEntry e n = .ok q') :
    q'.getNextOnCore o =
      (q.getNextOnCore o).or (if q.nextCoreOffset = o then some e else none) := by
  rcases Nat.eq_zero_or_pos n with rfl | hn
  · cases h
  rw [enqueueEntry_of_pos _ _ hn] at h
  cases h
  simp only [getNextOnCore_eq_find, List.find?_append]
  cases q.queue.find? (·.coreOffset == o) <;> by_cases ho : q.nextCoreOffset = o <;> simp [ho]

/-! ## Offsets among the multiplexer cores -/

/-- Every queued entry is on an offset below the multiplexer core count `n`, and so is the
next one when there are multiplexer cores. -/
structure OnCores (q : IndrabaseClaimQueue) (n : Nat) : Prop where
  /-- The offset the next entry gets. -/
  next : 0 < n → q.nextCoreOffset < n
  /-- The offsets of the queued entries. -/
  queued : ∀ e ∈ q.queue, e.coreOffset < n

namespace OnCores

variable {q q' : IndrabaseClaimQueue} {n : Nat}

/-- `enqueue_entry` puts the entry on the next offset and advances it modulo the count. -/
theorem enqueueEntry (hq : q.OnCores n) {e : IndrabaseEntry} (h : q.enqueueEntry e n = .ok q') :
    q'.OnCores n := by
  rcases Nat.eq_zero_or_pos n with rfl | hn
  · cases h
  rw [enqueueEntry_of_pos _ _ hn] at h
  cases h
  refine ⟨fun _ => Nat.mod_lt _ hn, fun x hx => ?_⟩
  rcases List.mem_append.mp hx with hx | hx
  · exact hq.queued x hx
  · rw [List.mem_singleton.mp hx]; exact hq.next hn

/-- Removing entries keeps the offsets. -/
theorem of_sublist (hq : q.OnCores n) (hs : List.Sublist q'.queue q.queue)
    (hn : q'.nextCoreOffset = q.nextCoreOffset) : q'.OnCores n :=
  ⟨fun h => hn ▸ hq.next h, fun e he => hq.queued e (hs.subset he)⟩

theorem takeNextOnCore (hq : q.OnCores n) (o : Nat) : (q.takeNextOnCore o).1.OnCores n :=
  hq.of_sublist (takeNextOnCore_fst_sublist q o) (takeNextOnCore_nextCoreOffset q o)

end OnCores

end IndrabaseClaimQueue

/-! ## The claim index -/

/-- `slice::binary_search` on the claim index: `Ok(i)` when the id is at position `i`,
`Err(i)` otherwise, `i` being the position at which inserting the id keeps the index
sorted.  This is what the standard library returns on a strictly increasing slice, and
the index is one in every reachable state (`claimIndex_sorted` in the protocol). -/
def binarySearch (index : List Nat) (x : Nat) : Except Nat Nat :=
  let i := (index.takeWhile (· < x)).length
  if index[i]? = some x then .ok i else .error i

/-- `if let Ok(i) = index.binary_search(&id) { index.remove(i) }`, the removal that
`free_cores` and the session's pruning both perform. -/
def removeFromIndex (index : List Nat) (x : Nat) : List Nat :=
  match binarySearch index x with
  | .ok i => index.eraseIdx i
  | .error _ => index

theorem binarySearch_cons (y : Nat) (ys : List Nat) (x : Nat) :
    binarySearch (y :: ys) x =
      if y < x then
        match binarySearch ys x with
        | .ok i => .ok (i + 1)
        | .error i => .error (i + 1)
      else if y = x then .ok 0 else .error 0 := by
  by_cases hyx : y < x
  · simp [binarySearch, List.takeWhile_cons, hyx]
    split <;> rfl
  · simp [binarySearch, List.takeWhile_cons, hyx]

/-- On a strictly increasing index, a present id is found, and removing at its position
erases it. -/
theorem binarySearch_of_mem {index : List Nat} {x : Nat}
    (h : index.Pairwise (· < ·)) (hx : x ∈ index) :
    ∃ i, binarySearch index x = .ok i ∧ index.eraseIdx i = index.erase x := by
  induction index with
  | nil => cases hx
  | cons y ys ih =>
    rw [List.pairwise_cons] at h
    rw [binarySearch_cons]
    by_cases hyx : y < x
    · obtain ⟨i, hi, he⟩ := ih h.2 ((List.mem_cons.mp hx).resolve_left (by omega))
      refine ⟨i + 1, by simp [hyx, hi], ?_⟩
      simp [he, List.erase_cons, show y ≠ x by omega]
    · have hxy : y = x := by
        rcases List.mem_cons.mp hx with rfl | hx
        · rfl
        · have := h.1 x hx; omega
      exact ⟨0, by simp [hyx, hxy], by simp [hxy]⟩

/-- An absent id is not found, and the position returned is that of the first larger
id, on any index. -/
theorem binarySearch_of_not_mem_eq {index : List Nat} {x : Nat} (hx : x ∉ index) :
    binarySearch index x = .error (index.takeWhile (· < x)).length := by
  unfold binarySearch
  rw [if_neg fun h => hx (List.getElem?_mem h)]

/-- The position `binary_search` reports for an absent id is never past the index. -/
theorem binarySearch_error_le {index : List Nat} {x i : Nat} (h : binarySearch index x = .error i) :
    i ≤ index.length := by
  simp only [binarySearch] at h
  split at h <;> cases h
  exact (List.takeWhile_sublist _).length_le

/-- On a strictly increasing index, an absent id is not found, and inserting at the
returned position keeps the index strictly increasing. -/
theorem binarySearch_of_not_mem {index : List Nat} {x : Nat}
    (h : index.Pairwise (· < ·)) (hx : x ∉ index) :
    ∃ i l, binarySearch index x = .error i ∧ vecInsert index i x = .ok l ∧
      l.Pairwise (· < ·) ∧ l.Perm (x :: index) := by
  induction index with
  | nil => exact ⟨0, [x], rfl, rfl, by simp, .refl _⟩
  | cons y ys ih =>
    rw [List.pairwise_cons] at h
    rw [List.mem_cons, not_or] at hx
    rw [binarySearch_cons]
    by_cases hyx : y < x
    · obtain ⟨i, l, hi, hl, hs, hp⟩ := ih h.2 hx.2
      refine ⟨i + 1, y :: l, by simp [hyx, hi], ?_, ?_, ?_⟩
      · simp only [vecInsert, List.length_cons] at hl ⊢
        split at hl
        · cases hl; simp_all
        · cases hl
      · refine List.pairwise_cons.mpr ⟨fun b hb => ?_, hs⟩
        rcases List.mem_cons.mp (hp.mem_iff.mp hb) with rfl | hb
        · exact hyx
        · exact h.1 b hb
      · exact (hp.cons y).trans (.swap x y ys)
    · have hlt : x < y := by omega
      refine ⟨0, x :: y :: ys, by simp [hyx, Ne.symm hx.1], by simp [vecInsert], ?_, .refl _⟩
      refine List.pairwise_cons.mpr ⟨fun b hb => ?_, List.pairwise_cons.mpr h⟩
      rcases List.mem_cons.mp hb with rfl | hb
      · exact hlt
      · exact hlt.trans (h.1 b hb)

/-- On a strictly increasing index, the pallet's removal is `List.erase`. -/
theorem removeFromIndex_eq_erase {index : List Nat} (h : index.Pairwise (· < ·))
    (x : Nat) : removeFromIndex index x = index.erase x := by
  by_cases hx : x ∈ index
  · obtain ⟨i, hi, he⟩ := binarySearch_of_mem h hx
    simp [removeFromIndex, hi, he]
  · obtain ⟨i, l, hi, -⟩ := binarySearch_of_not_mem h hx
    simp [removeFromIndex, hi, List.erase_of_not_mem hx]

/-- Removal keeps the index strictly increasing. -/
theorem removeFromIndex_sorted {index : List Nat} (h : index.Pairwise (· < ·))
    (x : Nat) : (removeFromIndex index x).Pairwise (· < ·) := by
  rw [removeFromIndex_eq_erase h]; exact h.sublist (List.erase_sublist _ _)

/-- Removal takes out exactly the removed id. -/
theorem mem_removeFromIndex {index : List Nat} (h : index.Pairwise (· < ·))
    {x y : Nat} : y ∈ removeFromIndex index x ↔ y ≠ x ∧ y ∈ index := by
  rw [removeFromIndex_eq_erase h]
  exact List.Nodup.mem_erase_iff (h.imp Nat.ne_of_lt)

end SelendraScheduler
