import SelendraScheduler.ScheduleSpec

/-!
# SelendraScheduler.BlockSpec

One specification lemma for each of the other per-block entry points, so that the run
invariants never unfold them:

* `add_indrabase_claim` either changes nothing, or inserts a fresh id into the sorted
  claim index and appends the claim on `next_core_offset` (`addIndrabaseClaim_ok`);
* `occupied` splits `Scheduled` into the assignments it keeps and those it installs in
  their cores, in order (`occupiedRetain_ok`, `occupied_ok`); on the caller contract it
  keeps no assignment on a given core (`occupiedRetain_kept`, `occupied_kept`), and it
  succeeds when every scheduled core it installs is in bounds (`occupied_exists`);
* `clear` appends to the queue exactly the entries `requeueEntry?` selects
  (`clear_ok`), and it panics only if that selection is non-empty while there are no
  indrabase cores (`clear_exists`).
-/

namespace SelendraScheduler

/-! ## `add_indrabase_claim` -/

section AddClaim

variable {h : Host} {claim : IndrabaseClaim} {s s' : Scheduler}

/-- `add_indrabase_claim` on a sorted claim index: nothing changes, or the claim is live,
there is room for it and an indrabase core to put it on, its id is new, and it is
inserted into the index and appended to the queue. -/
theorem addIndrabaseClaim_ok (hs : s.indrabaseClaimIndex.Pairwise (· < ·))
    (hok : addIndrabaseClaim h claim s = .ok s') :
    s' = s ∨
    (h.indras.isIndrabase claim.indraId = true ∧ 0 < h.config.indrabaseCores ∧
      s.indrabaseQueue.queue.length <
        asU32 (h.config.indrabaseCores * h.config.schedulingLookahead) ∧
      claim.indraId ∉ s.indrabaseClaimIndex ∧
      ∃ index, index.Pairwise (· < ·) ∧ index.Perm (claim.indraId :: s.indrabaseClaimIndex) ∧
        s' = { s with indrabaseClaimIndex := index,
                      indrabaseQueue :=
                        ⟨s.indrabaseQueue.queue ++ [⟨⟨claim, 0⟩, s.indrabaseQueue.nextCoreOffset⟩],
                          asU32 (s.indrabaseQueue.nextCoreOffset + 1) % h.config.indrabaseCores⟩ }) := by
  unfold addIndrabaseClaim at hok
  by_cases hlive : h.indras.isIndrabase claim.indraId = true
  swap
  · simp only [hlive, Bool.not_false, if_true] at hok; exact .inl (Except.ok.inj hok).symm
  simp only [hlive, Bool.not_true, Bool.false_eq_true, if_false] at hok
  by_cases hcap : asU32 (h.config.indrabaseCores * h.config.schedulingLookahead) ≤
      s.indrabaseQueue.queue.length
  · simp only [hcap, if_true] at hok; exact .inl (Except.ok.inj hok).symm
  simp only [hcap, if_false] at hok
  have hk : 0 < h.config.indrabaseCores := Nat.pos_of_ne_zero fun hk => hcap (by simp [hk, asU32])
  by_cases hmem : claim.indraId ∈ s.indrabaseClaimIndex
  · obtain ⟨i, hi, -⟩ := binarySearch_of_mem hs hmem
    simp only [hi] at hok; exact .inl (Except.ok.inj hok).symm
  obtain ⟨i, l, hi, hins, hl, hperm⟩ := binarySearch_of_not_mem hs hmem
  simp only [hi, hins, IndrabaseClaimQueue.enqueueEntry_of_pos _ _ hk] at hok
  exact .inr ⟨hlive, hk, Nat.lt_of_not_le hcap, hmem, l, hl, hperm, (Except.ok.inj hok).symm⟩

end AddClaim

/-! ## `occupied` -/

/-- Install an assignment in its core, as `occupied` does. -/
def occupy (cores : List (Option CoreOccupied)) (a : CoreAssignment) :
    List (Option CoreOccupied) :=
  cores.set a.core (some a.toCoreOccupied)

@[simp] theorem length_foldl_occupy (removed : List CoreAssignment) :
    ∀ cores, (removed.foldl occupy cores).length = cores.length := by
  induction removed with
  | nil => intro; rfl
  | cons a rest ih => intro cores; simp [ih, occupy]

/-- Installing assignments on other cores leaves a core as it was. -/
theorem getElem?_foldl_occupy_of_not_mem {c : Nat} :
    ∀ (removed : List CoreAssignment) cores, c ∉ removed.map (·.core) →
      (removed.foldl occupy cores)[c]? = cores[c]?
  | [], _, _ => rfl
  | a :: rest, cores, hc => by
    simp only [List.map_cons, List.mem_cons, not_or] at hc
    rw [List.foldl_cons, getElem?_foldl_occupy_of_not_mem rest _ hc.2, occupy,
      List.getElem?_set_ne (Ne.symm hc.1)]
termination_by structural removed => removed

/-- After installing assignments on distinct cores, each in bounds holds its own. -/
theorem getElem?_foldl_occupy_of_mem {a : CoreAssignment} :
    ∀ (removed : List CoreAssignment) cores, (removed.map (·.core)).Nodup → a ∈ removed →
      a.core < cores.length →
      (removed.foldl occupy cores)[a.core]? = some (some a.toCoreOccupied)
  | [], _, _, ha, _ => absurd ha (List.not_mem_nil _)
  | b :: rest, cores, hnd, ha, hlt => by
    rw [List.map_cons, List.nodup_cons] at hnd
    rw [List.foldl_cons]
    rcases List.mem_cons.mp ha with rfl | ha
    · rw [getElem?_foldl_occupy_of_not_mem rest _ hnd.1, occupy, List.getElem?_set_self hlt]
    · exact getElem?_foldl_occupy_of_mem rest _ hnd.2 ha (by simpa [occupy] using hlt)
termination_by structural removed => removed

/-- A core after the installs holds what it held before, or an installed assignment. -/
theorem getElem?_foldl_occupy {c : Nat} {o : CoreOccupied} :
    ∀ (removed : List CoreAssignment) cores,
      (removed.foldl occupy cores)[c]? = some (some o) →
      cores[c]? = some (some o) ∨ ∃ a ∈ removed, a.core = c ∧ o = a.toCoreOccupied
  | [], _, h => .inl h
  | a :: rest, cores, h => by
    rcases getElem?_foldl_occupy rest _ h with h | ⟨b, hb, hbc⟩
    · by_cases hac : a.core = c
      · subst hac
        by_cases hlt : a.core < cores.length
        · rw [occupy, List.getElem?_set_self hlt] at h
          exact .inr ⟨a, List.mem_cons_self _ _, rfl, by simpa using h.symm⟩
        · rw [occupy, List.set_eq_of_length_le (by omega)] at h; exact .inl h
      · rw [occupy, List.getElem?_set_ne hac] at h; exact .inl h
    · exact .inr ⟨b, List.mem_cons_of_mem _ hb, hbc⟩
termination_by structural removed => removed

section Occupied

/-- The `retain` of `occupied` keeps a sublist of `Scheduled` and installs the rest, in
order, each on a core among the given ones and in bounds. -/
theorem occupiedRetain_ok : ∀ {O : List Nat} {l kept : List CoreAssignment}
    {cores cores' : List (Option CoreOccupied)},
    occupiedRetain O l cores = .ok (kept, cores') →
    ∃ removed, List.Sublist kept l ∧ (kept ++ removed).Perm l ∧
      (∀ a ∈ removed, a.core ∈ O ∧ a.core < cores.length) ∧
      cores' = removed.foldl occupy cores
  | O, [], kept, cores, cores', hr => by
    cases hr; exact ⟨[], .slnil, .nil, by simp, rfl⟩
  | O, a :: rest, kept, cores, cores', hr => by
    unfold occupiedRetain at hr
    split at hr
    · rename_i hhead
      split at hr
      · rename_i hlt
        obtain ⟨removed, hsub, hperm, hmem, rfl⟩ := occupiedRetain_ok hr
        have hO : a.core ∈ O := by
          cases O with
          | nil => cases hhead
          | cons c O => cases hhead; exact List.mem_cons_self _ _
        refine ⟨a :: removed, hsub.cons a, List.perm_middle.trans (hperm.cons a), ?_, rfl⟩
        intro b hb
        rcases List.mem_cons.mp hb with rfl | hb
        · exact ⟨hO, hlt⟩
        · obtain ⟨h1, h2⟩ := hmem b hb
          exact ⟨List.mem_of_mem_tail h1, by simpa [occupy] using h2⟩
      · cases hr
    · obtain ⟨⟨kept', cores₁⟩, hrest, hr⟩ := bind_eq_ok.mp hr
      cases hr
      obtain ⟨removed, hsub, hperm, hmem, rfl⟩ := occupiedRetain_ok hrest
      exact ⟨removed, hsub.cons₂ a, hperm.cons a, hmem, rfl⟩
termination_by structural _ l => l

/-- `occupied` keeps a sublist of `Scheduled` and installs the rest, in order. -/
theorem occupied_ok {O : List Nat} {s s' : Scheduler} (hok : occupied O s = .ok s') :
    ∃ kept removed, s' = { s with scheduled := kept,
                                  availabilityCores := removed.foldl occupy s.availabilityCores } ∧
      List.Sublist kept s.scheduled ∧ (kept ++ removed).Perm s.scheduled ∧
      ∀ a ∈ removed, a.core ∈ O ∧ a.core < s.availabilityCores.length := by
  unfold occupied at hok
  split at hok
  · cases hok; exact ⟨s.scheduled, [], rfl, .refl _, by simp, by simp⟩
  · obtain ⟨⟨kept, cores⟩, hr, hok⟩ := bind_eq_ok.mp hok
    cases hok
    obtain ⟨removed, hsub, hperm, hmem, rfl⟩ := occupiedRetain_ok hr
    exact ⟨kept, removed, rfl, hsub, hperm, hmem⟩

/-- On its caller contract (the occupied cores strictly increasing and all in a sorted
`Scheduled`), the `retain` keeps no assignment on a given core. -/
theorem occupiedRetain_kept : ∀ {O : List Nat} {l kept : List CoreAssignment}
    {cores cores' : List (Option CoreOccupied)},
    O.Pairwise (· < ·) → SortedByCore l → (∀ c ∈ O, c ∈ l.map (·.core)) →
    occupiedRetain O l cores = .ok (kept, cores') → ∀ b ∈ kept, b.core ∉ O
  | O, [], kept, cores, cores', _, _, _, hr => by cases hr; simp
  | O, a :: rest, kept, cores, cores', hOs, hl, hO, hr => by
    have hgt : ∀ b ∈ rest, a.core < b.core := (List.pairwise_cons.mp hl).1
    have hrest : ∀ c ∈ O, c ≠ a.core → c ∈ rest.map (·.core) := fun c hc hne => by
      rcases List.mem_cons.mp (hO c hc) with h | h
      · exact absurd h hne
      · exact h
    unfold occupiedRetain at hr
    split at hr
    · rename_i hhead
      split at hr
      · obtain ⟨O', rfl⟩ : ∃ O', O = a.core :: O' := by
          cases O with
          | nil => cases hhead
          | cons c₀ O' => cases hhead; exact ⟨O', rfl⟩
        have hO' := List.pairwise_cons.mp hOs
        have ih := occupiedRetain_kept hO'.2 hl.tail
          (fun c hc => hrest c (List.mem_cons_of_mem _ hc) (Nat.ne_of_gt (hO'.1 c hc))) hr
        obtain ⟨-, hsub, -⟩ := occupiedRetain_ok hr
        intro b hb hbO
        rcases List.mem_cons.mp hbO with he | he
        · exact absurd he (Nat.ne_of_gt (hgt b (hsub.subset hb)))
        · exact ih b hb he
      · cases hr
    · rename_i hhead
      obtain ⟨⟨kept', cores₁⟩, hr', hr⟩ := bind_eq_ok.mp hr
      cases hr
      have ha : a.core ∉ O := fun haO => by
        cases O with
        | nil => cases haO
        | cons c₀ O' =>
          have hne : c₀ ≠ a.core := fun he => hhead (by simp [he])
          obtain ⟨b, hb, hbc⟩ := List.mem_map.mp (hrest c₀ (List.mem_cons_self _ _) hne)
          rcases List.mem_cons.mp haO with he | he
          · exact hne he.symm
          · have h1 := (List.pairwise_cons.mp hOs).1 _ he
            have h2 := hgt b hb
            omega
      have ih := occupiedRetain_kept hOs hl.tail
        (fun c hc => hrest c hc fun he => ha (he ▸ hc)) hr'
      intro b hb
      rcases List.mem_cons.mp hb with rfl | hb
      · exact ha
      · exact ih b hb
termination_by structural _ l => l

/-- On its caller contract, `occupied` leaves no assignment on an occupied core. -/
theorem occupied_kept {O : List Nat} {s s' : Scheduler} (hOs : O.Pairwise (· < ·))
    (hs : SortedByCore s.scheduled) (hO : ∀ c ∈ O, c ∈ s.scheduledCores)
    (hok : occupied O s = .ok s') : ∀ b ∈ s'.scheduled, b.core ∉ O := by
  unfold occupied at hok
  split at hok
  · rename_i he
    rw [List.isEmpty_iff.mp he]
    exact fun _ _ => List.not_mem_nil _
  · obtain ⟨⟨kept, cores⟩, hr, hok⟩ := bind_eq_ok.mp hok
    cases hok
    exact occupiedRetain_kept hOs hs hO hr

/-- The `retain` of `occupied` succeeds when every assignment on one of the given cores
is in bounds. -/
theorem occupiedRetain_exists : ∀ {O : List Nat} {l : List CoreAssignment}
    {cores : List (Option CoreOccupied)}, (∀ a ∈ l, a.core ∈ O → a.core < cores.length) →
    ∃ r, occupiedRetain O l cores = .ok r
  | O, [], cores, _ => ⟨_, rfl⟩
  | O, a :: rest, cores, hlt => by
    unfold occupiedRetain
    split
    · rename_i hhead
      rw [if_pos (hlt a (List.mem_cons_self _ _) (List.mem_of_mem_head? hhead))]
      exact occupiedRetain_exists fun b hb hbO => by
        simpa using hlt b (List.mem_cons_of_mem _ hb) (List.mem_of_mem_tail hbO)
    · obtain ⟨r, hr⟩ := occupiedRetain_exists (O := O) fun b hb => hlt b (List.mem_cons_of_mem _ hb)
      exact ⟨_, by rw [hr]; rfl⟩
termination_by structural _ l => l

/-- `occupied` succeeds when every scheduled assignment on one of the given cores is in
bounds. -/
theorem occupied_exists {O : List Nat} {s : Scheduler}
    (hlt : ∀ a ∈ s.scheduled, a.core ∈ O → a.core < s.availabilityCores.length) :
    ∃ s', occupied O s = .ok s' := by
  unfold occupied
  split
  · exact ⟨_, rfl⟩
  · obtain ⟨r, hr⟩ := occupiedRetain_exists hlt
    exact ⟨_, by rw [hr]; rfl⟩

end Occupied

/-! ## `clear` -/

/-- The entry `clear` re-queues for an assignment: an indrabase assignment whose indra is
still an indrabase, with one more retry, unless that exceeds the retry limit. -/
def requeueEntry? (h : Host) (a : CoreAssignment) : Option IndrabaseEntry :=
  match a.kind with
  | .indracore => none
  | .indrabase collator retries =>
    if h.indras.isIndrabase a.indraId ∧ asU32 (retries + 1) ≤ h.config.indrabaseRetries then
      some ⟨⟨a.indraId, collator⟩, asU32 (retries + 1)⟩
    else none

section Clear

variable {h : Host}

theorem requeue_eq (q : IndrabaseClaimQueue) (a : CoreAssignment) :
    requeue h q a = match requeueEntry? h a with
      | none => .ok q
      | some e => q.enqueueEntry e h.config.indrabaseCores := by
  unfold requeue requeueEntry?
  cases a.kind with
  | indracore => rfl
  | indrabase collator retries =>
    by_cases hl : h.indras.isIndrabase a.indraId = true <;>
      by_cases hr : asU32 (retries + 1) ≤ h.config.indrabaseRetries <;> simp [hl, hr]

/-- A re-queued entry is within the retry limit. -/
theorem requeueEntry?_retries {a : CoreAssignment} {e : IndrabaseEntry}
    (he : requeueEntry? h a = some e) : e.retries ≤ h.config.indrabaseRetries := by
  unfold requeueEntry? at he
  split at he
  · cases he
  · split_ifs at he with hc
    cases he; exact hc.2

/-- A re-queued entry carries its assignment's indrabase id. -/
theorem requeueEntry?_ids (l : List CoreAssignment) :
    List.Sublist ((l.filterMap (requeueEntry? h)).map (·.claim.indraId))
      ((l.filterMap CoreAssignment.indrabaseEntry?).map (·.claim.indraId)) := by
  induction l with
  | nil => exact .slnil
  | cons a rest ih =>
    unfold requeueEntry?
    rcases ha : a.kind with _ | ⟨collator, retries⟩
    · simpa [List.filterMap_cons, requeueEntry?, CoreAssignment.indrabaseEntry?, ha] using ih
    · by_cases hc : h.indras.isIndrabase a.indraId = true ∧
          asU32 (retries + 1) ≤ h.config.indrabaseRetries
      · simpa [List.filterMap_cons, requeueEntry?, CoreAssignment.indrabaseEntry?, ha, hc] using
          ih.cons₂ a.indraId
      · simpa [List.filterMap_cons, requeueEntry?, CoreAssignment.indrabaseEntry?, ha, hc] using
          ih.cons a.indraId

/-- `clear`'s loop appends the selected entries, and it selects one only if there are
indrabase cores to put it on. -/
theorem foldlM_requeue_ok : ∀ {l : List CoreAssignment} {q q' : IndrabaseClaimQueue},
    l.foldlM (requeue h) q = .ok q' →
    q'.queue.map (·.claim) = q.queue.map (·.claim) ++ l.filterMap (requeueEntry? h) ∧
      (l.filterMap (requeueEntry? h) ≠ [] → 0 < h.config.indrabaseCores)
  | [], q, q', hr => by cases hr; simp
  | a :: rest, q, q', hr => by
    obtain ⟨q₁, h₁, hr⟩ := bind_eq_ok.mp hr
    obtain ⟨ih₁, ih₂⟩ := foldlM_requeue_ok hr
    rw [requeue_eq] at h₁
    rcases he : requeueEntry? h a with _ | e <;> simp only [he] at h₁
    · cases h₁; simp only [List.filterMap_cons, he]; exact ⟨ih₁, ih₂⟩
    · have hk : 0 < h.config.indrabaseCores := Nat.pos_of_ne_zero fun hk => by
        rw [hk, IndrabaseClaimQueue.enqueueEntry_zero] at h₁; cases h₁
      rw [IndrabaseClaimQueue.enqueueEntry_of_pos _ _ hk] at h₁
      cases h₁
      exact ⟨by simpa [List.filterMap_cons, he] using ih₁, fun _ => hk⟩
termination_by structural l => l

/-- `clear`'s loop keeps the queue's offsets among the multiplexer cores. -/
theorem foldlM_requeue_onCores : ∀ {l : List CoreAssignment} {q q' : IndrabaseClaimQueue},
    q.OnCores h.config.indrabaseCores → l.foldlM (requeue h) q = .ok q' →
      q'.OnCores h.config.indrabaseCores
  | [], q, q', hq, hr => by cases hr; exact hq
  | a :: rest, q, q', hq, hr => by
    obtain ⟨q₁, h₁, hr⟩ := bind_eq_ok.mp hr
    rw [requeue_eq] at h₁
    refine foldlM_requeue_onCores ?_ hr
    rcases he : requeueEntry? h a with _ | e <;> simp only [he] at h₁
    · cases h₁; exact hq
    · exact hq.enqueueEntry h₁
termination_by structural l => l

theorem foldlM_requeue_exists : ∀ {l : List CoreAssignment} {q : IndrabaseClaimQueue},
    (0 < h.config.indrabaseCores ∨ l.filterMap (requeueEntry? h) = []) →
    ∃ q', l.foldlM (requeue h) q = .ok q'
  | [], q, _ => ⟨q, rfl⟩
  | a :: rest, q, hk => by
    rw [List.foldlM_cons, requeue_eq]
    rcases he : requeueEntry? h a with _ | e
    · exact foldlM_requeue_exists (by simpa [List.filterMap_cons, he] using hk)
    · have hk : 0 < h.config.indrabaseCores := by simpa [List.filterMap_cons, he] using hk
      simpa [IndrabaseClaimQueue.enqueueEntry_of_pos _ _ hk] using
        foldlM_requeue_exists (l := rest) (q := _) (.inl hk)
termination_by structural l => l

variable {s s' : Scheduler}

/-- `clear` empties `Scheduled` and appends the entries `requeueEntry?` selects. -/
theorem clear_ok (hok : clear h s = .ok s') :
    ∃ queue, s' = { s with scheduled := [], indrabaseQueue := queue } ∧
      queue.queue.map (·.claim) =
        s.indrabaseQueue.queue.map (·.claim) ++ s.scheduled.filterMap (requeueEntry? h) ∧
      (s.scheduled.filterMap (requeueEntry? h) ≠ [] → 0 < h.config.indrabaseCores) := by
  obtain ⟨q, hq, hok⟩ := bind_eq_ok.mp hok
  cases hok
  exact ⟨q, rfl, foldlM_requeue_ok hq⟩

/-- `clear` keeps the queue's offsets among the multiplexer cores. -/
theorem clear_onCores (hq : s.indrabaseQueue.OnCores h.config.indrabaseCores)
    (hok : clear h s = .ok s') : s'.indrabaseQueue.OnCores h.config.indrabaseCores := by
  obtain ⟨q, hfold, hok⟩ := bind_eq_ok.mp hok
  cases hok
  exact foldlM_requeue_onCores hq hfold

/-- `clear` panics only when it re-queues an entry while there are no indrabase cores. -/
theorem clear_exists (hk : 0 < h.config.indrabaseCores ∨ s.scheduled.filterMap (requeueEntry? h) = []) :
    ∃ s', clear h s = .ok s' := by
  obtain ⟨q, hq⟩ := foldlM_requeue_exists (q := s.indrabaseQueue) hk
  exact ⟨_, by unfold clear; rw [hq]; rfl⟩

end Clear

end SelendraScheduler
