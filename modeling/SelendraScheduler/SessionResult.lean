import SelendraScheduler.QueueEntries

/-!
# SelendraScheduler.SessionResult

What `initializer_on_new_session` computes, in the words of the pallet's documentation:

* the cores and the groups: below `2^32` the `u32` core count is the documented
  `max(n_indracores + indrabase_cores, validators / max_validators_per_core)`
  (`nCores_eq_documentedCores`); the session change makes that many empty cores and, when
  there are cores and validators, one group per core, the groups concatenating to the
  validator indices in order, the first `v mod n_cores` of them one larger
  (`session_cores_and_groups`);
* the queue and the claim index: the survivors of the pruning in order, each re-balanced
  on its position, and the sorted index without the ids of the dropped entries
  (`session_requeues_survivors`); so the survivors are spread over the offsets as evenly
  as possible (`session_rebalances_evenly`).

Past the `u32` range both diverge from the documentation: a core count that wraps leaves
no cores (`session_core_count_wraps`), and more than `2^32` survivors wrap the positions
(`rebalance_wraps_past_u32`).  Within it, the floor in `n_cores` lets a group exceed
`max_validators_per_core = x` (`groups_exceed_max_per_core`), but never
`x + validators mod x` (`groups_within_max_per_core_add_mod`).
-/

namespace SelendraScheduler

/-! ## Cores and groups -/

/-- `n_cores` as the pallet documents it, without `u32` wrapping: one core per indracore and
indrabase multiplexer, or the validator count over `max_validators_per_core` when that is
set and not zero. -/
def documentedCores (nIndracores : Nat) (config : HostConfiguration) (nValidators : Nat) : Nat :=
  max (nIndracores + config.indrabaseCores)
    (match config.maxValidatorsPerCore with
      | some x => if x ≠ 0 then nValidators / x else 0
      | none => 0)

/-- Below `2^32` the pallet's `u32` core count is the documented one. -/
theorem nCores_eq_documentedCores {n v : Nat} {config : HostConfiguration}
    (hn : n + config.indrabaseCores < 2 ^ 32) (hv : v < 2 ^ 32) :
    nCores n config v = documentedCores n config v := by
  cases hm : config.maxValidatorsPerCore <;>
    simp [nCores, documentedCores, hm, asU32_of_lt hn, asU32_of_lt hv]

/-- `m` consecutive blocks of `w` indices from `s` on, concatenated, are the `w * m`
indices from `s` on. -/
theorem flatten_map_range' (s w : Nat) : ∀ m,
    ((List.range m).map fun i => List.range' (s + w * i) w).flatten = List.range' s (w * m)
  | 0 => rfl
  | m + 1 => by
    rw [List.range_succ, List.map_append, List.flatten_append, flatten_map_range' s w m,
      List.map_singleton, List.flatten_singleton, List.range'_append_1, Nat.mul_succ, Nat.add_comm]

/-- The groups of `partitionValidators`, before the `u32` cast of each index: `v mod n`
blocks of `v / n + 1` consecutive indices, then blocks of `v / n`. -/
def validatorBlocks (v n : Nat) : List (List Nat) :=
  (List.range (v % n)).map (fun i => List.range' (0 + (v / n + 1) * i) (v / n + 1)) ++
    (List.range (n - v % n)).map fun i => List.range' (v % n * (v / n + 1) + v / n * i) (v / n)

theorem partitionValidators_eq_map (v n : Nat) :
    partitionValidators v n = (validatorBlocks v n).map (List.map asU32) := by
  simp only [partitionValidators, validatorBlocks, List.map_append, List.map_map,
    List.range'_eq_map_range, Function.comp_def, Nat.zero_add, Nat.mul_comm _ (v / n)]

theorem length_validatorBlocks {v n : Nat} (hn : 0 < n) : (validatorBlocks v n).length = n := by
  have := Nat.mod_lt v hn
  simp [validatorBlocks]; omega

/-- With cores, the blocks concatenate to the validator indices in order. -/
theorem flatten_validatorBlocks {v n : Nat} (hn : 0 < n) :
    (validatorBlocks v n).flatten = List.range v := by
  -- The larger blocks take `(v / n + 1) * (v mod n)` indices, the others the rest.
  have hsplit : v / n * (n - v % n) + v / n * (v % n) = v / n * n := by
    rw [← Nat.mul_add, Nat.sub_add_cancel (Nat.mod_lt _ hn).le]
  have hv : v / n * (n - v % n) + (v / n + 1) * (v % n) = v := by
    have := Nat.div_add_mod v n
    rw [Nat.mul_comm n] at this
    rw [Nat.add_mul, Nat.one_mul]; omega
  have happ := List.range'_append_1 0 ((v / n + 1) * (v % n)) (v / n * (n - v % n))
  rw [Nat.zero_add] at happ
  rw [validatorBlocks, List.flatten_append, flatten_map_range', flatten_map_range',
    Nat.mul_comm (v % n), happ, hv, List.range_eq_range']

theorem map_length_validatorBlocks (v n : Nat) :
    (validatorBlocks v n).map List.length =
      List.replicate (v % n) (v / n + 1) ++ List.replicate (n - v % n) (v / n) := by
  simp [validatorBlocks, Function.comp_def, List.map_const']

/-- A session change with fewer than `2^32` validators and `n_indracores + indrabase_cores`
below `2^32` makes the documented number of cores, all empty; with cores and validators,
one group per core, the groups concatenating to the validator indices in order, the first
`v mod n_cores` of them of `v / n_cores + 1` validators and the others of `v / n_cores`;
and otherwise no groups. -/
theorem session_cores_and_groups (notification : SessionChangeNotification) (indras : Indras)
    (blockNumber : Nat) (s : Scheduler) (hv : notification.validators.length < 2 ^ 32)
    (hn : indras.indracores.length + notification.newConfig.indrabaseCores < 2 ^ 32) :
    let s' := initializerOnNewSession notification indras blockNumber s
    let v := notification.validators.length
    let nc := documentedCores indras.indracores.length notification.newConfig v
    s'.availabilityCores = List.replicate nc none ∧
    (0 < nc → 0 < v →
      s'.validatorGroups.length = nc ∧ s'.validatorGroups.flatten = List.range v ∧
      s'.validatorGroups.map List.length =
        List.replicate (v % nc) (v / nc + 1) ++ List.replicate (nc - v % nc) (v / nc)) ∧
    (nc = 0 ∨ v = 0 → s'.validatorGroups = []) := by
  intro s' v nc
  have hnc : nCores indras.indracores.length notification.newConfig v = nc :=
    nCores_eq_documentedCores hn hv
  have hgroups : s'.validatorGroups = if nc = 0 ∨ v = 0 then [] else partitionValidators v nc := by
    simp [s', initializerOnNewSession, hnc, v]
  refine ⟨hnc ▸ initializerOnNewSession_availabilityCores _ _ _ _, fun hc hv₀ => ?_,
    fun h0 => by rw [hgroups, if_pos h0]⟩
  rw [hgroups, if_neg (by omega), partitionValidators_eq_map, List.map_map]
  refine ⟨by rw [List.length_map, length_validatorBlocks hc], ?_, by
    simp only [Function.comp_def, List.length_map, ← map_length_validatorBlocks]⟩
  rw [← List.map_flatten, flatten_validatorBlocks hc]
  exact (List.map_congr_left fun i hi => asU32_of_lt (by simp at hi; omega)).trans (List.map_id _)

/-- The session of `session_change_shuffles_validators`: seven validators under the tests'
configuration, for indracores `1` and `2`. -/
def sevenValidators : SessionChangeNotification := ⟨List.range 7, defaultConfig⟩

theorem session_cores_and_groups_seven_validators :
    sevenValidators.validators.length < 2 ^ 32 ∧
    testHost.indras.indracores.length + sevenValidators.newConfig.indrabaseCores < 2 ^ 32 ∧
    let s' := initializerOnNewSession sevenValidators testHost.indras 0 .empty
    let v := sevenValidators.validators.length
    let nc := documentedCores testHost.indras.indracores.length sevenValidators.newConfig v
    s'.availabilityCores = List.replicate nc none ∧
    (0 < nc → 0 < v →
      s'.validatorGroups.length = nc ∧ s'.validatorGroups.flatten = List.range v ∧
      s'.validatorGroups.map List.length =
        List.replicate (v % nc) (v / nc + 1) ++ List.replicate (nc - v % nc) (v / nc)) ∧
    (nc = 0 ∨ v = 0 → s'.validatorGroups = []) :=
  ⟨by decide, by decide,
    session_cores_and_groups sevenValidators testHost.indras 0 .empty (by decide) (by decide)⟩

/-- With `n_indracores + indrabase_cores = 2^32` the documented count is `2^32` cores, but the
`u32` sum wraps to `0`: the session change makes no core and no group. -/
theorem session_core_count_wraps :
    [0].length < 2 ^ 32 ∧
    documentedCores maxCoresHost.indras.indracores.length maxCoresConfig [0].length = 2 ^ 32 ∧
    (initializerOnNewSession ⟨[0], maxCoresConfig⟩ maxCoresHost.indras 0 .empty).availabilityCores =
      [] ∧
    (initializerOnNewSession ⟨[0], maxCoresConfig⟩ maxCoresHost.indras 0 .empty).validatorGroups =
      [] :=
  ⟨by decide, rfl, rfl, rfl⟩

/-- A session change with indrabase cores, on a sorted claim index and fewer than `2^32`
survivors: the queue is the entries of the old queue and of the indrabase occupants, in
order, that are within the retry limit and still live, each on its position modulo the
indrabase core count, and so is the next offset; the index is the old one without the
ids of the dropped entries.  Without indrabase cores both are emptied. -/
theorem session_requeues_survivors (notification : SessionChangeNotification) (indras : Indras)
    (blockNumber : Nat) (s : Scheduler) :
    let s' := initializerOnNewSession notification indras blockNumber s
    let k := notification.newConfig.indrabaseCores
    let threadQueue := s.indrabaseQueue.queue ++ occupiedClaims s.availabilityCores
    let kept := threadQueue.filter (willKeep notification.newConfig indras.isIndrabase)
    (k = 0 → s'.indrabaseQueue = .empty ∧ s'.indrabaseClaimIndex = []) ∧
    (0 < k → s.indrabaseClaimIndex.Pairwise (· < ·) → kept.length < 2 ^ 32 →
      s'.indrabaseQueue =
        ⟨kept.enum.map fun p => { p.2 with coreOffset := p.1 % k }, kept.length % k⟩ ∧
      s'.indrabaseClaimIndex = s.indrabaseClaimIndex.filter fun y =>
        y ∉ (threadQueue.filter fun q => !willKeep notification.newConfig indras.isIndrabase q).map
          (·.claim.claim.indraId)) := by
  intro s' k threadQueue kept
  refine ⟨initializerOnNewSession_wiped _ _ _ _, fun hk hs hlen => ⟨?_, ?_⟩⟩
  · rw [initializerOnNewSession_indrabaseQueue _ _ _ _ hk, rebalance, asU32_of_lt hlen]
    congr 1
    refine List.map_congr_left fun ⟨i, q⟩ hi => ?_
    dsimp only
    rw [asU32_of_lt (lt_trans (List.fst_lt_of_mem_enum hi) hlen)]
  · obtain ⟨-, hsorted, hmem⟩ := (initializerOnNewSession_claims notification indras blockNumber s hs).2 hk
    refine List.eq_of_perm_of_sorted ((List.perm_ext_iff_of_nodup (hsorted.imp Nat.ne_of_lt)
      ((hs.filter _).imp Nat.ne_of_lt)).mpr fun y => ?_) hsorted (hs.filter _)
    rw [hmem]
    simp only [threadQueue, List.mem_filter, decide_eq_true_eq, List.mem_map, Bool.not_eq_true',
      not_exists, not_and, and_imp]
    exact and_congr_right fun _ => forall₂_congr fun q _ => imp_congr_right fun _ => ne_comm

theorem session_requeues_survivors_at_block_two :
    let s' := initializerOnNewSession sevenValidators testHost.indras 2 occupiedAtBlockTwo
    let k := sevenValidators.newConfig.indrabaseCores
    let threadQueue :=
      occupiedAtBlockTwo.indrabaseQueue.queue ++ occupiedClaims occupiedAtBlockTwo.availabilityCores
    let kept := threadQueue.filter (willKeep sevenValidators.newConfig testHost.indras.isIndrabase)
    0 < k ∧ occupiedAtBlockTwo.indrabaseClaimIndex.Pairwise (· < ·) ∧ kept.length < 2 ^ 32 ∧
      s'.indrabaseQueue =
        ⟨kept.enum.map fun p => { p.2 with coreOffset := p.1 % k }, kept.length % k⟩ ∧
      s'.indrabaseClaimIndex = occupiedAtBlockTwo.indrabaseClaimIndex.filter fun y =>
        y ∉ (threadQueue.filter fun q =>
          !willKeep sevenValidators.newConfig testHost.indras.isIndrabase q).map
            (·.claim.claim.indraId) :=
  ⟨by decide, by decide, by decide,
    (session_requeues_survivors sevenValidators testHost.indras 2 occupiedAtBlockTwo).2
      (by decide) (by decide) (by decide)⟩

/-- The re-balanced queue of `n` copies of one entry: the copy at position `i` on offset
`i` as a `u32`, modulo the count. -/
theorem getElem?_rebalance_replicate (n k i : Nat) (q : QueuedIndrabase) :
    (rebalance (List.replicate n q) k).queue[i]? =
      if i < n then some { q with coreOffset := asU32 i % k } else none := by
  by_cases hi : i < n <;> simp [rebalance, List.getElem?_enum, hi, Nat.le_of_not_lt]

/-- `2^32 + 1` queued claims of indrabase `1`, all within the retry limit. -/
def overlongQueue : Scheduler :=
  ⟨[], ⟨List.replicate (2 ^ 32 + 1) ⟨⟨⟨1, 0⟩, 0⟩, 0⟩, 0⟩, [], [1], 0, []⟩

/-- Past `2^32` survivors the `u32` position wraps: the survivor at position `2^32` goes on
offset `0`, not on `2^32 mod 3 = 1`. -/
theorem rebalance_wraps_past_u32 :
    0 < defaultConfig.indrabaseCores ∧ overlongQueue.indrabaseClaimIndex.Pairwise (· < ·) ∧
    (initializerOnNewSession ⟨[], defaultConfig⟩ prunedHost.indras 0
        overlongQueue).indrabaseQueue.queue[2 ^ 32]? = some ⟨⟨⟨1, 0⟩, 0⟩, 0⟩ ∧
    2 ^ 32 % defaultConfig.indrabaseCores = 1 := by
  refine ⟨by decide, by decide, ?_, by decide⟩
  have hkeep : (overlongQueue.indrabaseQueue.queue ++ occupiedClaims overlongQueue.availabilityCores).filter
      (willKeep defaultConfig prunedHost.indras.isIndrabase) =
        List.replicate (2 ^ 32 + 1) ⟨⟨⟨1, 0⟩, 0⟩, 0⟩ := by
    rw [show occupiedClaims overlongQueue.availabilityCores = [] from rfl, List.append_nil]
    exact List.filter_eq_self.mpr fun q hq => by rw [List.eq_of_mem_replicate hq]; rfl
  rw [initializerOnNewSession_indrabaseQueue _ _ _ _ (by decide), hkeep, getElem?_rebalance_replicate]
  rfl

/-! ## Balance -/

/-- Among the first `n` positions, those on offset `o` modulo `k`: `n / k`, and one more for
the first `n mod k` offsets. -/
theorem countP_range_mod {k o : Nat} (hk : 0 < k) (ho : o < k) : ∀ n,
    (List.range n).countP (fun i => i % k = o) = n / k + if o < n % k then 1 else 0
  | 0 => by simp
  | n + 1 => by
    rw [List.range_succ, List.countP_append, countP_range_mod hk ho n, List.countP_singleton]
    have hr := Nat.mod_lt n hk
    have hdm := Nat.div_add_mod n k
    rcases Nat.lt_or_ge (n % k + 1) k with h | h
    · obtain ⟨hq, hm⟩ := (Nat.div_mod_unique hk).mpr
        (⟨by omega, h⟩ : n % k + 1 + k * (n / k) = n + 1 ∧ n % k + 1 < k)
      rw [hq, hm]
      simp only [decide_eq_true_eq]
      split_ifs <;> omega
    · obtain ⟨hq, hm⟩ := (Nat.div_mod_unique hk).mpr
        (⟨by rw [Nat.mul_add]; omega, hk⟩ : 0 + k * (n / k + 1) = n + 1 ∧ 0 < k)
      rw [hq, hm]
      simp only [decide_eq_true_eq]
      split_ifs <;> omega

/-- **Even re-balancing**: a session change with `k` indrabase cores and fewer than `2^32`
surviving claims spreads the `n` survivors over the `k` offsets as evenly as possible:
`n / k` on each offset, and one more on each of the first `n mod k`. So the counts of any
two offsets differ by at most one. -/
theorem session_rebalances_evenly (notification : SessionChangeNotification) (indras : Indras)
    (blockNumber : Nat) (s : Scheduler) (hk : 0 < notification.newConfig.indrabaseCores)
    (hlen : ((s.indrabaseQueue.queue ++ occupiedClaims s.availabilityCores).filter
      (willKeep notification.newConfig indras.isIndrabase)).length < 2 ^ 32)
    {o : Nat} (ho : o < notification.newConfig.indrabaseCores) :
    ((initializerOnNewSession notification indras blockNumber s).indrabaseQueue.queue.filter
        (·.coreOffset = o)).length =
      ((s.indrabaseQueue.queue ++ occupiedClaims s.availabilityCores).filter
        (willKeep notification.newConfig indras.isIndrabase)).length /
          notification.newConfig.indrabaseCores +
      if o < ((s.indrabaseQueue.queue ++ occupiedClaims s.availabilityCores).filter
        (willKeep notification.newConfig indras.isIndrabase)).length %
          notification.newConfig.indrabaseCores then 1 else 0 := by
  rw [initializerOnNewSession_indrabaseQueue _ _ _ _ hk, ← countP_range_mod hk ho, rebalance,
    ← List.countP_eq_length_filter, List.countP_map]
  generalize (s.indrabaseQueue.queue ++ occupiedClaims s.availabilityCores).filter
    (willKeep notification.newConfig indras.isIndrabase) = kept at hlen ⊢
  rw [← List.enum_map_fst kept, List.countP_map]
  refine List.countP_congr fun p hp => ?_
  simp [Function.comp_def, asU32_of_lt (lt_trans (List.fst_lt_of_mem_enum hp) hlen)]

/-- The session change of `session_requeues_survivors_at_block_two`: the one survivor, the
claim of indrabase `3`, goes on offset `0`. -/
theorem session_rebalances_evenly_at_block_two :
    0 < sevenValidators.newConfig.indrabaseCores ∧
    ((occupiedAtBlockTwo.indrabaseQueue.queue ++ occupiedClaims occupiedAtBlockTwo.availabilityCores).filter
      (willKeep sevenValidators.newConfig testHost.indras.isIndrabase)).length < 2 ^ 32 ∧
    0 < sevenValidators.newConfig.indrabaseCores ∧
    ((initializerOnNewSession sevenValidators testHost.indras 2 occupiedAtBlockTwo).indrabaseQueue.queue.filter
        (·.coreOffset = 0)).length =
      ((occupiedAtBlockTwo.indrabaseQueue.queue ++ occupiedClaims occupiedAtBlockTwo.availabilityCores).filter
        (willKeep sevenValidators.newConfig testHost.indras.isIndrabase)).length /
          sevenValidators.newConfig.indrabaseCores +
      if 0 < ((occupiedAtBlockTwo.indrabaseQueue.queue ++
          occupiedClaims occupiedAtBlockTwo.availabilityCores).filter
        (willKeep sevenValidators.newConfig testHost.indras.isIndrabase)).length %
          sevenValidators.newConfig.indrabaseCores then 1 else 0 :=
  ⟨by decide, by decide, by decide,
    session_rebalances_evenly sevenValidators testHost.indras 2 occupiedAtBlockTwo (by decide)
      (by decide) (by decide)⟩

end SelendraScheduler
