import SelendraScheduler.Safety

/-!
# SelendraScheduler.Groups

Validator groups over runs.  Every reachable state has no groups or one group per core,
and fewer than `2^32` cores (`RunInv`), so the rotation law of
`SelendraScheduler.Rotation` applies to it: at any block after the session start the cores
and the groups are in bijection, and one rotation period later each core is served by the
next group.

At one block distinct cores get distinct groups (`groupAssignedToCore_injective`), and in a
protocol run every assignment in `Scheduled` was made by the block's one `schedule`, at
one block and on its own core: so the groups in `Scheduled` are pairwise distinct
(`ProtocolReachable.groups_nodup`), and no group is asked to back two cores at once.

Over time the rotation is fair: in any window of as many rotation periods as there are
groups, each group serves a given core exactly once (`groupAssignedToCore_fair`). The
availability timeout follows the rotation: it times out only a candidate made pending
before the current rotation began (`availabilityTimeoutPredicate_before_rotation`).
-/

namespace SelendraScheduler

theorem RunInv.groups_le {s : Scheduler} (hr : RunInv s) : s.validatorGroups.length ≤ 2 ^ 32 := by
  rcases hr.groups with h | h
  · simp [h]
  · have := hr.coresLt; omega

/-- An assignment `schedule` makes carries the group of its core at the block it is made. -/
theorem MadeFor.group_of_core {h : Host} {s : Scheduler} {now c : Nat} {a : CoreAssignment}
    (hm : MadeFor h s now c a) : groupAssignedToCore h s a.core now = .ok (some a.groupIdx) := by
  rw [hm.core]; exact hm.group

/-- After the block's `clear`, `schedule` makes assignments with pairwise distinct groups. -/
theorem schedule_groups_nodup {h : Host} {s s' : Scheduler} (hs : SafeInv .cleared h s)
    (hr : RunInv s) {freed : List (Nat × FreedReason)} {now : Nat}
    (hok : schedule h freed now s = .ok s') :
    (s'.scheduled.map (·.groupIdx)).Nodup := by
  obtain ⟨s₁, new, scheduled, queue, h₁, rfl, hsorted, hperm, hnew, -, -⟩ :=
    schedule_ok hr.sorted (Nat.le_of_lt hr.coresLt) hok
  have hsch : scheduled.Perm new := by simpa [(hs.freeCores h₁).cleared rfl] using hperm
  have hgroup : ∀ a ∈ scheduled, groupAssignedToCore h s₁ a.core now = .ok (some a.groupIdx) :=
    fun a ha => by obtain ⟨c, -, -, hm, -⟩ := hnew a (hsch.subset ha); exact hm.group_of_core
  refine List.pairwise_map.mpr (hsorted.imp_of_mem fun ha hb hlt hg => ?_)
  have := groupAssignedToCore_injective (hr.freeCores h₁).groups_le (hgroup _ ha)
    (hg ▸ hgroup _ hb)
  omega

/-- In every protocol run the assignments in `Scheduled` carry pairwise distinct groups. -/
theorem ProtocolReachable.groups_nodup {p : Phase} {w : Chain} (hw : ProtocolReachable p w) :
    (w.scheduler.scheduled.map (·.groupIdx)).Nodup := by
  induction hw with
  | init host => exact List.nodup_nil
  | step c hw hnext _ _ happ ih =>
    have hr := hw.reachable.runInv
    rcases Phase.next_cases hnext with ⟨claim, rfl, rfl⟩ | ⟨n, i, b, rfl, rfl, rfl⟩ |
        ⟨rfl, -, rfl⟩ | ⟨freed, now, rfl, rfl, rfl⟩ | ⟨o, rfl, rfl, rfl⟩
    · obtain ⟨s', hok, rfl⟩ := map_eq_ok.mp happ
      rcases addIndrabaseClaim_ok hr.index hok with rfl | ⟨-, -, -, -, index, -, -, rfl⟩ <;>
        exact ih
    · cases happ; simpa using ih
    · obtain ⟨s', hok, rfl⟩ := map_eq_ok.mp happ
      obtain ⟨queue, rfl, -⟩ := clear_ok hok
      exact List.nodup_nil
    · obtain ⟨s', hok, rfl⟩ := map_eq_ok.mp happ
      exact schedule_groups_nodup hw.safeInv hr hok
    · obtain ⟨s', hok, rfl⟩ := map_eq_ok.mp happ
      obtain ⟨kept, removed, rfl, hsub, -⟩ := occupied_ok hok
      exact ih.sublist (hsub.map _)

/-- In every reachable state with groups and a positive rotation frequency, at any block
after the session start the cores and the groups are in bijection, and one rotation
period later (a `u32` block) every core is served by the next group; and in every protocol
run the assignments in `Scheduled` carry pairwise distinct groups. -/
theorem groups_rotate_bijectively {w : Chain} (hw : Reachable w) :
    (w.scheduler.validatorGroups ≠ [] → 0 < w.host.config.groupRotationFrequency →
      ∀ atBlock, w.scheduler.sessionStartBlock ≤ atBlock →
        (∃ σ : Fin w.scheduler.availabilityCores.length ≃ Fin w.scheduler.validatorGroups.length,
          ∀ c : Fin w.scheduler.availabilityCores.length,
            groupAssignedToCore w.host w.scheduler c atBlock = .ok (some (σ c))) ∧
        (atBlock + w.host.config.groupRotationFrequency < 2 ^ 32 →
          ∀ c < w.scheduler.availabilityCores.length, ∃ g,
            groupAssignedToCore w.host w.scheduler c atBlock = .ok (some g) ∧
            groupAssignedToCore w.host w.scheduler c
                (atBlock + w.host.config.groupRotationFrequency) =
              .ok (some ((g + 1) % w.scheduler.validatorGroups.length)))) ∧
    (∀ p, ProtocolReachable p w → (w.scheduler.scheduled.map (·.groupIdx)).Nodup) := by
  have hr := hw.runInv
  refine ⟨fun hne hf atBlock hat => ?_, fun _ hp => hp.groups_nodup⟩
  have hn := hr.groups.resolve_left hne
  refine ⟨groupAssignedToCore_bijection hf hat (List.length_pos.mpr hne) hn hr.groups_le,
    fun hu32 c hc => groupAssignedToCore_add_frequency hf hat (hn ▸ hc) hr.groups_le hu32⟩

theorem groups_rotate_bijectively_at_block_two :
    Reachable ⟨testHost, scheduledAtBlockTwo⟩ ∧
    (scheduledAtBlockTwo.validatorGroups ≠ [] → 0 < testHost.config.groupRotationFrequency →
      ∀ atBlock, scheduledAtBlockTwo.sessionStartBlock ≤ atBlock →
        (∃ σ : Fin scheduledAtBlockTwo.availabilityCores.length ≃
            Fin scheduledAtBlockTwo.validatorGroups.length,
          ∀ c : Fin scheduledAtBlockTwo.availabilityCores.length,
            groupAssignedToCore testHost scheduledAtBlockTwo c atBlock = .ok (some (σ c))) ∧
        (atBlock + testHost.config.groupRotationFrequency < 2 ^ 32 →
          ∀ c < scheduledAtBlockTwo.availabilityCores.length, ∃ g,
            groupAssignedToCore testHost scheduledAtBlockTwo c atBlock = .ok (some g) ∧
            groupAssignedToCore testHost scheduledAtBlockTwo c
                (atBlock + testHost.config.groupRotationFrequency) =
              .ok (some ((g + 1) % scheduledAtBlockTwo.validatorGroups.length)))) ∧
    (∀ p, ProtocolReachable p ⟨testHost, scheduledAtBlockTwo⟩ →
      (scheduledAtBlockTwo.scheduled.map (·.groupIdx)).Nodup) :=
  ⟨scheduledAtBlockTwo_reachable.reachable,
    groups_rotate_bijectively scheduledAtBlockTwo_reachable.reachable⟩

/-! ## Fairness over time -/

/-- **Rotation fairness**: with a positive frequency, from any block after the session
start, over as many rotation periods as there are groups, each group serves a core
exactly once. The window's last rotation block is a `u32` block number, as in the tests. -/
theorem groupAssignedToCore_fair {h : Host} {s : Scheduler} {core atBlock : Nat}
    (hf : 0 < h.config.groupRotationFrequency) (hat : s.sessionStartBlock ≤ atBlock)
    (hc : core < s.validatorGroups.length) (hlt : s.validatorGroups.length ≤ 2 ^ 32)
    (hu32 : atBlock + (s.validatorGroups.length - 1) * h.config.groupRotationFrequency < 2 ^ 32) :
    ∃ σ : Fin s.validatorGroups.length ≃ Fin s.validatorGroups.length,
      ∀ m : Fin s.validatorGroups.length,
        groupAssignedToCore h s core (atBlock + m * h.config.groupRotationFrequency) =
          .ok (some (σ m)) := by
  have hne : 0 < s.validatorGroups.length := by omega
  let f : Fin s.validatorGroups.length → Fin s.validatorGroups.length :=
    fun m => ⟨(core + (rotations h s atBlock + m)) % s.validatorGroups.length, Nat.mod_lt _ hne⟩
  have hinj : Function.Injective f := fun a b hab => Fin.ext <|
    (Nat.ModEq.add_left_cancel' (core + rotations h s atBlock) (by
      simpa only [f, Fin.mk.injEq, Nat.add_assoc] using hab)).eq_of_lt_of_lt a.2 b.2
  refine ⟨Equiv.ofBijective f ((Fintype.bijective_iff_injective_and_card f).mpr ⟨hinj, rfl⟩),
    fun m => ?_⟩
  have hm : atBlock + m * h.config.groupRotationFrequency < 2 ^ 32 :=
    lt_of_le_of_lt (Nat.add_le_add_left (Nat.mul_le_mul_right _ (Nat.le_sub_one_of_lt m.2)) _) hu32
  rw [groupAssignedToCore_eq_mod hf (Nat.le_trans hat (Nat.le_add_right _ _)) hc hlt,
    rotations_add_mul hf hat hm]
  rfl

theorem groupAssignedToCore_fair_at_block_two :
    0 < testHost.config.groupRotationFrequency ∧ occupiedAtBlockTwo.sessionStartBlock ≤ 1 ∧
    0 < occupiedAtBlockTwo.validatorGroups.length ∧
    occupiedAtBlockTwo.validatorGroups.length ≤ 2 ^ 32 ∧
    1 + (occupiedAtBlockTwo.validatorGroups.length - 1) * testHost.config.groupRotationFrequency <
      2 ^ 32 ∧
    ∃ σ : Fin occupiedAtBlockTwo.validatorGroups.length ≃ Fin occupiedAtBlockTwo.validatorGroups.length,
      ∀ m : Fin occupiedAtBlockTwo.validatorGroups.length,
        groupAssignedToCore testHost occupiedAtBlockTwo 0
            (1 + m * testHost.config.groupRotationFrequency) = .ok (some (σ m)) :=
  ⟨by decide, by decide, by decide, by decide, by decide,
    groupAssignedToCore_fair (by decide) (by decide) (by decide) (by decide) (by decide)⟩

/-! ## Timeouts and rotations -/

/-- **Timeouts follow rotations**: the availability predicate times out an occupied core
only if its candidate has been pending since before the block of the last group rotation;
and if it was made pending in this session, that was under an earlier rotation. -/
theorem availabilityTimeoutPredicate_before_rotation {h : Host} {s : Scheduler}
    {now since c : Nat} {o : CoreOccupied} {p : Nat → Nat → Bool}
    (hp : availabilityTimeoutPredicate h s now = .ok (some p))
    (hc : s.availabilityCores[c]? = some (some o)) (ht : p c since = true) :
    since + (now - s.sessionStartBlock) % h.config.groupRotationFrequency < now ∧
      (s.sessionStartBlock ≤ since →
        (since - s.sessionStartBlock) / h.config.groupRotationFrequency <
          (now - s.sessionStartBlock) / h.config.groupRotationFrequency) := by
  have hf : 0 < h.config.groupRotationFrequency := Nat.pos_of_ne_zero fun h0 => by
    simp [availabilityTimeoutPredicate, h0, checkedRem, bind, Except.bind] at hp
  -- The predicate fires only below its kind's period after the rotation, and only once the
  -- candidate has waited that period.
  have hlt : since + (now - s.sessionStartBlock) % h.config.groupRotationFrequency < now := by
    simp only [availabilityTimeoutPredicate, checkedRem_of_pos hf, bind, Except.bind, pure,
      Except.pure] at hp
    by_cases hcut : max h.config.chainAvailabilityPeriod h.config.threadAvailabilityPeriod ≤
        (now - s.sessionStartBlock) % h.config.groupRotationFrequency
    · rw [if_pos hcut] at hp; cases hp
    rw [if_neg hcut] at hp
    obtain rfl := Option.some.inj (Except.ok.inj hp)
    simp only [hc] at ht
    rcases o with _ | _ <;> dsimp only at ht <;> split_ifs at ht <;> simp at ht <;> omega
  refine ⟨hlt, fun hst => ?_⟩
  have hdm := Nat.div_add_mod (now - s.sessionStartBlock) h.config.groupRotationFrequency
  rw [Nat.div_lt_iff_lt_mul hf, Nat.mul_comm]
  omega

/-- At block 11, one rotation after the session start of `occupiedAtBlockTwo`, the
predicate times out core 0's indracore candidate pending since block 2. -/
theorem availabilityTimeoutPredicate_before_rotation_at_block_eleven :
    ∃ p, availabilityTimeoutPredicate testHost occupiedAtBlockTwo 11 = .ok (some p) ∧
      occupiedAtBlockTwo.availabilityCores[0]? = some (some .indracore) ∧ p 0 2 = true ∧
      (2 + (11 - occupiedAtBlockTwo.sessionStartBlock) % testHost.config.groupRotationFrequency < 11 ∧
        (occupiedAtBlockTwo.sessionStartBlock ≤ 2 →
          (2 - occupiedAtBlockTwo.sessionStartBlock) / testHost.config.groupRotationFrequency <
            (11 - occupiedAtBlockTwo.sessionStartBlock) / testHost.config.groupRotationFrequency)) :=
  ⟨_, rfl, rfl, rfl, availabilityTimeoutPredicate_before_rotation rfl
    (show occupiedAtBlockTwo.availabilityCores[0]? = some (some .indracore) from rfl) rfl⟩

end SelendraScheduler
