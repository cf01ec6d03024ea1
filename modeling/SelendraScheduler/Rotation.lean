import SelendraScheduler.Storage
import Mathlib.Data.Fintype.Card
import Mathlib.Data.Nat.ModEq

/-!
# SelendraScheduler.Rotation

The rotation clock: `group_assigned_to_core`, which binds validator groups to cores and
shifts the binding by one every `group_rotation_frequency` blocks, the availability
timeout predicate, and the small getters around them.

The main results are about any state whose group count equals its core count (what a
session change leaves behind): at any block after the session start, cores and groups
are in bijection (`groupAssignedToCore_bijection`), and one rotation period later every
core is served by the next group (`groupAssignedToCore_add_frequency`).
-/

namespace SelendraScheduler

/-- `group_validators`. -/
def groupValidators (s : Scheduler) (groupIndex : Nat) : Option (List Nat) :=
  s.validatorGroups[groupIndex]?

/-- `group_assigned_to_core`: `None` before the session start or for a core without a
group; otherwise the core index plus the number of rotations since the session start,
modulo the group count.  A rotation count that does not fit a `u32` counts as `0`. -/
def groupAssignedToCore (h : Host) (s : Scheduler) (core atBlock : Nat) :
    Except Panic (Option Nat) := do
  if atBlock < s.sessionStartBlock then return none
  let validatorGroups := s.validatorGroups
  if validatorGroups.length ≤ core then return none
  let rotations ← checkedDiv (atBlock - s.sessionStartBlock) h.config.groupRotationFrequency
  let rotations := if rotations < 2 ^ 32 then rotations else 0
  return some (asU32 ((core + rotations) % validatorGroups.length))

/-- `group_rotation_info`. -/
def groupRotationInfo (h : Host) (s : Scheduler) (now : Nat) : GroupRotationInfo :=
  ⟨s.sessionStartBlock, now, h.config.groupRotationFrequency⟩

/-- `availability_timeout_predicate`, at the current block `now`: `None` once the
blocks since the last rotation reach the larger availability period; otherwise the
predicate on a core index and the block its candidate has been pending since. -/
def availabilityTimeoutPredicate (h : Host) (s : Scheduler) (now : Nat) :
    Except Panic (Option (Nat → Nat → Bool)) := do
  let config := h.config
  let blocksSinceSessionStart := now - s.sessionStartBlock
  let blocksSinceLastRotation ← checkedRem blocksSinceSessionStart config.groupRotationFrequency
  let absoluteCutoff := max config.chainAvailabilityPeriod config.threadAvailabilityPeriod
  let availabilityCores := s.availabilityCores
  if absoluteCutoff ≤ blocksSinceLastRotation then return none
  return some fun coreIndex pendingSince =>
    match availabilityCores[coreIndex]? with
    | none => true
    | some none => true
    | some (some .indracore) =>
      if config.chainAvailabilityPeriod ≤ blocksSinceLastRotation then false
      else decide (config.chainAvailabilityPeriod ≤ now - pendingSince)
    | some (some (.indrabase _)) =>
      if config.threadAvailabilityPeriod ≤ blocksSinceLastRotation then false
      else decide (config.threadAvailabilityPeriod ≤ now - pendingSince)

/-! ## The rotation law -/

section Rotation

variable {h : Host} {s : Scheduler} {core atBlock : Nat}

/-- The rotations since the session start, as `group_assigned_to_core` counts them. -/
def rotations (h : Host) (s : Scheduler) (atBlock : Nat) : Nat :=
  let r := (atBlock - s.sessionStartBlock) / h.config.groupRotationFrequency
  if r < 2 ^ 32 then r else 0

/-- `group_assigned_to_core` reads only the groups and the session start. -/
theorem groupAssignedToCore_congr {t : Scheduler} (hg : t.validatorGroups = s.validatorGroups)
    (hst : t.sessionStartBlock = s.sessionStartBlock) :
    groupAssignedToCore h t = groupAssignedToCore h s := by
  funext core atBlock; simp only [groupAssignedToCore, hg, hst]

/-- With a positive frequency, at or after the session start and for a core with a
group, `group_assigned_to_core` is the rotated core index. -/
theorem groupAssignedToCore_eq (hf : 0 < h.config.groupRotationFrequency)
    (hat : s.sessionStartBlock ≤ atBlock) (hc : core < s.validatorGroups.length) :
    groupAssignedToCore h s core atBlock =
      .ok (some (asU32 ((core + rotations h s atBlock) % s.validatorGroups.length))) := by
  simp [groupAssignedToCore, rotations, Nat.not_lt.mpr hat, Nat.not_le.mpr hc, hf]

/-- Below `2^32` groups the `u32` cast of the group index is the identity. -/
theorem groupAssignedToCore_eq_mod (hf : 0 < h.config.groupRotationFrequency)
    (hat : s.sessionStartBlock ≤ atBlock) (hc : core < s.validatorGroups.length)
    (hn : s.validatorGroups.length ≤ 2 ^ 32) :
    groupAssignedToCore h s core atBlock =
      .ok (some ((core + rotations h s atBlock) % s.validatorGroups.length)) := by
  rw [groupAssignedToCore_eq hf hat hc, asU32_of_lt]
  exact lt_of_lt_of_le (Nat.mod_lt _ (by omega)) hn

/-- A group is given only with a positive frequency, at or after the session start and to
a core with a group, and it is the rotated core index. -/
theorem groupAssignedToCore_of_some {g : Nat}
    (hg : groupAssignedToCore h s core atBlock = .ok (some g)) :
    0 < h.config.groupRotationFrequency ∧ s.sessionStartBlock ≤ atBlock ∧
      core < s.validatorGroups.length ∧
      g = asU32 ((core + rotations h s atBlock) % s.validatorGroups.length) := by
  have hat : s.sessionStartBlock ≤ atBlock := Nat.le_of_not_lt fun hlt => by
    simp [groupAssignedToCore, hlt, pure, Except.pure] at hg
  have hc : core < s.validatorGroups.length := Nat.lt_of_not_le fun hle => by
    simp [groupAssignedToCore, Nat.not_lt.mpr hat, hle, pure, Except.pure, bind, Except.bind] at hg
  have hf : 0 < h.config.groupRotationFrequency := Nat.pos_of_ne_zero fun h0 => by
    simp [groupAssignedToCore, Nat.not_lt.mpr hat, Nat.not_le.mpr hc, h0, checkedDiv, bind,
      Except.bind, pure, Except.pure] at hg
  rw [groupAssignedToCore_eq hf hat hc] at hg
  exact ⟨hf, hat, hc, (Option.some.inj (Except.ok.inj hg)).symm⟩

/-- At one block, distinct cores are served by distinct groups. -/
theorem groupAssignedToCore_injective {c c' g : Nat} (hn : s.validatorGroups.length ≤ 2 ^ 32)
    (h₁ : groupAssignedToCore h s c atBlock = .ok (some g))
    (h₂ : groupAssignedToCore h s c' atBlock = .ok (some g)) : c = c' := by
  obtain ⟨-, -, hc, rfl⟩ := groupAssignedToCore_of_some h₁
  obtain ⟨-, -, hc', he⟩ := groupAssignedToCore_of_some h₂
  have hlt := fun x => lt_of_lt_of_le (Nat.mod_lt x (by omega : 0 < s.validatorGroups.length)) hn
  rw [asU32_of_lt (hlt _), asU32_of_lt (hlt _)] at he
  exact (Nat.ModEq.add_right_cancel' _ he).eq_of_lt_of_lt hc hc'

/-- At any block after the session start, the cores and the groups are in bijection
when there are as many groups as cores. -/
theorem groupAssignedToCore_bijection (hf : 0 < h.config.groupRotationFrequency)
    (hat : s.sessionStartBlock ≤ atBlock) (hne : 0 < s.validatorGroups.length)
    (hn : s.validatorGroups.length = s.availabilityCores.length)
    (hlt : s.validatorGroups.length ≤ 2 ^ 32) :
    ∃ σ : Fin s.availabilityCores.length ≃ Fin s.validatorGroups.length,
      ∀ c : Fin s.availabilityCores.length,
        groupAssignedToCore h s c atBlock = .ok (some (σ c)) := by
  let r := rotations h s atBlock
  let f : Fin s.availabilityCores.length → Fin s.validatorGroups.length :=
    fun c => ⟨(c + r) % s.validatorGroups.length, Nat.mod_lt _ hne⟩
  have hinj : Function.Injective f := fun a b hab => Fin.ext <|
    (Nat.ModEq.add_right_cancel' r (congrArg Fin.val hab)).eq_of_lt_of_lt
      (by rw [hn]; exact a.2) (by rw [hn]; exact b.2)
  refine ⟨Equiv.ofBijective f ((Fintype.bijective_iff_injective_and_card f).mpr
    ⟨hinj, by simp [hn]⟩), fun c => ?_⟩
  have hc := c.2
  exact groupAssignedToCore_eq_mod hf hat (by omega) hlt

/-- One rotation period later every core is served by the next group.  Both blocks are
`u32` block numbers, as in the tests. -/
theorem groupAssignedToCore_add_frequency (hf : 0 < h.config.groupRotationFrequency)
    (hat : s.sessionStartBlock ≤ atBlock) (hc : core < s.validatorGroups.length)
    (hlt : s.validatorGroups.length ≤ 2 ^ 32)
    (hu32 : atBlock + h.config.groupRotationFrequency < 2 ^ 32) :
    ∃ g, groupAssignedToCore h s core atBlock = .ok (some g) ∧
      groupAssignedToCore h s core (atBlock + h.config.groupRotationFrequency) =
        .ok (some ((g + 1) % s.validatorGroups.length)) := by
  have hq1 : (atBlock + h.config.groupRotationFrequency - s.sessionStartBlock) /
      h.config.groupRotationFrequency =
        (atBlock - s.sessionStartBlock) / h.config.groupRotationFrequency + 1 := by
    rw [show atBlock + h.config.groupRotationFrequency - s.sessionStartBlock =
      atBlock - s.sessionStartBlock + h.config.groupRotationFrequency by omega,
      Nat.add_div_right _ hf]
  have hr : rotations h s atBlock =
      (atBlock - s.sessionStartBlock) / h.config.groupRotationFrequency :=
    if_pos (lt_of_le_of_lt (Nat.div_le_self _ _) (by omega))
  have hr1 : rotations h s (atBlock + h.config.groupRotationFrequency) =
      rotations h s atBlock + 1 := by
    rw [hr, rotations, hq1, if_pos (hq1 ▸ lt_of_le_of_lt (Nat.div_le_self _ _) (by omega))]
  refine ⟨_, groupAssignedToCore_eq_mod hf hat hc hlt, ?_⟩
  rw [groupAssignedToCore_eq_mod hf (by omega) hc hlt, hr1, Nat.mod_add_mod, Nat.add_assoc]

/-- `m` rotation periods later the rotation count has grown by `m`, on `u32` blocks. -/
theorem rotations_add_mul (hf : 0 < h.config.groupRotationFrequency)
    (hat : s.sessionStartBlock ≤ atBlock) {m : Nat}
    (hu32 : atBlock + m * h.config.groupRotationFrequency < 2 ^ 32) :
    rotations h s (atBlock + m * h.config.groupRotationFrequency) = rotations h s atBlock + m := by
  have hq : (atBlock + m * h.config.groupRotationFrequency - s.sessionStartBlock) /
      h.config.groupRotationFrequency =
        (atBlock - s.sessionStartBlock) / h.config.groupRotationFrequency + m := by
    rw [Nat.sub_add_comm hat, Nat.add_mul_div_right _ _ hf]
  have hlt : ∀ x, x ≤ atBlock + m * h.config.groupRotationFrequency →
      x / h.config.groupRotationFrequency < 2 ^ 32 := fun x hx =>
    lt_of_le_of_lt (Nat.div_le_self _ _) (by omega)
  unfold rotations
  rw [hq, if_pos (hq ▸ hlt _ (Nat.sub_le _ _)), if_pos (hlt _ (by omega))]

end Rotation

end SelendraScheduler
