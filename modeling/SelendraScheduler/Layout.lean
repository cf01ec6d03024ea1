import SelendraScheduler.Safety

/-!
# SelendraScheduler.Layout

The core layout: the first `n_indracores` cores are bound to the indracores, in the order
of the registry, and the others are indrabase multiplexers.  `schedule` lays assignments
out so (`MadeFor.inLayout`), `occupied` installs them where they were scheduled
(`AssignmentInLayout.occupant`), and `free_cores` and a session change only empty cores.

A protocol run keeps `LayoutInv`: every occupant sits on a core of its kind, and, but right
after a session change (which may change the registry under a stale `Scheduled`), so does
every scheduled assignment.  So `core_indra` never indexes the indracore list past its end
(`coreIndra_ok`), and after `occupied` it names on each occupied core the indra that was
scheduled there (`coreIndra_of_installed`).
-/

namespace SelendraScheduler

/-- An assignment on a core of its kind: an indracore assignment on the core of its
indracore, an indrabase assignment on a multiplexer core. -/
def AssignmentInLayout (h : Host) (a : CoreAssignment) : Prop :=
  match a.kind with
  | .indracore => h.indras.indracores[a.core]? = some a.indraId
  | .indrabase _ _ => h.indras.indracores.length ≤ a.core

/-- An occupant on a core of its kind. -/
def OccupantInLayout (h : Host) (core : Nat) : CoreOccupied → Prop
  | .indracore => core < h.indras.indracores.length
  | .indrabase _ => h.indras.indracores.length ≤ core

/-- An assignment installed where it was scheduled is an occupant on a core of its kind. -/
theorem AssignmentInLayout.occupant {h : Host} {a : CoreAssignment}
    (ha : AssignmentInLayout h a) : OccupantInLayout h a.core a.toCoreOccupied := by
  unfold AssignmentInLayout at ha
  unfold CoreAssignment.toCoreOccupied
  split at ha <;> rename_i hk <;> simp only [hk, OccupantInLayout]
  · exact (List.getElem?_eq_some_iff.mp ha).1
  · exact ha

/-- `schedule` lays its assignments out by the core index. -/
theorem MadeFor.inLayout {h : Host} {s : Scheduler} {now c : Nat} {a : CoreAssignment}
    (hm : MadeFor h s now c a) (hc : a.core = c) : AssignmentInLayout h a := by
  unfold AssignmentInLayout
  subst hc
  rcases hk : a.kind with _ | ⟨collator, retries⟩
  · exact (hm.indracore (Nat.lt_of_not_le fun hle => hm.indrabase hle hk)).2
  · exact Nat.le_of_not_lt fun hlt => by simpa [hk] using (hm.indracore hlt).1

section CoreIndra

variable {h : Host} {s : Scheduler}

/-- With every occupant on a core of its kind, `core_indra` does not panic. -/
theorem coreIndra_ok
    (hocc : ∀ c o, s.availabilityCores[c]? = some (some o) → OccupantInLayout h c o)
    (c : Nat) : ∃ r, coreIndra h s c = .ok r := by
  unfold coreIndra
  rcases hc : s.availabilityCores[c]? with _ | _ | _ | e
  · exact ⟨_, rfl⟩
  · exact ⟨_, rfl⟩
  · have hlt : c < h.indras.indracores.length := hocc c _ hc
    exact ⟨_, by rw [List.getElem?_eq_getElem hlt]⟩
  · exact ⟨_, rfl⟩

/-- An installed assignment laid out by its core is named by `core_indra`. -/
theorem coreIndra_of_installed {a : CoreAssignment} (ha : AssignmentInLayout h a)
    (hc : s.availabilityCores[a.core]? = some (some a.toCoreOccupied)) :
    coreIndra h s a.core = .ok (some a.indraId) := by
  unfold AssignmentInLayout at ha
  unfold CoreAssignment.toCoreOccupied at hc
  rw [coreIndra, hc]
  split at ha <;> rename_i hk <;> simp only [hk]
  rw [ha]

end CoreIndra

/-- What a protocol run keeps of the core layout. -/
structure LayoutInv (p : Phase) (h : Host) (s : Scheduler) : Prop where
  /-- But right after a session change, every scheduled assignment is laid out, -/
  scheduled : p ≠ .sessionChanged → ∀ a ∈ s.scheduled, AssignmentInLayout h a
  /-- and every occupant always is. -/
  occupants : ∀ c o, s.availabilityCores[c]? = some (some o) → OccupantInLayout h c o

namespace LayoutInv

variable {p : Phase} {h : Host} {s s' : Scheduler}

theorem empty (h : Host) : LayoutInv .blockEnd h .empty :=
  ⟨fun _ _ ha => absurd ha (List.not_mem_nil _), fun _ _ hc => by simp [Scheduler.empty] at hc⟩

theorem session (n : SessionChangeNotification) (indras : Indras) (b : Nat) :
    LayoutInv .sessionChanged ⟨n.newConfig, indras⟩ (initializerOnNewSession n indras b s) :=
  ⟨fun h => absurd rfl h, fun c o hc => (initializerOnNewSession_core_empty n indras b s c o hc).elim⟩

theorem addClaim (hl : LayoutInv p h s) (hr : RunInv s) {claim : IndrabaseClaim}
    (hok : addIndrabaseClaim h claim s = .ok s') : LayoutInv p h s' := by
  rcases addIndrabaseClaim_ok hr.index hok with rfl | ⟨-, -, -, -, index, -, -, rfl⟩
  · exact hl
  · exact ⟨hl.scheduled, hl.occupants⟩

theorem freeCore (hl : LayoutInv p h s) {x : Nat × FreedReason}
    (hok : SelendraScheduler.freeCore h s x = .ok s') : LayoutInv p h s' := by
  obtain ⟨i, r⟩ := x
  obtain ⟨index, queue, rfl, -⟩ := freeCore_ok hok
  exact ⟨hl.scheduled, fun c o hc => hl.occupants c o (getElem?_set_none hc)⟩

theorem freeCores (hl : LayoutInv p h s) {freed : List (Nat × FreedReason)}
    (hok : SelendraScheduler.freeCores h freed s = .ok s') : LayoutInv p h s' :=
  freeCores_induction (LayoutInv p h) (fun _ _ _ ht hstep => ht.freeCore hstep) hl hok

theorem schedule (hl : LayoutInv .cleared h s) (hr : RunInv s) {freed : List (Nat × FreedReason)}
    {now : Nat} (hok : SelendraScheduler.schedule h freed now s = .ok s') :
    LayoutInv .scheduled h s' := by
  obtain ⟨s₁, new, scheduled, queue, h₁, rfl, -, hperm, hnew, -, -⟩ :=
    schedule_ok hr.sorted (Nat.le_of_lt hr.coresLt) hok
  have hl₁ := hl.freeCores h₁
  refine ⟨fun _ a ha => ?_, hl₁.occupants⟩
  rcases List.mem_append.mp (hperm.subset ha) with ha | ha
  · exact hl₁.scheduled nofun a ha
  · obtain ⟨c, -, -, hm, hc⟩ := hnew a ha
    exact hm.inLayout hc

theorem occupied (hl : LayoutInv .scheduled h s) {o : List Nat}
    (hok : SelendraScheduler.occupied o s = .ok s') : LayoutInv .blockEnd h s' := by
  obtain ⟨kept, removed, rfl, hsub, hperm, -⟩ := occupied_ok hok
  have hsched := hl.scheduled nofun
  refine ⟨fun _ a ha => hsched a (hsub.subset ha), fun c x hx => ?_⟩
  rcases getElem?_foldl_occupy removed _ hx with hx | ⟨a, ha, rfl, rfl⟩
  · exact hl.occupants c x hx
  · exact (hsched a (hperm.subset (List.mem_append_right _ ha))).occupant

theorem clear (hl : LayoutInv p h s) (hok : SelendraScheduler.clear h s = .ok s') :
    LayoutInv .cleared h s' := by
  obtain ⟨queue, rfl, -⟩ := clear_ok hok
  exact ⟨fun _ a ha => absurd ha (List.not_mem_nil a), hl.occupants⟩

end LayoutInv

theorem ProtocolReachable.layoutInv {p : Phase} {w : Chain} (hw : ProtocolReachable p w) :
    LayoutInv p w.host w.scheduler := by
  induction hw with
  | init host => exact LayoutInv.empty host
  | step c hw hnext _ _ happ ih =>
    have hr := hw.reachable.runInv
    rcases Phase.next_cases hnext with ⟨claim, rfl, rfl⟩ | ⟨n, i, b, rfl, rfl, rfl⟩ |
        ⟨rfl, -, rfl⟩ | ⟨freed, now, rfl, rfl, rfl⟩ | ⟨o, rfl, rfl, rfl⟩
    · obtain ⟨s', hok, rfl⟩ := map_eq_ok.mp happ; exact ih.addClaim hr hok
    · cases happ; exact LayoutInv.session n i b
    · obtain ⟨s', hok, rfl⟩ := map_eq_ok.mp happ; exact ih.clear hok
    · obtain ⟨s', hok, rfl⟩ := map_eq_ok.mp happ; exact ih.schedule hr hok
    · obtain ⟨s', hok, rfl⟩ := map_eq_ok.mp happ; exact ih.occupied hok

/-- `occupied` on its caller contract installs every assignment on a given core, in
bounds, so that `core_indra` names its indra there. -/
theorem coreIndra_occupied {h : Host} {s s' : Scheduler} {o : List Nat}
    (hl : LayoutInv .scheduled h s) (hr : RunInv s) (ho : (Call.occupied o).Admissible s)
    (hok : occupied o s = .ok s') :
    ∀ a ∈ s.scheduled, a.core ∈ o → coreIndra h s' a.core = .ok (some a.indraId) := by
  have hkept := occupied_kept ho.1 hr.sorted ho.2 hok
  obtain ⟨kept, removed, rfl, -, hperm, hbound⟩ := occupied_ok hok
  intro a ha hao
  have har : a ∈ removed :=
    (List.mem_append.mp (hperm.symm.subset ha)).resolve_left fun hk => hkept a hk hao
  have hnd := (hperm.map (·.core)).nodup_iff.mpr hr.sorted.nodup_cores
  rw [List.map_append] at hnd
  exact coreIndra_of_installed (hl.scheduled nofun a ha)
    (getElem?_foldl_occupy_of_mem removed _ (List.nodup_append.mp hnd).2.1 har (hbound a har).2)

/-- In every protocol run: after the block's `clear` (but right after a session change),
every indracore assignment in `Scheduled` is on the core of its indracore and every
indrabase assignment on a multiplexer core; every occupant is on a core of its kind; so
`core_indra` never panics; and after `schedule`, `occupied` on its caller contract
succeeds and `core_indra` names on each occupied core the indra scheduled there. -/
theorem core_layout_and_core_indra {p : Phase} {w : Chain} (hw : ProtocolReachable p w) :
    (p ≠ .sessionChanged → ∀ a ∈ w.scheduler.scheduled, AssignmentInLayout w.host a) ∧
    (∀ c o, w.scheduler.availabilityCores[c]? = some (some o) → OccupantInLayout w.host c o) ∧
    (∀ c, ∃ r, coreIndra w.host w.scheduler c = .ok r) ∧
    (p = .scheduled → ∀ o, (Call.occupied o).Admissible w.scheduler →
      ∃ s', occupied o w.scheduler = .ok s' ∧
        ∀ a ∈ w.scheduler.scheduled, a.core ∈ o →
          coreIndra w.host s' a.core = .ok (some a.indraId)) := by
  have hl := hw.layoutInv
  refine ⟨hl.scheduled, hl.occupants, coreIndra_ok hl.occupants, fun hp o ho => ?_⟩
  subst hp
  obtain ⟨s', hok⟩ := hw.occupied_succeeds o
  exact ⟨s', hok, coreIndra_occupied hl hw.reachable.runInv ho hok⟩

theorem core_layout_and_core_indra_at_block_two :
    ProtocolReachable .scheduled ⟨testHost, scheduledAtBlockTwo⟩ ∧
      (Phase.scheduled ≠ .sessionChanged →
        ∀ a ∈ scheduledAtBlockTwo.scheduled, AssignmentInLayout testHost a) ∧
      (∀ c o, scheduledAtBlockTwo.availabilityCores[c]? = some (some o) →
        OccupantInLayout testHost c o) ∧
      (∀ c, ∃ r, coreIndra testHost scheduledAtBlockTwo c = .ok r) ∧
      (Phase.scheduled = .scheduled → ∀ o, (Call.occupied o).Admissible scheduledAtBlockTwo →
        ∃ s', occupied o scheduledAtBlockTwo = .ok s' ∧
          ∀ a ∈ scheduledAtBlockTwo.scheduled, a.core ∈ o →
            coreIndra testHost s' a.core = .ok (some a.indraId)) :=
  ⟨scheduledAtBlockTwo_reachable, core_layout_and_core_indra scheduledAtBlockTwo_reachable⟩

end SelendraScheduler
