import SelendraScheduler.Merge

/-!
# SelendraScheduler.ScheduleSpec

One specification lemma per step of `free_cores` and `schedule`, so that the run
invariants never unfold them:

* `assignCore` is `assignCoreWith` at the group `group_assigned_to_core` gives;
* the sweep with its cursor over a sorted `Scheduled` is `sweepSpec`, the same loop
  without the cursor (`scheduleSweep_eq_sweepSpec`), whose updates are in core order,
  on cores `Scheduled` does not hold, at their sorted positions, and whose taken entries
  are exactly the claims of the new indrabase assignments;
* `schedule` is `free_cores`, then a sorted merge (`schedule_ok`).
-/

namespace SelendraScheduler

/-- The indrabase entry an assignment carries back into the queue or a core. -/
def CoreAssignment.indrabaseEntry? (a : CoreAssignment) : Option IndrabaseEntry :=
  match a.kind with
  | .indracore => none
  | .indrabase collator retries => some ⟨⟨a.indraId, collator⟩, retries⟩

/-! ## One core -/

/-- What `assignCore` returns once the core's group is known to be `g`. -/
def assignCoreWith (h : Host) (c g : Nat) (q : IndrabaseClaimQueue) :
    IndrabaseClaimQueue × Option CoreAssignment :=
  if hc : c < h.indras.indracores.length then
    (q, some ⟨asU32 c, h.indras.indracores[c], .indracore, g⟩)
  else
    let t := q.takeNextOnCore (asU32 (c - h.indras.indracores.length))
    (t.1, t.2.map fun e => ⟨asU32 c, e.claim.indraId, .indrabase e.claim.collator e.retries, g⟩)

section AssignCore

variable {h : Host} {s : Scheduler} {now c : Nat} {q : IndrabaseClaimQueue}

theorem assignCore_eq_of_group {g : Nat}
    (hg : groupAssignedToCore h s (asU32 c) now = .ok (some g)) :
    assignCore h s now c q = .ok (assignCoreWith h c g q) := by
  by_cases hc : c < h.indras.indracores.length
  · simp [assignCore, assignCoreWith, hc, hg, expect, bind, Except.bind, pure, Except.pure]
  · simp only [assignCore, assignCoreWith, hc, dite_false]
    cases q.takeNextOnCore (asU32 (c - h.indras.indracores.length)) with
    | mk q' e => cases e <;> simp [hg, expect, bind, Except.bind, pure, Except.pure]

/-- The group behind a successful `expect`. -/
private theorem group_of_expect {c' g : Nat}
    (hg : (groupAssignedToCore h s c' now >>= (expect · groupExpectMsg)) = .ok g) :
    groupAssignedToCore h s c' now = .ok (some g) := by
  obtain ⟨o, ho, he⟩ := bind_eq_ok.mp hg
  cases o with
  | none => cases he
  | some g' => cases he; exact ho

/-- A successful `assignCore` is `assignCoreWith` at some group, which is the core's
group whenever an assignment is made. -/
theorem assignCore_ok {r : IndrabaseClaimQueue × Option CoreAssignment}
    (hr : assignCore h s now c q = .ok r) :
    ∃ g, r = assignCoreWith h c g q ∧
      (r.2 = none ∨ groupAssignedToCore h s (asU32 c) now = .ok (some g)) := by
  by_cases hc : c < h.indras.indracores.length
  · simp only [assignCore, hc, dite_true] at hr
    obtain ⟨g, hg, hr⟩ := bind_eq_ok.mp hr
    cases hr
    exact ⟨g, by simp [assignCoreWith, hc], .inr (group_of_expect hg)⟩
  · simp only [assignCore, hc, dite_false] at hr
    rcases ht : q.takeNextOnCore (asU32 (c - h.indras.indracores.length)) with ⟨q', _ | e⟩ <;>
      rw [ht] at hr
    · cases hr; exact ⟨0, by simp [assignCoreWith, hc, ht], .inl rfl⟩
    · obtain ⟨g, hg, hr⟩ := bind_eq_ok.mp hr
      cases hr
      exact ⟨g, by simp [assignCoreWith, hc, ht], .inr (group_of_expect hg)⟩

/-- A multiplexer core with nothing queued on its offset gets nothing, and no group is
asked for. -/
theorem assignCore_of_none (hc : h.indras.indracores.length ≤ c)
    (hq : q.getNextOnCore (asU32 (c - h.indras.indracores.length)) = none) :
    assignCore h s now c q = .ok (q, none) := by
  have ht : (q.takeNextOnCore (asU32 (c - h.indras.indracores.length))).2 = none := by
    rw [IndrabaseClaimQueue.takeNextOnCore_snd, hq]
  simp only [assignCore, dif_neg (Nat.not_lt.mpr hc),
    show q.takeNextOnCore _ = (q, none) from Prod.ext (IndrabaseClaimQueue.takeNextOnCore_of_none ht) ht]

end AssignCore

/-- An assignment `schedule` makes for core `c`: on the core, with the core's group, the
core's indracore on an indracore core, and an indrabase on a multiplexer core. -/
structure MadeFor (h : Host) (s : Scheduler) (now c : Nat) (a : CoreAssignment) : Prop where
  core : a.core = asU32 c
  group : groupAssignedToCore h s (asU32 c) now = .ok (some a.groupIdx)
  indracore : c < h.indras.indracores.length →
    a.kind = .indracore ∧ h.indras.indracores[c]? = some a.indraId
  indrabase : h.indras.indracores.length ≤ c → a.kind ≠ .indracore

section AssignCoreWith

variable {h : Host} {s : Scheduler} {now c g : Nat} {q : IndrabaseClaimQueue}

theorem assignCoreWith_madeFor {a : CoreAssignment}
    (hg : groupAssignedToCore h s (asU32 c) now = .ok (some g))
    (ha : a ∈ (assignCoreWith h c g q).2) : MadeFor h s now c a := by
  unfold assignCoreWith at ha
  split at ha
  · rename_i hc
    cases Option.mem_def.mp ha
    exact ⟨rfl, hg, fun _ => ⟨rfl, by simp [hc]⟩, fun h' => absurd hc (by omega)⟩
  · rename_i hc
    obtain ⟨e, -, rfl⟩ := Option.mem_map.mp ha
    exact ⟨rfl, hg, fun h' => absurd h' hc, fun _ => nofun⟩

theorem core_of_mem_assignCoreWith {a : CoreAssignment} (ha : a ∈ (assignCoreWith h c g q).2) :
    a.core = asU32 c := by
  unfold assignCoreWith at ha
  split at ha
  · cases Option.mem_def.mp ha; rfl
  · obtain ⟨e, -, rfl⟩ := Option.mem_map.mp ha; rfl

/-- Assigning another core first leaves what a core gets unchanged: the other core takes
on its own offset. -/
theorem assignCoreWith_snd_of_ne {c' g' : Nat} (hne : c' ≠ c) (hc : c < 2 ^ 32)
    (hc' : c' < 2 ^ 32) :
    (assignCoreWith h c g (assignCoreWith h c' g' q).1).2 = (assignCoreWith h c g q).2 := by
  by_cases hlt : c < h.indras.indracores.length
  · simp [assignCoreWith, hlt]
  by_cases hlt' : c' < h.indras.indracores.length
  · simp [assignCoreWith, hlt']
  simp only [assignCoreWith, hlt, hlt', dite_false, IndrabaseClaimQueue.takeNextOnCore_snd]
  rw [IndrabaseClaimQueue.getNextOnCore_takeNextOnCore_of_ne]
  rw [asU32_of_lt (by omega), asU32_of_lt (by omega)]
  omega

@[simp] theorem assignCoreWith_nextCoreOffset :
    (assignCoreWith h c g q).1.nextCoreOffset = q.nextCoreOffset := by
  unfold assignCoreWith; split <;> simp

theorem assignCoreWith_fst_sublist : List.Sublist (assignCoreWith h c g q).1.queue q.queue := by
  unfold assignCoreWith
  split
  · exact .refl _
  · exact IndrabaseClaimQueue.takeNextOnCore_fst_sublist _ _

/-- No assignment is made exactly on a multiplexer core with nothing queued on its
offset. -/
theorem assignCoreWith_snd_eq_none : (assignCoreWith h c g q).2 = none ↔
    h.indras.indracores.length ≤ c ∧
      q.getNextOnCore (asU32 (c - h.indras.indracores.length)) = none := by
  by_cases hc : c < h.indras.indracores.length
  · simp [assignCoreWith, hc, Nat.not_le.mpr hc]
  · simp [assignCoreWith, hc, Nat.le_of_not_lt hc]

/-- The queue after one core: the first entry on the core's offset is taken off a
multiplexer core's queue. -/
theorem assignCoreWith_fst_queue : (assignCoreWith h c g q).1.queue =
    if h.indras.indracores.length ≤ c then
      q.queue.eraseP (·.coreOffset == asU32 (c - h.indras.indracores.length))
    else q.queue := by
  by_cases hc : c < h.indras.indracores.length
  · simp [assignCoreWith, hc, Nat.not_le.mpr hc]
  · simp [assignCoreWith, hc, Nat.le_of_not_lt hc, IndrabaseClaimQueue.takeNextOnCore_eq]

/-- The entry `assignCore` takes off the queue is the one its assignment carries. -/
theorem assignCoreWith_queue :
    (q.queue.map (·.claim)).Perm ((assignCoreWith h c g q).1.queue.map (·.claim) ++
      ((assignCoreWith h c g q).2.bind CoreAssignment.indrabaseEntry?).toList) := by
  unfold assignCoreWith
  split
  · simp [CoreAssignment.indrabaseEntry?]
  · simp only
    rcases ht : (q.takeNextOnCore (asU32 (c - h.indras.indracores.length))).2 with _ | e
    · simp [IndrabaseClaimQueue.takeNextOnCore_of_none ht]
    · obtain ⟨x, -, hx, -, hp⟩ := IndrabaseClaimQueue.takeNextOnCore_perm ht
      have := hp.map (·.claim)
      simp only [List.map_cons, hx] at this
      simpa [CoreAssignment.indrabaseEntry?, List.perm_append_singleton] using
        this.trans (List.perm_append_singleton _ _).symm

end AssignCoreWith

/-! ## The sweep -/

/-- The sweep without its cursor: each free core that `l` (the old `Scheduled`) does not
hold, in order, gets its assignment, to be inserted at the position of the first entry
of `l` on a larger core. -/
def sweepSpec (h : Host) (s : Scheduler) (now : Nat) (l : List CoreAssignment) :
    IndrabaseClaimQueue → List Nat →
      Except Panic (IndrabaseClaimQueue × List (Nat × CoreAssignment))
  | q, [] => .ok (q, [])
  | q, c :: rest =>
    if c ∈ l.map (·.core) then sweepSpec h s now l q rest
    else do
      let (q, a) ← assignCore h s now c q
      let (q, us) ← sweepSpec h s now l q rest
      return (q, match a with
        | some a => ((l.takeWhile (·.core < c)).length, a) :: us
        | none => us)

/-- On a sorted `Scheduled` and free cores in increasing order, the sweep with its cursor
is the sweep without it. -/
theorem scheduleSweep_eq_sweepSpec {h : Host} {s : Scheduler} {now : Nat}
    {l : List CoreAssignment} (hl : SortedByCore l) :
    ∀ (free : List Nat) (d : Nat) (q : IndrabaseClaimQueue), free.Pairwise (· < ·) →
      (∀ c ∈ free, d ≤ c) →
      scheduleSweep h s now l.length (l.enum.dropWhile fun e => e.2.core < d) q free =
        sweepSpec h s now l q free
  | [], _, _, _, _ => rfl
  | c :: rest, d, q, hfree, hd => by
    have hrest := List.pairwise_cons.mp hfree
    have ih := fun q => @scheduleSweep_eq_sweepSpec h s now l hl rest c q hrest.2
      (fun c' hc' => Nat.le_of_lt (hrest.1 c' hc'))
    have hcur : (l.enum.dropWhile fun e => e.2.core < d).dropWhile (fun e => e.2.core < c) =
        l.enum.dropWhile fun e => e.2.core < c :=
      dropWhile_dropWhile_of_imp _ (fun e he => by
        have := hd c (List.mem_cons_self _ _); simp at he ⊢; omega) _
    by_cases hc : c ∈ l.map (·.core)
    · simp only [scheduleSweep, sweepSpec, hcur, insertPosition_eq hl, hc, if_true, ih]
    · simp only [scheduleSweep, sweepSpec, hcur, insertPosition_eq hl, hc, if_false]
      rcases assignCore h s now c q with _ | ⟨q₁, _ | a⟩ <;> simp only [bind, Except.bind, ih]
termination_by structural free => free

/-- The unscheduled start of the sweep. -/
theorem enum_dropWhile_zero (l : List CoreAssignment) :
    (l.enum.dropWhile fun e => e.2.core < 0) = l.enum := by
  cases l.enum with
  | nil => rfl
  | cons x xs => simp [List.dropWhile_cons]

section Sweep

variable {h : Host} {s : Scheduler} {now : Nat} {l : List CoreAssignment}

/-- What the cursor-free sweep returns: updates on the free cores `l` does not hold, in
core order, at their sorted positions, each made for its core; the entries taken off
the queue are the claims of the new indrabase assignments. -/
theorem sweepSpec_spec : ∀ {free : List Nat} {q q' : IndrabaseClaimQueue}
    {us : List (Nat × CoreAssignment)}, sweepSpec h s now l q free = .ok (q', us) →
    List.Sublist (us.map (·.2.core)) (free.map asU32) ∧
    (∀ u ∈ us, ∃ c ∈ free, c ∉ l.map (·.core) ∧ u.1 = (l.takeWhile (·.core < c)).length ∧
      MadeFor h s now c u.2) ∧
    (q.queue.map (·.claim)).Perm
      (q'.queue.map (·.claim) ++ (us.map (·.2)).filterMap CoreAssignment.indrabaseEntry?) ∧
    q'.nextCoreOffset = q.nextCoreOffset
  | [], q, q', us, hr => by
    cases hr; exact ⟨by simp, by simp, by simp, rfl⟩
  | c :: rest, q, q', us, hr => by
    unfold sweepSpec at hr
    split at hr
    · obtain ⟨h1, h2, h3, h4⟩ := sweepSpec_spec hr
      exact ⟨h1.cons _, fun u hu => by
        obtain ⟨c', hc', h⟩ := h2 u hu; exact ⟨c', List.mem_cons_of_mem _ hc', h⟩, h3, h4⟩
    · rename_i hc
      obtain ⟨⟨q₁, a⟩, ha, hr⟩ := bind_eq_ok.mp hr
      obtain ⟨⟨q₂, us₂⟩, hrest, hr⟩ := bind_eq_ok.mp hr
      cases hr
      obtain ⟨g, hga, hg⟩ := assignCore_ok ha
      obtain ⟨h1, h2, h3, h4⟩ := sweepSpec_spec hrest
      have hq₁ := hga ▸ assignCoreWith_queue (h := h) (c := c) (g := g) (q := q)
      have hn₁ := hga ▸ assignCoreWith_nextCoreOffset (h := h) (c := c) (g := g) (q := q)
      simp only at hq₁ hn₁
      have hcons : ∀ u ∈ us₂, ∃ c' ∈ c :: rest, c' ∉ l.map (·.core) ∧
          u.1 = (l.takeWhile (·.core < c')).length ∧ MadeFor h s now c' u.2 := fun u hu => by
        obtain ⟨c', hc', h⟩ := h2 u hu; exact ⟨c', List.mem_cons_of_mem _ hc', h⟩
      cases a with
      | none => exact ⟨h1.cons _, hcons, hq₁.trans (by simpa using h3), h4.trans hn₁⟩
      | some a =>
        have hmem : a ∈ (assignCoreWith h c g q).2 := by rw [← hga]; rfl
        have hmade := assignCoreWith_madeFor (hg.resolve_left (Option.some_ne_none a)) hmem
        refine ⟨by simpa [hmade.core] using h1.cons₂ (asU32 c), fun u hu => ?_, ?_, h4.trans hn₁⟩
        · rcases List.mem_cons.mp hu with rfl | hu
          · exact ⟨c, List.mem_cons_self _ _, hc, rfl, hmade⟩
          · exact hcons u hu
        · refine hq₁.trans ((h3.append_right _).trans ?_)
          rcases he : a.indrabaseEntry? with _ | e
          · simp [he]
          · simpa [he] using (List.perm_append_singleton e _).append_left _
termination_by structural free => free

/-- The sweep only takes entries off the queue. -/
theorem sweepSpec_queue_sublist : ∀ {free : List Nat} {q q' : IndrabaseClaimQueue}
    {us : List (Nat × CoreAssignment)}, sweepSpec h s now l q free = .ok (q', us) →
    List.Sublist q'.queue q.queue
  | [], q, q', us, hr => by cases hr; exact .refl _
  | c :: rest, q, q', us, hr => by
    unfold sweepSpec at hr
    split at hr
    · exact sweepSpec_queue_sublist hr
    obtain ⟨⟨q₁, a⟩, ha, hr⟩ := bind_eq_ok.mp hr
    obtain ⟨⟨q₂, us₂⟩, hrest, hr⟩ := bind_eq_ok.mp hr
    cases hr
    obtain ⟨g, hga, -⟩ := assignCore_ok ha
    have h₁ : List.Sublist q₁.queue q.queue := by
      rw [show q₁ = (assignCoreWith h c g q).1 from congrArg Prod.fst hga]
      exact assignCoreWith_fst_sublist
    exact (sweepSpec_queue_sublist hrest).trans h₁
termination_by structural free => free

/-- A sweep over cores that `l` holds already, or that are multiplexer cores with nothing
queued on their offsets, changes nothing. -/
theorem sweepSpec_idle : ∀ {free : List Nat} {q : IndrabaseClaimQueue},
    (∀ c ∈ free, c ∉ l.map (·.core) → h.indras.indracores.length ≤ c ∧
      q.getNextOnCore (asU32 (c - h.indras.indracores.length)) = none) →
    sweepSpec h s now l q free = .ok (q, [])
  | [], _, _ => rfl
  | c :: rest, q, hidle => by
    have hrest : sweepSpec h s now l q rest = .ok (q, []) :=
      sweepSpec_idle fun c' hc' => hidle c' (List.mem_cons_of_mem _ hc')
    unfold sweepSpec
    split
    · exact hrest
    · rename_i hc
      obtain ⟨hn, hq⟩ := hidle c (List.mem_cons_self _ _) hc
      simp only [assignCore_of_none hn hq, bind, Except.bind, hrest]
      rfl
termination_by structural free => free

/-- What the sweep puts on a free core that `l` does not hold is what `assignCoreWith`
gives on the queue the sweep starts from: the cores swept before it take on other
offsets. -/
theorem sweepSpec_find {c : Nat} : ∀ {free : List Nat} {q q' : IndrabaseClaimQueue}
    {us : List (Nat × CoreAssignment)}, free.Pairwise (· < ·) → (∀ c' ∈ free, c' < 2 ^ 32) →
    sweepSpec h s now l q free = .ok (q', us) → c ∈ free → c ∉ l.map (·.core) →
    ∃ g, (us.map (·.2)).find? (·.core == c) = (assignCoreWith h c g q).2
  | [], _, _, _, _, _, _, hc, _ => absurd hc (List.not_mem_nil _)
  | c₀ :: rest, q, q', us, hfree, hlt, hr, hc, hcl => by
    have hrest := List.pairwise_cons.mp hfree
    have hlt' := fun c' hc' => hlt c' (List.mem_cons_of_mem _ hc')
    unfold sweepSpec at hr
    split at hr
    · rename_i hc₀
      exact sweepSpec_find hrest.2 hlt' hr
        ((List.mem_cons.mp hc).resolve_left fun he => hcl (he ▸ hc₀)) hcl
    obtain ⟨⟨q₁, a⟩, ha, hr⟩ := bind_eq_ok.mp hr
    obtain ⟨⟨q₂, us₂⟩, hsw, hr⟩ := bind_eq_ok.mp hr
    cases hr
    obtain ⟨g₀, hga, -⟩ := assignCore_ok ha
    have hcore : ∀ x ∈ a, x.core = c₀ := fun x hx => by
      rw [core_of_mem_assignCoreWith (hga ▸ hx : x ∈ (assignCoreWith h c₀ g₀ q).2),
        asU32_of_lt (hlt c₀ (List.mem_cons_self _ _))]
    rcases List.mem_cons.mp hc with rfl | hc
    · -- The core is swept now; every later update is on a larger core.
      have hnone : (us₂.map (·.2)).find? (·.core == c) = none := by
        refine List.find?_eq_none.mpr fun x hx => ?_
        obtain ⟨u, hu, rfl⟩ := List.mem_map.mp hx
        obtain ⟨c', hc', -, -, hm⟩ := (sweepSpec_spec hsw).2.1 u hu
        rw [hm.core, asU32_of_lt (hlt' c' hc')]
        simpa using Nat.ne_of_gt (hrest.1 c' hc')
      refine ⟨g₀, ?_⟩
      rw [← show a = (assignCoreWith h c g₀ q).2 from congrArg Prod.snd hga]
      cases a with
      | none => exact hnone
      | some a => simp [hcore a rfl]
    · obtain ⟨g, hfind⟩ := sweepSpec_find hrest.2 hlt' hsw hc hcl
      have hne : c₀ ≠ c := Nat.ne_of_lt (hrest.1 c hc)
      rw [show q₁ = (assignCoreWith h c₀ g₀ q).1 from congrArg Prod.fst hga,
        assignCoreWith_snd_of_ne hne (hlt' c hc) (hlt c₀ (List.mem_cons_self _ _))] at hfind
      refine ⟨g, ?_⟩
      rw [← hfind]
      cases a with
      | none => rfl
      | some a => simp [hcore a rfl, hne]
termination_by structural free => free

end Sweep

/-! ## `free_cores` -/

section FreeCores

variable {h : Host}

/-- `free_cores` on one core: the core is emptied; a concluded indrabase occupant leaves
the claim index, a timed-out one goes back into the queue. -/
theorem freeCore_ok {s s' : Scheduler} {i : Nat} {r : FreedReason}
    (hf : freeCore h s (i, r) = .ok s') :
    ∃ index queue, s' =
      { s with availabilityCores := s.availabilityCores.set i none, indrabaseClaimIndex := index,
               indrabaseQueue := queue } ∧
    match s.availabilityCores[i]? with
    | some (some (.indrabase e)) =>
      (r = .concluded ∧ index = removeFromIndex s.indrabaseClaimIndex e.claim.indraId ∧
        queue = s.indrabaseQueue) ∨
      (r = .timedOut ∧ index = s.indrabaseClaimIndex ∧
        s.indrabaseQueue.enqueueEntry e h.config.indrabaseCores = .ok queue)
    | _ => index = s.indrabaseClaimIndex ∧ queue = s.indrabaseQueue := by
  unfold freeCore at hf
  rcases hi : s.availabilityCores[i]? with _ | _ | _ | e <;> simp only [hi] at hf ⊢
  · cases hf; simp [List.set_eq_of_length_le (List.getElem?_eq_none_iff.mp hi)]
  · cases hf
    have : s.availabilityCores.set i none = s.availabilityCores :=
      List.ext_getElem? fun j => by
        by_cases hij : i = j
        · subst hij; simp [List.getElem?_set, hi, (List.getElem?_eq_some_iff.mp hi).1]
        · simp [hij]
    simp [this]
  · cases hf; simp
  · cases r with
    | concluded => cases hf; simp
    | timedOut =>
      obtain ⟨q, hq, hf⟩ := bind_eq_ok.mp hf
      cases hf; simp [hq]

/-- Every property kept by `free_cores` on one core is kept by `free_cores`. -/
theorem freeCores_induction (P : Scheduler → Prop)
    (hstep : ∀ s s' x, P s → freeCore h s x = .ok s' → P s') :
    ∀ {l : List (Nat × FreedReason)} {s s' : Scheduler}, P s → freeCores h l s = .ok s' → P s'
  | [], s, s', hs, hf => by cases hf; exact hs
  | x :: l, s, s', hs, hf => by
    obtain ⟨s₁, h₁, hf⟩ := bind_eq_ok.mp hf
    exact freeCores_induction P hstep (hstep s s₁ x hs h₁) hf
termination_by structural l => l

/-- `free_cores` touches only the cores, the queue and the index. -/
theorem freeCores_frame {l : List (Nat × FreedReason)} {s s' : Scheduler}
    (hf : freeCores h l s = .ok s') :
    s'.scheduled = s.scheduled ∧ s'.validatorGroups = s.validatorGroups ∧
      s'.sessionStartBlock = s.sessionStartBlock ∧
      s'.availabilityCores.length = s.availabilityCores.length := by
  refine freeCores_induction (fun t => t.scheduled = s.scheduled ∧
    t.validatorGroups = s.validatorGroups ∧ t.sessionStartBlock = s.sessionStartBlock ∧
    t.availabilityCores.length = s.availabilityCores.length) ?_ ⟨rfl, rfl, rfl, rfl⟩ hf
  rintro t t' ⟨i, r⟩ ht hstep
  obtain ⟨_, _, rfl, -⟩ := freeCore_ok hstep
  simpa using ht

/-- `free_cores` only empties cores. -/
theorem freeCores_isOccupied {l : List (Nat × FreedReason)} {s s' : Scheduler}
    (hf : freeCores h l s = .ok s') (c : Nat) (hc : s'.isOccupied c = true) :
    s.isOccupied c = true := by
  refine freeCores_induction (fun t => t.isOccupied c = true → s.isOccupied c = true) ?_
    id hf hc
  rintro t t' ⟨i, r⟩ ht hstep hc'
  apply ht
  obtain ⟨_, _, rfl, -⟩ := freeCore_ok hstep
  unfold Scheduler.isOccupied at hc' ⊢
  by_cases hic : i = c
  · subst hic; simp [List.getElem?_set] at hc'
  · simpa [List.getElem?_set_ne hic] using hc'

/-- `free_cores` empties exactly the occupied cores it names. -/
theorem freeCores_isOccupied_iff : ∀ {l : List (Nat × FreedReason)} {s s' : Scheduler},
    freeCores h l s = .ok s' → ∀ c,
      (s'.isOccupied c = true ↔ s.isOccupied c = true ∧ c ∉ l.map (·.1))
  | [], s, s', hf, c => by cases hf; simp
  | (i, r) :: l, s, s', hf, c => by
    obtain ⟨s₁, h₁, hf⟩ := bind_eq_ok.mp hf
    obtain ⟨_, _, rfl, -⟩ := freeCore_ok h₁
    rw [freeCores_isOccupied_iff hf c]
    unfold Scheduler.isOccupied
    by_cases hic : i = c
    · subst hic; simp [List.getElem?_set]
    · simp [List.getElem?_set_ne hic, Ne.symm hic]
termination_by structural l => l

/-- Emptying a core adds no occupant. -/
theorem getElem?_set_none {cores : List (Option CoreOccupied)} {i c : Nat} {o : CoreOccupied}
    (hc : (cores.set i none)[c]? = some (some o)) : cores[c]? = some (some o) := by
  by_cases hic : i = c
  · subst hic; simp [List.getElem?_set] at hc
  · rwa [List.getElem?_set_ne hic] at hc

/-- `free_cores` on one core panics only when it re-queues a timed-out claim without
indrabase cores. -/
theorem freeCore_exists {s : Scheduler} (x : Nat × FreedReason)
    (hk : 0 < h.config.indrabaseCores ∨ ∀ (c : Nat) e, s.availabilityCores[c]? ≠ some (some (CoreOccupied.indrabase e))) :
    ∃ s', freeCore h s x = .ok s' := by
  obtain ⟨i, r⟩ := x
  unfold freeCore
  dsimp only
  rcases hi : s.availabilityCores[i]? with _ | _ | _ | e
  · exact ⟨_, rfl⟩
  · exact ⟨_, rfl⟩
  · exact ⟨_, rfl⟩
  · cases r with
    | concluded => exact ⟨_, rfl⟩
    | timedOut =>
      have hk : 0 < h.config.indrabaseCores := hk.resolve_right fun hno => hno i e hi
      exact ⟨_, by simp [IndrabaseClaimQueue.enqueueEntry_of_pos _ _ hk, bind, Except.bind]; rfl⟩

/-- `free_cores` panics only when it re-queues a timed-out claim without indrabase cores. -/
theorem freeCores_exists : ∀ {freed : List (Nat × FreedReason)} {s : Scheduler},
    (0 < h.config.indrabaseCores ∨ ∀ (c : Nat) e, s.availabilityCores[c]? ≠ some (some (CoreOccupied.indrabase e))) →
    ∃ s', freeCores h freed s = .ok s'
  | [], s, _ => ⟨s, rfl⟩
  | x :: rest, s, hk => by
    obtain ⟨s₁, h₁⟩ := freeCore_exists x hk
    have hk₁ : 0 < h.config.indrabaseCores ∨
        ∀ (c : Nat) e, s₁.availabilityCores[c]? ≠ some (some (CoreOccupied.indrabase e)) :=
      hk.imp_right fun hno c e he => by
        obtain ⟨_, _, rfl, -⟩ := freeCore_ok h₁; exact hno c e (getElem?_set_none he)
    obtain ⟨s', h'⟩ : ∃ s', freeCores h rest s₁ = .ok s' := freeCores_exists hk₁
    exact ⟨s', by rw [freeCores, List.foldlM_cons, h₁]; exact h'⟩
termination_by structural freed => freed

end FreeCores

/-! ## `schedule` -/

theorem mem_freeCoreIndices {cores : List (Option CoreOccupied)} {c : Nat} :
    c ∈ freeCoreIndices cores ↔ cores[c]? = some none := by
  simp [freeCoreIndices, List.mem_enum_iff_getElem?]

/-- Every free core is a core index. -/
theorem lt_of_mem_freeCoreIndices {cores : List (Option CoreOccupied)} {c : Nat}
    (hc : c ∈ freeCoreIndices cores) : c < cores.length :=
  (List.getElem?_eq_some_iff.mp (mem_freeCoreIndices.mp hc)).1

theorem freeCoreIndices_sorted (cores : List (Option CoreOccupied)) :
    (freeCoreIndices cores).Pairwise (· < ·) := by
  have : List.Sublist (freeCoreIndices cores) (List.range cores.length) := by
    rw [← List.enum_map_fst]; exact (List.filter_sublist _).map _
  exact (List.pairwise_lt_range _).sublist this

/-- The free cores are the core indices whose core is empty, in increasing order. -/
theorem freeCoreIndices_eq_filter (cores : List (Option CoreOccupied)) :
    freeCoreIndices cores = (List.range cores.length).filter fun c => cores[c]? = some none := by
  have hs := freeCoreIndices_sorted cores
  have hs' := (List.pairwise_lt_range cores.length).filter fun c => cores[c]? = some none
  refine List.eq_of_perm_of_sorted ((List.perm_ext_iff_of_nodup (hs.imp Nat.ne_of_lt)
    (hs'.imp Nat.ne_of_lt)).mpr fun c => ?_) hs hs'
  simp only [mem_freeCoreIndices, List.mem_filter, List.mem_range, decide_eq_true_eq,
    iff_and_self]
  exact fun h => (List.getElem?_eq_some_iff.mp h).1

section Schedule

variable {h : Host} {freed : List (Nat × FreedReason)} {now : Nat} {s s' : Scheduler}

/-- The sweep as `schedule` starts it, on a sorted `Scheduled`. -/
theorem scheduleSweep_start (hs : SortedByCore s.scheduled) (q : IndrabaseClaimQueue) :
    scheduleSweep h s now s.scheduled.length s.scheduled.enum q
        (freeCoreIndices s.availabilityCores) =
      sweepSpec h s now s.scheduled q (freeCoreIndices s.availabilityCores) := by
  rw [← enum_dropWhile_zero]
  exact scheduleSweep_eq_sweepSpec hs _ 0 _ (freeCoreIndices_sorted _) fun _ _ => Nat.zero_le _

/-- The merge of `schedule`: the updates of a sweep over the free cores go into a sorted
`Scheduled` in sorted order, each made for a free core it does not hold. -/
theorem insertUpdates_of_sweep {q q' : IndrabaseClaimQueue} {us : List (Nat × CoreAssignment)}
    (hs : SortedByCore s.scheduled) (hlen : s.availabilityCores.length ≤ 2 ^ 32)
    (hsw : sweepSpec h s now s.scheduled q (freeCoreIndices s.availabilityCores) = .ok (q', us)) :
    ∃ r, insertUpdates 0 us s.scheduled = .ok r ∧ SortedByCore r ∧
      r.Perm (s.scheduled ++ us.map (·.2)) ∧
      (∀ a ∈ us.map (·.2), ∃ c, s.availabilityCores[c]? = some none ∧ c ∉ s.scheduledCores ∧
        MadeFor h s now c a ∧ a.core = c) ∧
      (q.queue.map (·.claim)).Perm
        (q'.queue.map (·.claim) ++ (us.map (·.2)).filterMap CoreAssignment.indrabaseEntry?) ∧
      q'.nextCoreOffset = q.nextCoreOffset := by
  obtain ⟨hsub, hus, hq, hn⟩ := sweepSpec_spec hsw
  have hlt : ∀ c ∈ freeCoreIndices s.availabilityCores, c < 2 ^ 32 := fun c hc =>
    Nat.lt_of_lt_of_le (lt_of_mem_freeCoreIndices hc) hlen
  have hcore : ∀ u ∈ us, ∃ c ∈ freeCoreIndices s.availabilityCores,
      c ∉ s.scheduled.map (·.core) ∧ u.1 = (s.scheduled.takeWhile (·.core < c)).length ∧
        MadeFor h s now c u.2 ∧ u.2.core = c := fun u hu => by
    obtain ⟨c, hc, h1, h2, hm⟩ := hus u hu
    exact ⟨c, hc, h1, h2, hm, by rw [hm.core, asU32_of_lt (hlt c hc)]⟩
  have hmap : (freeCoreIndices s.availabilityCores).map asU32 =
      freeCoreIndices s.availabilityCores :=
    (List.map_congr_left fun c hc => asU32_of_lt (hlt c hc)).trans (List.map_id' _)
  have hsorted : SortedByCore (us.map (·.2)) := by
    have := (freeCoreIndices_sorted _).sublist (hmap ▸ hsub)
    rw [List.pairwise_map] at this
    simpa [SortedByCore, List.pairwise_map] using this
  obtain ⟨r, hr, hrs, hrp⟩ := insertUpdates_spec hs us [] s.scheduled hs (by simp) hsorted
    (fun u hu => by obtain ⟨c, -, -, h2, -, he⟩ := hcore u hu; rw [he]; exact h2)
    (fun u hu => by obtain ⟨c, -, h1, -, -, he⟩ := hcore u hu; rwa [he])
    (fun _ h => absurd h (List.not_mem_nil _))
  refine ⟨r, hr, hrs, by simpa using hrp, fun a ha => ?_, hq, hn⟩
  obtain ⟨u, hu, rfl⟩ := List.mem_map.mp ha
  obtain ⟨c, hc, h1, -, hm, he⟩ := hcore u hu
  exact ⟨c, mem_freeCoreIndices.mp hc, h1, hm, he⟩

/-- `schedule` is `free_cores`, then, when there are groups, the sweep without its cursor
over the free cores and the merge of its updates. -/
theorem schedule_eq (hs : SortedByCore s.scheduled) (hok : schedule h freed now s = .ok s') :
    ∃ s₁, freeCores h freed s = .ok s₁ ∧
      ((s₁.validatorGroups = [] ∧ s' = s₁) ∨
        ∃ q us r, sweepSpec h s₁ now s₁.scheduled s₁.indrabaseQueue
            (freeCoreIndices s₁.availabilityCores) = .ok (q, us) ∧
          insertUpdates 0 us s₁.scheduled = .ok r ∧
          s' = { s₁ with scheduled := r, indrabaseQueue := q }) := by
  obtain ⟨s₁, h₁, hok⟩ := bind_eq_ok.mp hok
  refine ⟨s₁, h₁, ?_⟩
  by_cases hg : s₁.validatorGroups.isEmpty
  · simp only [hg, if_true] at hok
    cases hok
    exact .inl ⟨List.isEmpty_iff.mp hg, rfl⟩
  simp only [hg, if_false, Bool.false_eq_true] at hok
  obtain ⟨-, -, hok⟩ := bind_eq_ok.mp hok
  obtain ⟨⟨q, us⟩, hsw, hok⟩ := bind_eq_ok.mp hok
  obtain ⟨sch, hins, hok⟩ := bind_eq_ok.mp hok
  cases hok
  rw [scheduleSweep_start ((freeCores_frame h₁).1 ▸ hs)] at hsw
  exact .inr ⟨q, us, sch, hsw, hins, rfl⟩

/-- `schedule` on a sorted `Scheduled`: after `free_cores`, the new assignments are made
for free cores that `Scheduled` does not hold, merged in sorted, and their indrabase
entries are exactly what left the queue. -/
theorem schedule_ok (hs : SortedByCore s.scheduled) (hlen : s.availabilityCores.length ≤ 2 ^ 32)
    (hok : schedule h freed now s = .ok s') :
    ∃ s₁ new scheduled queue, freeCores h freed s = .ok s₁ ∧
      s' = { s₁ with scheduled, indrabaseQueue := queue } ∧
      SortedByCore scheduled ∧ scheduled.Perm (s₁.scheduled ++ new) ∧
      (∀ a ∈ new, ∃ c, s₁.availabilityCores[c]? = some none ∧ c ∉ s₁.scheduledCores ∧
        MadeFor h s₁ now c a ∧ a.core = c) ∧
      (s₁.indrabaseQueue.queue.map (·.claim)).Perm
        (queue.queue.map (·.claim) ++ new.filterMap CoreAssignment.indrabaseEntry?) ∧
      queue.nextCoreOffset = s₁.indrabaseQueue.nextCoreOffset := by
  obtain ⟨s₁, h₁, ⟨-, rfl⟩ | ⟨q, us, r, hsw, hins, rfl⟩⟩ := schedule_eq hs hok
  · exact ⟨s', [], s'.scheduled, s'.indrabaseQueue, h₁, rfl, (freeCores_frame h₁).1 ▸ hs,
      by simp, by simp, by simp, rfl⟩
  obtain ⟨hsch, -, -, hlen₁⟩ := freeCores_frame h₁
  obtain ⟨r', hr, hrs, hrp, hnew, hq, hn⟩ := insertUpdates_of_sweep (hsch ▸ hs) (hlen₁ ▸ hlen) hsw
  obtain rfl : r' = r := Except.ok.inj (hr.symm.trans hins)
  exact ⟨s₁, us.map (·.2), r', q, h₁, rfl, hrs, hrp, hnew, hq, hn⟩

/-- `schedule` only takes entries off the queue `free_cores` leaves, and keeps its next
offset. -/
theorem schedule_queue (hs : SortedByCore s.scheduled) (hok : schedule h freed now s = .ok s') :
    ∃ s₁, freeCores h freed s = .ok s₁ ∧
      List.Sublist s'.indrabaseQueue.queue s₁.indrabaseQueue.queue ∧
      s'.indrabaseQueue.nextCoreOffset = s₁.indrabaseQueue.nextCoreOffset := by
  obtain ⟨s₁, h₁, ⟨-, rfl⟩ | ⟨q, us, r, hsw, -, rfl⟩⟩ := schedule_eq hs hok
  · exact ⟨s', h₁, .refl _, rfl⟩
  · exact ⟨s₁, h₁, sweepSpec_queue_sublist hsw, (sweepSpec_spec hsw).2.2.2⟩

/-- The sweep panics only on a core without a group. -/
theorem sweepSpec_exists {l : List CoreAssignment} : ∀ {free : List Nat} {q : IndrabaseClaimQueue},
    (∀ c ∈ free, ∃ g, groupAssignedToCore h s (asU32 c) now = .ok (some g)) →
    ∃ r, sweepSpec h s now l q free = .ok r
  | [], q, _ => ⟨_, rfl⟩
  | c :: rest, q, hg => by
    have hrest := fun c' hc' => hg c' (List.mem_cons_of_mem _ hc')
    unfold sweepSpec
    split
    · exact sweepSpec_exists hrest
    · obtain ⟨g, hc⟩ := hg c (List.mem_cons_self _ _)
      obtain ⟨⟨q', us⟩, hr⟩ := sweepSpec_exists (l := l) (q := (assignCoreWith h c g q).1) hrest
      rw [assignCore_eq_of_group hc]
      exact ⟨_, by simp only [bind, Except.bind, hr]; rfl⟩
termination_by structural free => free

/-- `schedule` succeeds once `free_cores` does, when every core has a group. -/
theorem schedule_exists (hs : SortedByCore s.scheduled) (hlen : s.availabilityCores.length ≤ 2 ^ 32)
    (hg : s.validatorGroups ≠ [] → ∀ c < s.availabilityCores.length,
      ∃ g, groupAssignedToCore h s c now = .ok (some g))
    {s₁ : Scheduler} (h₁ : freeCores h freed s = .ok s₁) :
    ∃ s', schedule h freed now s = .ok s' := by
  obtain ⟨hsch, hgr, hst, hlen₁⟩ := freeCores_frame h₁
  have hs₁ : SortedByCore s₁.scheduled := hsch ▸ hs
  by_cases hge : s₁.validatorGroups.isEmpty
  · exact ⟨s₁, by simp [schedule, h₁, bind, Except.bind, hge, pure, Except.pure]⟩
  have hgat : ∀ c ∈ freeCoreIndices s₁.availabilityCores,
      ∃ g, groupAssignedToCore h s₁ (asU32 c) now = .ok (some g) := fun c hc => by
    have hlt := lt_of_mem_freeCoreIndices hc
    rw [groupAssignedToCore_congr hgr hst, asU32_of_lt (by omega)]
    exact hg (by simpa [← hgr] using hge) c (by omega)
  obtain ⟨⟨q', us⟩, hsw⟩ := sweepSpec_exists (l := s₁.scheduled) (q := s₁.indrabaseQueue) hgat
  obtain ⟨r, hr, -⟩ := insertUpdates_of_sweep hs₁ (hlen₁ ▸ hlen) hsw
  exact ⟨{ s₁ with scheduled := r, indrabaseQueue := q' }, by
    simp [schedule, h₁, bind, Except.bind, hge, scheduleSweep_start hs₁, hsw, hr, pure, Except.pure]⟩

end Schedule

end SelendraScheduler
