import SelendraScheduler.Ledger

/-!
# SelendraScheduler.QueueOrder

Between session changes the indrabase queue is first in, first out on every core
offset, spreads what it enqueues round-robin over the offsets, and serves an offset at
every chance it gets:

* `take_next_on_core` serves the first entry on its offset and leaves the other offsets
  alone (`queuedOn_eraseP`); `schedule` serves exactly the first entry of each offset
  whose multiplexer core is empty and unscheduled once `free_cores` has run
  (`schedule_queuedOn`);
* every call but a session change enqueues `Call.enqueued` one entry after another (the
  claim `add_indrabase_claim` accepts, the timed-out occupants of the cores `free_cores`
  and `schedule` free, what `clear` re-queues), then serves the first entry of each
  offset it has a chance on (`Call.servesOn`, `queue_step`);
* over the calls of a session (`SessionRun`), the `i`-th entry enqueued goes on offset
  `next + i` modulo the indrabase core count, and what waits on each offset is what
  waited there at the start followed by what was enqueued on it since, less as many
  entries from the front as there were chances to serve it, or all of those that
  waited at the start (`claims_served_in_order`).

A session change rebuilds the queue and reassigns the offsets
(`SelendraScheduler.SessionResult`).
-/

namespace SelendraScheduler

/-- The entries waiting on offset `o`, in queue order. -/
def queuedOn (queue : List QueuedIndrabase) (o : Nat) : List QueuedIndrabase :=
  queue.filter (·.coreOffset == o)

@[simp] theorem queuedOn_append (queue queue' : List QueuedIndrabase) (o : Nat) :
    queuedOn (queue ++ queue') o = queuedOn queue o ++ queuedOn queue' o :=
  List.filter_append _ _

/-- Removing the first entry on offset `o'` takes the front of `o'` and nothing else. -/
theorem queuedOn_eraseP (queue : List QueuedIndrabase) (o' o : Nat) :
    queuedOn (queue.eraseP (·.coreOffset == o')) o =
      if o' = o then (queuedOn queue o).tail else queuedOn queue o := by
  induction queue with
  | nil => split <;> rfl
  | cons x xs ih =>
    by_cases hx : x.coreOffset = o'
    · by_cases ho : o' = o <;> simp [queuedOn, hx, ho]
    · rw [List.eraseP_cons_of_neg (by simpa using hx)]
      by_cases ho : o' = o <;> simp_all [queuedOn, List.filter_cons]

/-! ## What each call enqueues and serves -/

section Calls

variable {h : Host} {s s' : Scheduler} {now : Nat}

/-- One core of the sweep serves the first entry on offset `o` exactly when it is the
multiplexer core of `o`. -/
theorem queuedOn_assignCoreWith {c g : Nat} (q : IndrabaseClaimQueue) (hc : c < 2 ^ 32) (o : Nat) :
    queuedOn (assignCoreWith h c g q).1.queue o =
      if h.indras.indracores.length + o = c then (queuedOn q.queue o).tail
      else queuedOn q.queue o := by
  rw [assignCoreWith_fst_queue]
  by_cases ho : h.indras.indracores.length + o = c
  · rw [if_pos (by omega), queuedOn_eraseP, asU32_of_lt (by omega), if_pos (by omega), if_pos ho]
  · rw [if_neg ho]
    split
    · rw [queuedOn_eraseP, asU32_of_lt (by omega), if_neg (by omega)]
    · rfl

/-- The sweep serves the first entry on offset `o` exactly when the multiplexer core of
`o` is among the free cores and `l` does not hold it. -/
theorem sweepSpec_queuedOn {l : List CoreAssignment} : ∀ {free : List Nat}
    {q q' : IndrabaseClaimQueue} {us : List (Nat × CoreAssignment)}, free.Nodup →
    (∀ c ∈ free, c < 2 ^ 32) → sweepSpec h s now l q free = .ok (q', us) → ∀ o,
    queuedOn q'.queue o =
      if h.indras.indracores.length + o ∈ free ∧ h.indras.indracores.length + o ∉ l.map (·.core)
      then (queuedOn q.queue o).tail else queuedOn q.queue o
  | [], q, q', us, _, _, hr, o => by cases hr; simp
  | c :: rest, q, q', us, hnd, hlt, hr, o => by
    rw [List.nodup_cons] at hnd
    have hlt' := fun c' hc' => hlt c' (List.mem_cons_of_mem _ hc')
    unfold sweepSpec at hr
    split at hr
    · rename_i hc
      rw [sweepSpec_queuedOn hnd.2 hlt' hr o]
      by_cases hN : h.indras.indracores.length + o = c
      · subst hN; simp [hc]
      · simp [hN]
    rename_i hc
    obtain ⟨⟨q₁, a⟩, ha, hr⟩ := bind_eq_ok.mp hr
    obtain ⟨⟨q₂, us₂⟩, hrest, hr⟩ := bind_eq_ok.mp hr
    cases hr
    obtain ⟨g, hga, -⟩ := assignCore_ok ha
    obtain rfl : q₁ = (assignCoreWith h c g q).1 := congrArg Prod.fst hga
    rw [sweepSpec_queuedOn hnd.2 hlt' hrest o, queuedOn_assignCoreWith q (hlt c (List.mem_cons_self _ _))]
    by_cases hN : h.indras.indracores.length + o = c
    · subst hN; simp [hc, hnd.1]
    · simp [hN]
termination_by structural free => free

/-- `schedule` without validator groups is `free_cores`. -/
theorem schedule_of_groups_nil {freed : List (Nat × FreedReason)}
    (hg : s.validatorGroups = []) (hok : schedule h freed now s = .ok s') :
    freeCores h freed s = .ok s' := by
  obtain ⟨s₁, h₁, hok⟩ := bind_eq_ok.mp hok
  rw [if_pos (by rw [(freeCores_frame h₁).2.1, hg]; rfl)] at hok
  cases hok
  exact h₁

/-- On a state that keeps the run invariant, `schedule` takes off each offset `o` of the
queue `free_cores` leaves exactly its first entry when there are validator groups and
the multiplexer core of `o` (core `n_indracores + o`) is empty and not in `Scheduled`,
and nothing otherwise; it keeps the next offset. -/
theorem schedule_queuedOn {freed : List (Nat × FreedReason)} (hr : RunInv s)
    (hok : schedule h freed now s = .ok s') :
    ∃ s₁, freeCores h freed s = .ok s₁ ∧ (∀ o,
      queuedOn s'.indrabaseQueue.queue o =
        if s.validatorGroups ≠ [] ∧
            s₁.availabilityCores[h.indras.indracores.length + o]? = some none ∧
            h.indras.indracores.length + o ∉ s₁.scheduledCores
        then (queuedOn s₁.indrabaseQueue.queue o).tail else queuedOn s₁.indrabaseQueue.queue o) ∧
      s'.indrabaseQueue.nextCoreOffset = s₁.indrabaseQueue.nextCoreOffset := by
  by_cases hg : s.validatorGroups = []
  · exact ⟨s', schedule_of_groups_nil hg hok, fun o => by simp [hg], rfl⟩
  obtain ⟨s₁, h₁, ⟨hg₁, -⟩ | ⟨q, us, r, hsw, -, rfl⟩⟩ := schedule_eq hr.sorted hok
  · exact absurd ((freeCores_frame h₁).2.1 ▸ hg₁) hg
  have hlt : ∀ c ∈ freeCoreIndices s₁.availabilityCores, c < 2 ^ 32 := fun c hc =>
    (lt_of_mem_freeCoreIndices hc).trans_le ((freeCores_frame h₁).2.2.2 ▸ hr.coresLt.le)
  refine ⟨s₁, h₁, fun o => ?_, (sweepSpec_spec hsw).2.2.2⟩
  rw [sweepSpec_queuedOn (freeCoreIndices_sorted _).nodup hlt hsw o]
  simp only [mem_freeCoreIndices, Scheduler.scheduledCores, hg, ne_eq, not_false_eq_true,
    true_and]

/-- `free_cores` on distinct cores enqueues the timed-out indrabase occupants, in order. -/
theorem freeCores_enqueues : ∀ {freed : List (Nat × FreedReason)} {s s' : Scheduler},
    (freed.map (·.1)).Nodup → freeCores h freed s = .ok s' →
    (freedClaims .timedOut s.availabilityCores freed).foldlM
      (fun q e => q.enqueueEntry e h.config.indrabaseCores) s.indrabaseQueue = .ok s'.indrabaseQueue
  | [], s, s', _, hf => by cases hf; rfl
  | (i, r) :: rest, s, s', hnd, hf => by
    obtain ⟨s₁, h₁, hf⟩ := bind_eq_ok.mp hf
    rw [List.map_cons, List.nodup_cons] at hnd
    obtain ⟨index, queue, rfl, heff⟩ := freeCore_ok h₁
    have ih := freeCores_enqueues hnd.2 hf
    rw [freedClaims_set_none hnd.1] at ih
    have hhead : (freedClaims .timedOut s.availabilityCores [(i, r)]).foldlM
        (fun q e => q.enqueueEntry e h.config.indrabaseCores) s.indrabaseQueue = .ok queue := by
      rcases hc : s.availabilityCores[i]? with _ | _ | _ | e <;> simp only [hc] at heff
      -- No core, an empty core and an indracore enqueue nothing.
      iterate 3
        obtain ⟨-, rfl⟩ := heff
        simp [freedClaims, hc]; rfl
      rcases heff with ⟨rfl, -, rfl⟩ | ⟨rfl, -, hq⟩
      · simp [freedClaims, hc]; rfl
      · simp [freedClaims, hc, hq]
    rw [show freedClaims .timedOut s.availabilityCores ((i, r) :: rest) =
        freedClaims .timedOut s.availabilityCores [(i, r)] ++
          freedClaims .timedOut s.availabilityCores rest from List.filterMap_append [(i, r)] rest _,
      List.foldlM_append, hhead]
    exact ih
termination_by structural freed => freed

/-- `add_indrabase_claim` on a sorted index enqueues `addedClaims`. -/
theorem addIndrabaseClaim_enqueues (hs : s.indrabaseClaimIndex.Pairwise (· < ·))
    {claim : IndrabaseClaim} (hok : addIndrabaseClaim h claim s = .ok s') :
    (addedClaims h claim s).foldlM (fun q e => q.enqueueEntry e h.config.indrabaseCores)
      s.indrabaseQueue = .ok s'.indrabaseQueue := by
  rcases addIndrabaseClaim_added hs hok with ⟨h0, rfl⟩ | ⟨h1, hk, index, rfl⟩
  · rw [h0]; rfl
  · rw [h1]
    simp [IndrabaseClaimQueue.enqueueEntry_of_pos _ _ hk]

/-- `clear` enqueues what `requeueEntry?` selects from `Scheduled`. -/
theorem clear_enqueues (hok : clear h s = .ok s') :
    (s.scheduled.filterMap (requeueEntry? h)).foldlM
      (fun q e => q.enqueueEntry e h.config.indrabaseCores) s.indrabaseQueue = .ok s'.indrabaseQueue := by
  obtain ⟨q, hq, hok⟩ := bind_eq_ok.mp hok
  cases hok
  rwa [← foldlM_requeue_eq]

/-- `occupied` leaves the queue as it is. -/
theorem occupied_indrabaseQueue {nowOccupied : List Nat} (hok : occupied nowOccupied s = .ok s') :
    s'.indrabaseQueue = s.indrabaseQueue := by
  obtain ⟨_, _, rfl, -⟩ := occupied_ok hok
  rfl

end Calls

namespace Call

/-- The entries a call enqueues, in order: the claim `add_indrabase_claim` accepts, the
timed-out indrabase occupants of the cores `free_cores` and `schedule` free, and what
`clear` re-queues. -/
def enqueued (h : Host) (s : Scheduler) : Call → List IndrabaseEntry
  | .addIndrabaseClaim claim => addedClaims h claim s
  | .freeCores freed | .schedule freed _ => freedClaims .timedOut s.availabilityCores freed
  | .clear => s.scheduled.filterMap (requeueEntry? h)
  | _ => []

/-- Whether the call has a chance to serve offset `o`: it is a `schedule` with validator
groups that finds the multiplexer core of `o` empty and not in `Scheduled` once it has
freed its cores. -/
def servesOn (h : Host) (s : Scheduler) (o : Nat) : Call → Bool
  | .schedule freed _ =>
    match SelendraScheduler.freeCores h freed s with
    | .ok s₁ => decide (s.validatorGroups ≠ [] ∧
        s₁.availabilityCores[h.indras.indracores.length + o]? = some none ∧
        h.indras.indracores.length + o ∉ s₁.scheduledCores)
    | .error _ => false
  | _ => false

end Call

/-- One call of a session, from a state that keeps the run invariant, enqueues
`Call.enqueued` one entry after another, then serves the first entry of each offset it
has a chance on, and nothing else. -/
theorem queue_step {w w' : Chain} (hr : RunInv w.scheduler) {call : Call}
    (hc : call.changesSession = false) (hd : call.FreesDistinct) (happ : call.apply w = .ok w') :
    ∃ q, (call.enqueued w.host w.scheduler).foldlM
        (fun q e => q.enqueueEntry e w.host.config.indrabaseCores) w.scheduler.indrabaseQueue = .ok q ∧
      (∀ o, queuedOn w'.scheduler.indrabaseQueue.queue o =
        if call.servesOn w.host w.scheduler o then (queuedOn q.queue o).tail else queuedOn q.queue o) ∧
      w'.scheduler.indrabaseQueue.nextCoreOffset = q.nextCoreOffset := by
  cases call with
  | initializerOnNewSession => cases hc
  | addIndrabaseClaim claim =>
    obtain ⟨s', hok, rfl⟩ := map_eq_ok.mp happ
    exact ⟨_, addIndrabaseClaim_enqueues hr.index hok, fun _ => rfl, rfl⟩
  | freeCores freed =>
    obtain ⟨s', hok, rfl⟩ := map_eq_ok.mp happ
    exact ⟨_, freeCores_enqueues hd hok, fun _ => rfl, rfl⟩
  | schedule freed now =>
    obtain ⟨s', hok, rfl⟩ := map_eq_ok.mp happ
    obtain ⟨s₁, h₁, hq, hn⟩ := schedule_queuedOn hr hok
    refine ⟨_, freeCores_enqueues hd h₁, fun o => ?_, hn⟩
    rw [hq o]
    simp only [Call.servesOn, h₁, decide_eq_true_eq]
  | occupied o =>
    obtain ⟨s', hok, rfl⟩ := map_eq_ok.mp happ
    exact ⟨_, rfl, fun _ => by rw [occupied_indrabaseQueue hok]; rfl,
      by rw [occupied_indrabaseQueue hok]⟩
  | clear =>
    obtain ⟨s', hok, rfl⟩ := map_eq_ok.mp happ
    exact ⟨_, clear_enqueues hok, fun _ => rfl, rfl⟩

/-! ## Over a session -/

/-- What the calls of a history enqueued, in order. -/
def enqueuedAlong (history : List (Chain × Call)) : List IndrabaseEntry :=
  history.flatMap fun x => x.2.enqueued x.1.host x.1.scheduler

/-- The chances the calls of a history had to serve offset `o`. -/
def chancesOn (history : List (Chain × Call)) (o : Nat) : Nat :=
  history.countP fun x => x.2.servesOn x.1.host x.1.scheduler o

@[simp] theorem enqueuedAlong_append_singleton (history : List (Chain × Call)) (w : Chain)
    (call : Call) :
    enqueuedAlong (history ++ [(w, call)]) =
      enqueuedAlong history ++ call.enqueued w.host w.scheduler := by
  simp [enqueuedAlong]

@[simp] theorem chancesOn_append_singleton (history : List (Chain × Call)) (w : Chain)
    (call : Call) (o : Nat) :
    chancesOn (history ++ [(w, call)]) o =
      chancesOn history o + if call.servesOn w.host w.scheduler o then 1 else 0 := by
  simp [chancesOn, List.countP_append, List.countP_singleton]

/-- Dropping a prefix, then appending, is dropping from the whole no further than the
first part. -/
theorem drop_append_min (l l' : List α) (d : Nat) :
    l.drop d ++ l' = (l ++ l').drop (min d l.length) := by
  rw [List.drop_append_of_le_length (Nat.min_le_right _ _)]
  rcases Nat.le_total d l.length with hd | hd
  · rw [Nat.min_eq_left hd]
  · rw [Nat.min_eq_right hd, List.drop_eq_nil_of_le hd, List.drop_length]

/-- **First in, first out on every offset, with service at every chance**: over the calls
of a session from a state that keeps the run invariant, with a `u32` indrabase core count
`k` and the next offset below it, the `i`-th entry enqueued goes on offset `next + i`
mod `k`; what waits on each offset at the end is what waited there at the start followed
by what was enqueued on it since, less its first `d` entries, where `d` is at most the
number of chances to serve the offset and at least that number or the number of entries
waiting there at the start, whichever is smaller. -/
theorem claims_served_in_order {w₀ w : Chain} {history : List (Chain × Call)}
    (h₀ : RunInv w₀.scheduler) (hk : w₀.host.config.indrabaseCores < 2 ^ 32)
    (hn : w₀.scheduler.indrabaseQueue.nextCoreOffset < w₀.host.config.indrabaseCores)
    (hw : SessionRun w₀ w history) (hd : ∀ x ∈ history, x.2.FreesDistinct) :
    (∀ o, ∃ d, min (chancesOn history o) (queuedOn w₀.scheduler.indrabaseQueue.queue o).length ≤ d ∧
      d ≤ chancesOn history o ∧
      queuedOn w.scheduler.indrabaseQueue.queue o =
        (queuedOn (w₀.scheduler.indrabaseQueue.queue ++ roundRobin w₀.scheduler.indrabaseQueue.nextCoreOffset
          w₀.host.config.indrabaseCores (enqueuedAlong history)) o).drop d) ∧
    w.scheduler.indrabaseQueue.nextCoreOffset =
      (w₀.scheduler.indrabaseQueue.nextCoreOffset + (enqueuedAlong history).length) %
        w₀.host.config.indrabaseCores := by
  induction hw with
  | refl =>
    refine ⟨fun o => ⟨0, by simp [chancesOn], le_rfl, by simp [enqueuedAlong, roundRobin]⟩, ?_⟩
    simp [enqueuedAlong, Nat.mod_eq_of_lt hn]
  | @step w w' history call hw hc happ ih =>
    obtain ⟨hq₀, hnext⟩ := ih fun x hx => hd x (List.mem_append_left _ hx)
    obtain ⟨q, hq, hserve, hn'⟩ :=
      queue_step (hw.runInv h₀) hc (hd _ (List.mem_append_right _ (List.mem_singleton_self _))) happ
    simp only [enqueuedAlong_append_singleton, chancesOn_append_singleton]
    rw [hw.host] at hq hserve ⊢
    rw [foldlM_enqueueEntry hk _ _ (hnext ▸ Nat.mod_lt _ (by omega))] at hq
    cases hq
    refine ⟨fun o => ?_, ?_⟩
    · obtain ⟨d, hlo, hhi, heq⟩ := hq₀ o
      rw [hserve o, hnext, roundRobin_mod, queuedOn_append, heq, drop_append_min,
        roundRobin_append, ← List.append_assoc]
      simp only [queuedOn_append, List.length_append]
      split
      · -- A chance: one more entry leaves the front.
        refine ⟨_, ?_, ?_, List.tail_drop _ _⟩ <;> omega
      · exact ⟨_, by omega, by omega, rfl⟩
    · rw [hn', hnext, Nat.mod_add_mod, List.length_append, Nat.add_assoc]

/-- Block 3 after `occupiedAtBlockTwo`: `clear` re-queues the claim of indrabase `5` on
offset `2`, and `schedule` serves it onto core `4`, the multiplexer core of that offset. -/
def blockThree : List (Chain × Call) :=
  [(⟨testHost, occupiedAtBlockTwo⟩, .clear), (⟨testHost, clearedAtBlockThree⟩, .schedule [] 3)]

/-- The state after `blockThree`'s `schedule`. -/
def servedAtBlockThree : Scheduler :=
  { clearedAtBlockThree with
    scheduled := [⟨1, 2, .indracore, 1⟩, ⟨4, 5, .indrabase 0 1, 4⟩]
    indrabaseQueue := ⟨[], 0⟩ }

theorem claims_served_in_order_at_block_three :
    RunInv occupiedAtBlockTwo ∧ testHost.config.indrabaseCores < 2 ^ 32 ∧
    occupiedAtBlockTwo.indrabaseQueue.nextCoreOffset < testHost.config.indrabaseCores ∧
    SessionRun ⟨testHost, occupiedAtBlockTwo⟩ ⟨testHost, servedAtBlockThree⟩ blockThree ∧
    (∀ x ∈ blockThree, x.2.FreesDistinct) ∧
    (∀ o, ∃ d, min (chancesOn blockThree o) (queuedOn occupiedAtBlockTwo.indrabaseQueue.queue o).length ≤ d ∧
      d ≤ chancesOn blockThree o ∧
      queuedOn servedAtBlockThree.indrabaseQueue.queue o =
        (queuedOn (occupiedAtBlockTwo.indrabaseQueue.queue ++ roundRobin
          occupiedAtBlockTwo.indrabaseQueue.nextCoreOffset testHost.config.indrabaseCores
            (enqueuedAlong blockThree)) o).drop d) ∧
    servedAtBlockThree.indrabaseQueue.nextCoreOffset =
      (occupiedAtBlockTwo.indrabaseQueue.nextCoreOffset + (enqueuedAlong blockThree).length) %
        testHost.config.indrabaseCores :=
  have h₀ : RunInv occupiedAtBlockTwo := occupiedAtBlockTwo_reachable.reachable.runInv
  have hclear : SessionRun ⟨testHost, occupiedAtBlockTwo⟩ ⟨testHost, clearedAtBlockThree⟩
      [(⟨testHost, occupiedAtBlockTwo⟩, .clear)] := .step .clear .refl rfl rfl
  have hrun : SessionRun ⟨testHost, occupiedAtBlockTwo⟩ ⟨testHost, servedAtBlockThree⟩ blockThree :=
    .step (.schedule [] 3) hclear rfl rfl
  have hd : ∀ x ∈ blockThree, x.2.FreesDistinct := by simp [blockThree, Call.FreesDistinct]
  ⟨h₀, by decide, by decide, hrun, hd, claims_served_in_order h₀ (by decide) (by decide) hrun hd⟩

end SelendraScheduler
