import SelendraScheduler.Schedule
import Mathlib.Data.List.Sort

/-!
# SelendraScheduler.Merge

The list facts behind `schedule`'s merge.  `Scheduled` is kept strictly increasing by
core index (`SortedByCore`).  On such a list

* the position of the first entry on a core `≥ c` is the number of entries below `c`
  (`length_takeWhile_eq_countP`), and inserting there is `insertByCore`, the sorted
  insertion (`vecInsert_takeWhile`, `insertByCore_sorted`);
* the sweep's cursor, the enumerated list advanced past the cores below `c`, starts at
  that position, so `insertPosition` is `None` exactly on the cores already scheduled
  (`insertPosition_eq`);
* inserting updates in core order, each at its position in the old list plus the number
  of insertions before it, is a sequence of sorted insertions (`insertUpdates_spec`).
-/

namespace SelendraScheduler

/-- Strictly increasing by core index, as `Scheduled` is documented to be. -/
def SortedByCore (l : List CoreAssignment) : Prop := l.Pairwise (·.core < ·.core)

/-- Insert before the first entry on a core at least the new one's. -/
def insertByCore (a : CoreAssignment) (l : List CoreAssignment) : List CoreAssignment :=
  l.takeWhile (·.core < a.core) ++ a :: l.dropWhile (·.core < a.core)

section Lists

variable {α : Type} (p : α → Bool)

theorem take_length_takeWhile (l : List α) : l.take (l.takeWhile p).length = l.takeWhile p := by
  induction l with
  | nil => rfl
  | cons x xs ih => by_cases hx : p x <;> simp [List.takeWhile_cons, hx, ih]

theorem drop_length_takeWhile (l : List α) : l.drop (l.takeWhile p).length = l.dropWhile p := by
  induction l with
  | nil => rfl
  | cons x xs ih => by_cases hx : p x <;> simp [List.takeWhile_cons, List.dropWhile_cons, hx, ih]

/-- Dropping a prefix and then a longer one drops the longer one. -/
theorem dropWhile_dropWhile_of_imp {q : α → Bool} (hpq : ∀ x, p x → q x) (l : List α) :
    (l.dropWhile p).dropWhile q = l.dropWhile q := by
  induction l with
  | nil => rfl
  | cons x xs ih =>
    by_cases hx : p x
    · simp [List.dropWhile_cons, hx, hpq x hx, ih]
    · simp [List.dropWhile_cons, hx]

end Lists

/-- Advancing the cursor over the enumerated list moves the start of the enumeration. -/
theorem enumFrom_dropWhile (c : Nat) (l : List CoreAssignment) (k : Nat) :
    (l.enumFrom k).dropWhile (fun e => e.2.core < c) =
      (l.dropWhile (·.core < c)).enumFrom (k + (l.takeWhile (·.core < c)).length) := by
  induction l generalizing k with
  | nil => rfl
  | cons x xs ih =>
    by_cases hx : x.core < c
    · simp [List.dropWhile_cons, List.takeWhile_cons, hx, ih, Nat.add_assoc, Nat.add_comm 1]
    · simp [List.dropWhile_cons, List.takeWhile_cons, hx]

namespace SortedByCore

variable {l : List CoreAssignment}

theorem tail {a : CoreAssignment} (h : SortedByCore (a :: l)) : SortedByCore l :=
  (List.pairwise_cons.mp h).2

theorem sublist {l' : List CoreAssignment} (h : SortedByCore l) (hs : List.Sublist l' l) :
    SortedByCore l' :=
  List.Pairwise.sublist hs h

/-- At most one entry per core. -/
theorem nodup_cores (h : SortedByCore l) : (l.map (·.core)).Nodup :=
  (List.pairwise_map.mpr h).imp Nat.ne_of_lt

/-- The entry on a core is the one `find?` returns. -/
theorem find?_core (h : SortedByCore l) {a : CoreAssignment} (ha : a ∈ l) :
    l.find? (·.core == a.core) = some a := by
  induction l with
  | nil => cases ha
  | cons b rest ih =>
    rcases List.mem_cons.mp ha with rfl | ha
    · simp
    · have hlt := (List.pairwise_cons.mp h).1 a ha
      rw [List.find?_cons_of_neg _ (by simpa using Nat.ne_of_lt hlt)]
      exact ih h.tail ha

/-- A sorted permutation of `l₁ ++ l₂` holds on a core that `l₁` does not hold what `l₂`
holds there. -/
theorem find?_core_of_perm {l₁ l₂ : List CoreAssignment} {c : Nat} (h : SortedByCore l)
    (hp : l.Perm (l₁ ++ l₂)) (hc : ∀ a ∈ l₁, a.core ≠ c) :
    l.find? (·.core == c) = l₂.find? (·.core == c) := by
  rcases hf : l₂.find? (·.core == c) with _ | a <;> rw [hf]
  · refine List.find?_eq_none.mpr fun x hx => ?_
    rcases List.mem_append.mp (hp.subset hx) with hx | hx
    · simpa using hc x hx
    · exact List.find?_eq_none.mp hf x hx
  · obtain rfl : a.core = c := by simpa using List.find?_some hf
    exact h.find?_core (hp.symm.subset (List.mem_append_right _ (List.mem_of_find?_eq_some hf)))

/-- Past the cores below `c`, every core is at least `c`. -/
theorem le_of_mem_dropWhile (h : SortedByCore l) (c : Nat) :
    ∀ a ∈ l.dropWhile (·.core < c), c ≤ a.core := by
  induction l with
  | nil => simp
  | cons x xs ih =>
    by_cases hx : x.core < c
    · simpa [List.dropWhile_cons, hx] using ih h.tail
    · rw [List.dropWhile_cons_of_neg (by simpa using hx)]
      intro a ha
      rcases List.mem_cons.mp ha with rfl | ha
      · omega
      · have := (List.pairwise_cons.mp h).1 a ha; omega

/-- The position of the first entry on a core `≥ c` counts the entries below `c`. -/
theorem length_takeWhile_eq_countP (h : SortedByCore l) (c : Nat) :
    (l.takeWhile (·.core < c)).length = l.countP (·.core < c) := by
  induction l with
  | nil => rfl
  | cons x xs ih =>
    by_cases hx : x.core < c
    · simp [List.takeWhile_cons, hx, ih h.tail]
    · have hrest : xs.countP (·.core < c) = 0 := List.countP_eq_zero.mpr fun a ha => by
        have := (List.pairwise_cons.mp h).1 a ha; simp; omega
      simp [List.takeWhile_cons, hx, hrest]

/-- A sorted insertion of a new core keeps the order. -/
theorem insertByCore {a : CoreAssignment} (h : SortedByCore l) (ha : a.core ∉ l.map (·.core)) :
    SortedByCore (insertByCore a l) := by
  have hl : SortedByCore (l.takeWhile (·.core < a.core) ++ l.dropWhile (·.core < a.core)) := by
    rwa [List.takeWhile_append_dropWhile]
  have hge := h.le_of_mem_dropWhile a.core
  have hgt : ∀ b ∈ l.dropWhile (·.core < a.core), a.core < b.core := fun b hb => by
    have hne : b.core ≠ a.core := fun he =>
      ha (List.mem_map.mpr ⟨b, (List.dropWhile_suffix _).subset hb, he⟩)
    have := hge b hb; omega
  unfold SortedByCore at hl ⊢
  unfold SelendraScheduler.insertByCore
  rw [List.pairwise_append] at hl ⊢
  refine ⟨hl.1, List.pairwise_cons.mpr ⟨hgt, hl.2.1⟩, fun x hx b hb => ?_⟩
  rcases List.mem_cons.mp hb with rfl | hb
  · simpa using List.mem_takeWhile_imp hx
  · exact hl.2.2 x hx b hb

/-- Two strictly increasing lists of the same assignments are equal. -/
theorem eq_of_perm {l' : List CoreAssignment} (h : SortedByCore l) (h' : SortedByCore l')
    (hp : l.Perm l') : l = l' :=
  haveI : IsAntisymm CoreAssignment (·.core < ·.core) :=
    ⟨fun _ _ h₁ h₂ => absurd (h₁.trans h₂) (lt_irrefl _)⟩
  List.eq_of_perm_of_sorted hp h h'

/-- The merge by core of two strictly increasing lists on distinct cores is strictly
increasing. -/
theorem merge {l₂ : List CoreAssignment} (h₁ : SortedByCore l) (h₂ : SortedByCore l₂)
    (hd : ((l ++ l₂).map (·.core)).Nodup) :
    SortedByCore (l.merge l₂ fun a b => a.core ≤ b.core) := by
  have hle : (l.merge l₂ fun a b => a.core ≤ b.core).Pairwise
      fun a b => decide (a.core ≤ b.core) = true :=
    List.sorted_merge (fun a b c hab hbc => by simp only [decide_eq_true_eq] at *; omega)
    (fun a b => by simp only [Bool.or_eq_true, decide_eq_true_eq]; omega) l l₂
    (h₁.imp fun h => by simp only [decide_eq_true_eq]; omega)
    (h₂.imp fun h => by simp only [decide_eq_true_eq]; omega)
  have hne : (l.merge l₂ fun a b => a.core ≤ b.core).Pairwise (·.core ≠ ·.core) :=
    List.pairwise_map.mp (((List.merge_perm_append _).map _).nodup_iff.mpr hd)
  exact (hle.and hne).imp fun ⟨h1, h2⟩ => by simp only [decide_eq_true_eq] at h1; omega

/-- A strictly increasing permutation of two strictly increasing lists is their merge by
core. -/
theorem eq_merge {r l₂ : List CoreAssignment} (hr : SortedByCore r) (hp : r.Perm (l ++ l₂))
    (h₁ : SortedByCore l) (h₂ : SortedByCore l₂) : r = l.merge l₂ fun a b => a.core ≤ b.core :=
  hr.eq_of_perm (h₁.merge h₂ ((hp.map _).nodup_iff.mp hr.nodup_cores))
    (hp.trans (List.merge_perm_append _).symm)

end SortedByCore

theorem insertByCore_perm (a : CoreAssignment) (l : List CoreAssignment) :
    (insertByCore a l).Perm (a :: l) := by
  have := @List.perm_middle _ a (l.takeWhile (·.core < a.core)) (l.dropWhile (·.core < a.core))
  rwa [List.takeWhile_append_dropWhile] at this

/-- `Vec::insert` at the position of the first entry on a core `≥ a.core` is the sorted
insertion. -/
theorem vecInsert_takeWhile (l : List CoreAssignment) (a : CoreAssignment) :
    vecInsert l (l.takeWhile (·.core < a.core)).length a = .ok (insertByCore a l) := by
  simp [vecInsert, insertByCore, (List.takeWhile_prefix _).length_le, take_length_takeWhile,
    drop_length_takeWhile]

/-- On a sorted `Scheduled`, the sweep's cursor points past the scheduled cores below
`c`, so the core is skipped exactly when it is scheduled. -/
theorem insertPosition_eq {l : List CoreAssignment} (h : SortedByCore l) (c : Nat) :
    insertPosition l.length c (l.enum.dropWhile fun e => e.2.core < c) =
      if c ∈ l.map (·.core) then none else some (l.takeWhile (·.core < c)).length := by
  rw [List.enum, enumFrom_dropWhile, Nat.zero_add]
  cases hd : l.dropWhile (·.core < c) with
  | nil =>
    have hall := List.dropWhile_eq_nil_iff.mp hd
    have htw : l.takeWhile (·.core < c) = l := by
      simpa [hd] using List.takeWhile_append_dropWhile (·.core < c) l
    have hc : c ∉ l.map (·.core) := fun hc => by
      obtain ⟨a, ha, rfl⟩ := List.mem_map.mp hc; simpa using hall a ha
    simp [insertPosition, hc, htw]
  | cons a rest =>
    have hge := h.le_of_mem_dropWhile c
    rw [hd] at hge
    have hsorted : SortedByCore (a :: rest) := by
      rw [← hd]; exact h.sublist (List.dropWhile_suffix _).sublist
    have hmem : c ∈ l.map (·.core) ↔ a.core = c := by
      constructor
      · intro hc
        obtain ⟨b, hb, rfl⟩ := List.mem_map.mp hc
        rw [← List.takeWhile_append_dropWhile (·.core < b.core) l, hd, List.mem_append] at hb
        rcases hb with hb | hb
        · simpa using List.mem_takeWhile_imp hb
        · rcases List.mem_cons.mp hb with rfl | hb
          · rfl
          · have h1 := (List.pairwise_cons.mp hsorted).1 b hb
            have h2 := hge a (List.mem_cons_self a rest)
            omega
      · intro he
        exact List.mem_map.mpr ⟨a, (List.dropWhile_suffix _).subset (hd ▸ List.mem_cons_self a rest), he⟩
    by_cases hac : a.core = c <;> simp [insertPosition, hac, hmem]


/-- The second loop of `schedule` on updates in core order, each carrying its position in
the old list `l`: every insertion is a sorted insertion, so the result is sorted and
holds the old entries and the new ones.  `done` are the updates already inserted. -/
theorem insertUpdates_spec {l : List CoreAssignment} (hl : SortedByCore l) :
    ∀ (us : List (Nat × CoreAssignment)) (done cur : List CoreAssignment),
      SortedByCore cur → cur.Perm (l ++ done) → SortedByCore (us.map (·.2)) →
      (∀ u ∈ us, u.1 = (l.takeWhile (·.core < u.2.core)).length) →
      (∀ u ∈ us, u.2.core ∉ l.map (·.core)) →
      (∀ a ∈ done, ∀ u ∈ us, a.core < u.2.core) →
      ∃ r, insertUpdates done.length us cur = .ok r ∧ SortedByCore r ∧
        r.Perm (l ++ done ++ us.map (·.2))
  | [], done, cur, hcur, hperm, _, _, _, _ => ⟨cur, rfl, hcur, by simpa using hperm⟩
  | (p, a) :: rest, done, cur, hcur, hperm, hus, hpos, hfresh, hdone => by
    have hdone_a : ∀ x ∈ done, x.core < a.core := fun x hx => hdone x hx _ (List.mem_cons_self _ _)
    have hpos_a : done.length + p = (cur.takeWhile (·.core < a.core)).length := by
      have hp : p = (l.takeWhile (·.core < a.core)).length := hpos _ (List.mem_cons_self _ _)
      rw [hcur.length_takeWhile_eq_countP, hperm.countP_eq, List.countP_append, hp,
        hl.length_takeWhile_eq_countP,
        (List.countP_eq_length (l := done)).mpr (fun x hx => by simpa using hdone_a x hx)]
      omega
    have hfresh_a : a.core ∉ cur.map (·.core) := by
      rw [(hperm.map _).mem_iff, List.map_append, List.mem_append, not_or]
      refine ⟨hfresh _ (List.mem_cons_self _ _), fun hm => ?_⟩
      obtain ⟨x, hx, he⟩ := List.mem_map.mp hm
      exact absurd he (Nat.ne_of_lt (hdone_a x hx))
    have hsorted := List.pairwise_cons.mp (show SortedByCore (a :: rest.map (·.2)) from hus)
    have hmove : (a :: (l ++ done)).Perm (l ++ (done ++ [a])) := by
      rw [← List.append_assoc]; exact (List.perm_append_singleton a _).symm
    obtain ⟨r, hr, hrs, hrp⟩ := insertUpdates_spec hl rest (done ++ [a]) (insertByCore a cur)
      (hcur.insertByCore hfresh_a) ((insertByCore_perm a cur).trans ((hperm.cons a).trans hmove))
      hsorted.2
      (fun u hu => hpos u (List.mem_cons_of_mem _ hu))
      (fun u hu => hfresh u (List.mem_cons_of_mem _ hu))
      (fun x hx u hu => by
        rcases List.mem_append.mp hx with hx | hx
        · exact hdone x hx u (List.mem_cons_of_mem _ hu)
        · rw [List.mem_singleton.mp hx]; exact hsorted.1 _ (List.mem_map_of_mem _ hu))
    refine ⟨r, ?_, hrs, by simpa using hrp⟩
    simp only [insertUpdates, hpos_a, vecInsert_takeWhile]
    simpa using hr
termination_by structural us => us

end SelendraScheduler
