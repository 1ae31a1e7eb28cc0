import NixKernel.Timers

/-!
# The timer lists

The lists hold the timers whose `tt` points to them, each in the order of `twhen`.
-/

namespace Timers

open LinkList SpinLock StepSystem List Option
open Function (update update_self update_of_ne update_eq_self)

set_option linter.unusedSectionVars false

variable {T M W : Type*} [DecidableEq T] [DecidableEq M] [DecidableEq W] [Fintype T]

/-- The list of a processor is `l m`: the timers that point to it, in order. -/
structure Lists (s : Sys T M W) (l : M → List T) : Prop where
  path : ∀ m, Path s.next (s.head m) (l m) none
  mem : ∀ m t, t ∈ l m ↔ s.tt t = some m
  sorted : ∀ m, (l m).Pairwise fun a b => s.twhen a ≤ s.twhen b

variable {s s' : Sys T M W} {l : M → List T} {k m : M} {t : T} {periodic : T → Bool}

theorem Lists.fuel (h : Lists s l) (m : M) : (l m).length < Fintype.card T + 1 :=
  Nat.lt_succ_of_le (h.path m).nodup.length_le_card

/-- Timers that are on no list do not matter. -/
theorem Lists.congr (h : Lists s l) (hnext : s'.next = s.next) (hhead : s'.head = s.head)
    (htt : s'.tt = s.tt) (hwhen : ∀ t, s.tt t ≠ none → s'.twhen t = s.twhen t) : Lists s' l := by
  refine ⟨fun m => ?_, fun m t => ?_, fun m => ?_⟩
  · rw [hnext, hhead]
    exact h.path m
  · rw [htt]
    exact h.mem m t
  · refine (h.sorted m).imp_of_mem fun {a b} ha hb hle => ?_
    have hon : ∀ c ∈ l m, s'.twhen c = s.twhen c := by
      intro c hc
      apply hwhen
      rw [(h.mem m c).mp hc]
      exact some_ne_none m
    rw [hon a ha, hon b hb]
    exact hle

/-- One list changes, with links of its own timers. -/
theorem Lists.replace {next : T → Option T} {head : Option T} {tt : T → Option M} {r : List T}
    (h : Lists s l) (hpath : Path next head r none) (hnext : ∀ a, a ∉ l k → a ∉ r → next a = s.next a)
    (hr : ∀ a, a ∈ r ↔ tt a = some k) (htt : ∀ m, m ≠ k → ∀ a, tt a = some m ↔ s.tt a = some m)
    (hsorted : r.Pairwise fun a b => s.twhen a ≤ s.twhen b) :
    Lists { s with next, head := update s.head k head, tt } (update l k r) := by
  have hmem : ∀ m t, t ∈ update l k r m ↔ tt t = some m := by
    intro m t
    by_cases hm : m = k
    · subst hm
      rw [update_self]
      exact hr t
    · rw [update_of_ne hm, h.mem, htt m hm]
  refine ⟨fun m => ?_, hmem, fun m => ?_⟩
  · dsimp only
    by_cases hm : m = k
    · subst hm
      rwa [update_self, update_self]
    · have hmem' := hmem m
      rw [update_of_ne hm] at hmem' ⊢
      rw [update_of_ne hm]
      apply (h.path m).frame
      intro a ha
      apply hnext
      · intro hk
        exact hm (some.inj (((h.mem m a).mp ha).symm.trans ((h.mem k a).mp hk)))
      · intro hk
        exact hm (some.inj (((hmem' a).mp ha).symm.trans ((hr a).mp hk)))
  · by_cases hm : m = k
    · subst hm
      rwa [update_self]
    · rw [update_of_ne hm]
      exact h.sorted m

/-- **`tdel`** takes the timer off the list it is on, if any. -/
theorem Lists.tdel (h : Lists s l) (t : T) : ∃ next head r,
    s.tdel t = some { s with next, head, tt := update s.tt t none } ∧
    Lists { s with next, head, tt := update s.tt t none } r := by
  cases htt : s.tt t with
  | none =>
    have hsame : update s.tt t none = s.tt := by
      rw [← htt, update_eq_self]
    rw [hsame]
    exact ⟨s.next, s.head, l, by simp only [Sys.tdel, htt], h⟩
  | some k =>
    obtain ⟨A, B, hAB, hsearch⟩ := (h.path k).search_mem ((h.mem k t).mpr htt) (h.fuel k)
    have hpath := h.path k
    have hnodup := hpath.nodup
    have hmemk := h.mem k
    have hsorted := h.sorted k
    rw [hAB] at hpath hnodup hmemk hsorted
    have hnot : t ∉ A ++ B := by
      rw [nodup_append_comm, cons_append, nodup_cons] at hnodup
      simpa [or_comm] using hnodup.1
    obtain ⟨p, hA, rfl, hB⟩ := path_append.mp hpath
    refine ⟨_, _, _, by simp only [Sys.tdel, htt, hsearch],
      h.replace (k := k) (hA.remove ⟨rfl, hB⟩) ?_ ?_ ?_ ?_⟩
    · intro a ha _
      cases hlast : A.getLast? with
      | none => rfl
      | some b =>
        have hb : b ∈ l k := by
          rw [hAB]
          exact mem_append_left _ (mem_of_getLast? hlast)
        apply update_of_ne
        rintro rfl
        exact ha hb
    · intro a
      by_cases hat : a = t
      · subst hat
        rw [update_self]
        exact iff_of_false hnot (by simp)
      · rw [update_of_ne hat, ← hmemk a]
        simp [hat]
    · intro m hm a
      by_cases hat : a = t
      · subst hat
        rw [update_self, htt]
        exact iff_of_false (by simp) (fun heq => hm (some.inj heq).symm)
      · rw [update_of_ne hat]
    · exact hsorted.sublist (List.Sublist.append_left (sublist_cons_self t B) A)

/-- **The head goes.** -/
theorem Lists.unlink (h : Lists s l) (hhead : s.head m = some t) :
    s.tt t = some m ∧ ∃ r, Lists (s.unlink m t) r := by
  have hpath := h.path m
  rw [hhead] at hpath
  obtain ⟨B, hB, hrest⟩ := hpath.of_some
  have hnodup := hpath.nodup
  have hmemm := h.mem m
  have hsorted := h.sorted m
  rw [hB] at hnodup hmemm hsorted
  have htt : s.tt t = some m := (hmemm t).mp mem_cons_self
  refine ⟨htt, _, h.replace hrest (fun _ _ _ => rfl) ?_ ?_ (pairwise_cons.mp hsorted).2⟩
  · intro a
    by_cases hat : a = t
    · subst hat
      rw [update_self]
      exact iff_of_false (nodup_cons.mp hnodup).1 (by simp)
    · rw [update_of_ne hat, ← hmemm a]
      simp [hat]
  · intro k hk a
    by_cases hat : a = t
    · subst hat
      rw [update_self, htt]
      exact iff_of_false (by simp) (fun heq => hk (some.inj heq).symm)
    · rw [update_of_ne hat]

/-- Behind the timers that are not due later comes the first that is. -/
theorem dropWhile_due {r : List T} {when : T → Int} {x : Int}
    (h : r.Pairwise fun a b => when a ≤ when b) :
    ∀ a ∈ r.dropWhile (fun a => !decide (when a > x)), x ≤ when a := by
  induction r with
  | nil => exact fun a ha => absurd ha not_mem_nil
  | cons b r ih =>
    obtain ⟨hb, hr⟩ := pairwise_cons.mp h
    by_cases hlate : when b > x
    · rw [dropWhile_cons_of_neg (by simpa using hlate)]
      intro a ha
      rcases mem_cons.mp ha with rfl | ha
      · exact Int.le_of_lt hlate
      · exact Int.le_trans (Int.le_of_lt hlate) (hb a ha)
    · rw [dropWhile_cons_of_pos (by simpa using hlate)]
      exact ih hr

/-- **The end of `tadd`** keeps the list in order. -/
theorem Lists.enter (h : Lists s l) (hoff : s.tt t = none) (m : M) : ∃ next head r,
    s.enter m t = some { s with next, head, tt := update s.tt t (some m) } ∧
    Lists { s with next, head, tt := update s.tt t (some m) } r := by
  have hsearch := @search_spec _ _ _ _ (fun a => decide (s.twhen a > s.twhen t)) _ none (h.path m) (h.fuel m)
  rw [or_none] at hsearch
  obtain ⟨hA, hB⟩ := (h.path m).split_while fun a => !decide (s.twhen a > s.twhen t)
  have hsplit := takeWhile_append_dropWhile (p := fun a => !decide (s.twhen a > s.twhen t))
    (l := l m)
  have hlate := dropWhile_due (x := s.twhen t) (h.sorted m)
  have hearly : ∀ a ∈ (l m).takeWhile (fun a => !decide (s.twhen a > s.twhen t)),
      s.twhen a ≤ s.twhen t := by
    intro a ha
    have := mem_takeWhile_imp ha
    simpa using this
  have hsorted := h.sorted m
  generalize (l m).takeWhile (fun a => !decide (s.twhen a > s.twhen t)) = A at *
  generalize (l m).dropWhile (fun a => !decide (s.twhen a > s.twhen t)) = B at *
  have hnot : t ∉ A ++ B := by
    rw [hsplit, h.mem, hoff]
    simp
  have hin : ∀ a, a ∈ A ++ B ↔ s.tt a = some m := by
    rw [hsplit]
    exact h.mem m
  refine ⟨_, _, _, by simp only [Sys.enter, hsearch],
    h.replace (k := m) (hA.insert hB hnot) ?_ ?_ ?_ ?_⟩
  · intro a ha hr
    have hat : a ≠ t := by
      rintro rfl
      exact hr (by simp)
    have hstep : update s.next t B.head? a = s.next a := update_of_ne hat ..
    rw [← hstep]
    cases hlast : A.getLast? with
    | none => rfl
    | some b =>
      apply update_of_ne
      rintro rfl
      exact hr (mem_append_left _ (mem_of_getLast? hlast))
  · intro a
    by_cases hat : a = t
    · subst hat
      simp
    · rw [update_of_ne hat, ← hin a]
      simp [hat]
  · intro k hk a
    by_cases hat : a = t
    · subst hat
      rw [update_self, hoff]
      exact iff_of_false (fun heq => hk (some.inj heq).symm) (by simp)
    · rw [update_of_ne hat]
  · rw [← hsplit] at hsorted
    obtain ⟨hsA, hsB, hcross⟩ := pairwise_append.mp hsorted
    refine pairwise_append.mpr ⟨hsA, pairwise_cons.mpr ⟨hlate, hsB⟩, fun a ha b hb => ?_⟩
    rcases mem_cons.mp hb with rfl | hb
    · exact hearly a ha
    · exact hcross a ha b hb

/-- The search for a timer of the same period ends. -/
theorem Lists.base (h : Lists s l) (m : M) (t : T) (fast : Int) :
    ∃ b, s.base periodic m t fast = some b := by
  have hsearch := @search_spec _ _ _ _ (fun a => periodic a && decide (s.tns a = s.tns t)) _ none (h.path m) (h.fuel m)
  unfold Sys.base
  split
  · rw [hsearch]
    cases ((l m).dropWhile fun a => !(periodic a && decide (s.tns a = s.tns t))).head? with
    | none => exact ⟨fast, rfl⟩
    | some a => exact ⟨s.twhen a, rfl⟩
  · exact ⟨s.twhen t, rfl⟩

/-- **`tadd`** of a timer that is on no list. -/
theorem Lists.tadd (h : Lists s l) (hoff : s.tt t = none) (m : M)
    (hperiod : periodic t = true → 100000 ≤ s.tns t) (fast ticks : Int) : ∃ next head twhen tns r,
    s.tadd periodic m t fast ticks =
      some { s with next, head, twhen, tns := update s.tns t tns, tt := update s.tt t (some m) } ∧
    Lists { s with next, head, twhen, tns := update s.tns t tns, tt := update s.tt t (some m) } r ∧
    (periodic t = true → tns = s.tns t) := by
  have hdue : ∃ tns twhen, s.due periodic m t fast ticks = some (tns, twhen) ∧
      (periodic t = true → tns = s.tns t) := by
    unfold Sys.due
    by_cases hp : periodic t = true
    · obtain ⟨b, hb⟩ := @Lists.base _ _ _ _ _ _ _ _ _ periodic h m t fast
      rw [if_pos hp, hb]
      exact ⟨_, _, rfl, fun _ => rfl⟩
    · rw [if_neg hp]
      exact ⟨_, _, rfl, fun hp' => absurd hp' hp⟩
  obtain ⟨tns, twhen, hdue, htns⟩ := hdue
  have hset : Lists { s with tns := update s.tns t tns, twhen := update s.twhen t twhen } l := by
    refine h.congr rfl rfl rfl fun a ha => ?_
    apply update_of_ne
    rintro rfl
    exact ha hoff
  obtain ⟨next, head, r, hrun, hlists⟩ := hset.enter hoff m
  refine ⟨next, head, _, tns, r, ?_, hlists, htns⟩
  have hlong : ¬ (periodic t ∧ s.tns t < 100000) := by
    rintro ⟨hp, hlt⟩
    exact absurd (hperiod hp) (by omega)
  unfold Sys.tadd
  rw [if_neg (not_not_intro hoff), if_neg hlong, hdue]
  exact hrun

end Timers
