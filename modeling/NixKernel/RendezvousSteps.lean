import NixKernel.RendezvousRun

/-!
# The steps of a rendezvous

Each step of a process or of a poster keeps the invariant; a run keeps it by induction.
-/

namespace Rendezvous

open LinkList Function ChainTable List Option

variable {s t : Rgrp} {tab : Nat → List Nat} {i j k p n : Nat} {tag val r : UInt64} {pc : Pc} {x : Poster}
  {lock : Option Agent}

/-- The lock follows the one party that moves. -/
theorem lock_change {lock' : Option Agent} {holds holds' : Agent → Bool} (h : ∀ a, lock = some a ↔ holds a = true)
    (w : Agent) (hoff : ∀ a, a ≠ w → holds' a = holds a)
    (hw : (lock' = lock ∧ holds' w = holds w) ∨ (lock = none ∧ lock' = some w ∧ holds' w = true) ∨
      (holds w = true ∧ lock' = none ∧ holds' w = false)) : ∀ a, lock' = some a ↔ holds' a = true := by
  intro a
  have ha := h a
  rcases hw with ⟨hlock, hsame⟩ | ⟨hfree, hlock, hhold⟩ | ⟨hheld, hlock, hgone⟩
  · by_cases haw : a = w
    · rw [haw, hlock, hsame]
      exact h w
    · rw [hlock, hoff a haw]
      exact ha
  · by_cases haw : a = w
    · rw [haw, hlock, hhold]
      exact iff_of_true rfl rfl
    · rw [hlock, hoff a haw, ← ha, hfree]
      exact iff_of_false (fun heq => haw (some.inj heq).symm) nofun
  · by_cases haw : a = w
    · rw [haw, hlock, hgone]
      exact iff_of_false nofun Bool.false_ne_true
    · rw [hlock, hoff a haw, ← ha, (h w).mpr hheld]
      exact iff_of_false nofun fun heq => haw (some.inj heq).symm

theorem holds_goto (hpc : t.pc = update s.pc i pc) (hposter : t.poster = s.poster) :
    (∀ a, a ≠ .proc i → t.holds a = s.holds a) ∧ t.holds (.proc i) = pc.holds := by
  refine ⟨fun a ha => ?_, ?_⟩
  · cases a with
    | proc j =>
      rw [Rgrp.holds, Rgrp.holds, hpc, update_of_ne fun heq : j = i => ha (congrArg Agent.proc heq)]
    | poster k => rw [Rgrp.holds, Rgrp.holds, hposter]
  · rw [Rgrp.holds, hpc, update_self]

theorem holds_post (hpc : t.pc = s.pc) (hposter : t.poster = update s.poster k x) :
    (∀ a, a ≠ .poster k → t.holds a = s.holds a) ∧ t.holds (.poster k) = x.holds := by
  refine ⟨fun a ha => ?_, ?_⟩
  · cases a with
    | proc j => rw [Rgrp.holds, Rgrp.holds, hpc]
    | poster k' =>
      rw [Rgrp.holds, Rgrp.holds, hposter, update_of_ne fun heq : k' = k => ha (congrArg Agent.poster heq)]
  · rw [Rgrp.holds, hposter, update_self]

/-- A process that is not making another one ready moves on. -/
theorem waking_goto (hpc : t.pc = update s.pc i pc) (hposter : t.poster = s.poster) (hlock : t.lock = s.lock)
    (hbefore : ∀ p val, s.pc i ≠ .paired p val) (hafter : ∀ p val, pc ≠ .paired p val) (p : Nat) :
    t.Waking p ↔ s.Waking p := by
  rw [Rgrp.Waking, Rgrp.Waking, hlock, hposter]
  refine or_congr_left (exists_congr fun j => exists_congr fun val => and_congr_right fun _ => ?_)
  rw [hpc]
  by_cases hj : j = i
  · rw [hj, update_self]
    exact iff_of_false (hafter p val) (hbefore p val)
  · rw [update_of_ne hj]

theorem waking_post (hpc : t.pc = s.pc) (hposter : t.poster = update s.poster k x) (hlock : t.lock = s.lock)
    (hbefore : ∀ p, s.poster k ≠ .pulled p) (hafter : ∀ p, x ≠ .pulled p) (p : Nat) : t.Waking p ↔ s.Waking p := by
  rw [Rgrp.Waking, Rgrp.Waking, hlock, hpc]
  refine or_congr_right (exists_congr fun k' => and_congr_right fun _ => ?_)
  rw [hposter]
  by_cases hk : k' = k
  · rw [hk, update_self]
    exact iff_of_false (hafter p) (hbefore p)
  · rw [update_of_ne hk]

theorem Inv.move (h : Inv s tab) (hlock : ∀ a, lock = some a ↔ ({ s with lock := lock }.goto i pc).holds a = true)
    (hwak : ∀ p, ({ s with lock := lock }.goto i pc).Waking p ↔ s.Waking p) (hi : i < s.nproc)
    (hsleep : s.Waking i → pc = .unlocked ∨ pc = .saved) (hproc : ProcOk ({ s with lock := lock }.goto i pc) i) :
    Inv ({ s with lock := lock }.goto i pc) tab := by
  refine ⟨h.chains, fun b p => ?_, hlock, fun p hp => ?_, fun j hj => ?_, fun j => ?_, h.calls⟩
  · rw [hwak]
    exact h.mem b p
  · obtain ⟨hstate, hpc⟩ := h.waking p ((hwak p).mp hp)
    refine ⟨hstate, ?_⟩
    change update s.pc i pc p = .unlocked ∨ update s.pc i pc p = .saved
    by_cases hpi : p = i
    · rw [hpi, update_self]
      exact hsleep (hpi ▸ (hwak p).mp hp)
    · rwa [update_of_ne hpi]
  · by_cases hji : j = i
    · exact hji ▸ hi
    · refine h.bound j fun huser => hj ?_
      change update s.pc i pc j = .user
      rwa [update_of_ne hji]
  · by_cases hji : j = i
    · exact hji ▸ hproc
    · exact (h.proc j).frame (update_of_ne hji _ _) rfl rfl rfl rfl (hwak j) (fun d c hd => ⟨c, hd, rfl⟩) fun _ => rfl

theorem Inv.movePoster (h : Inv s tab)
    (hlock : ∀ a, lock = some a ↔ ({ s with lock := lock }.post k x).holds a = true)
    (hwak : ∀ p, ({ s with lock := lock }.post k x).Waking p ↔ s.Waking p) :
    Inv ({ s with lock := lock }.post k x) tab := by
  refine ⟨h.chains, fun b p => ?_, hlock, fun p hp => h.waking p ((hwak p).mp hp), h.bound, fun j => ?_, h.calls⟩
  · rw [hwak]
    exact h.mem b p
  · exact (h.proc j).frame rfl rfl rfl rfl rfl (hwak j) (fun d c hd => ⟨c, hd, rfl⟩) fun _ => rfl

/-- `lock(up->rgrp)`. -/
theorem Inv.acquire (h : Inv s tab) (hpc : s.pc i = .entered tag val) (hfree : s.lock = none) :
    Inv ({ s with lock := some (.proc i) }.goto i (.locked tag val)) tab := by
  obtain ⟨hoff, hon⟩ := holds_goto (s := s) (t := { s with lock := some (.proc i) }.goto i (.locked tag val)) rfl rfl
  have hself : ({ s with lock := some (.proc i) }.goto i (.locked tag val)).pc i = .locked tag val := update_self _ _ _
  refine h.move (lock_change h.lock (.proc i) hoff (Or.inr (Or.inl ⟨hfree, rfl, hon⟩))) (fun p => ?_)
    (h.bound i (by rw [hpc]; exact nofun)) (fun hw => absurd hw (not_waking_of_free hfree i)) ?_
  · exact iff_of_false (not_waking_of_proc rfl (by rw [hself]; exact nofun) p) (not_waking_of_free hfree p)
  · have hproc := h.proc i
    rw [ProcOk, hpc] at hproc
    rw [ProcOk, hself]
    exact hproc

/-- The process that sleeps lets the lock go. -/
theorem Inv.sleep (h : Inv s tab) (hpc : s.pc i = .queued) : Inv ({ s with lock := none }.goto i .unlocked) tab := by
  obtain ⟨hoff, hon⟩ := holds_goto (s := s) (t := { s with lock := none }.goto i .unlocked) rfl rfl
  have hself : ({ s with lock := none }.goto i .unlocked).pc i = .unlocked := update_self _ _ _
  have hheld : s.holds (.proc i) = true := by
    rw [Rgrp.holds, hpc]
    rfl
  have hno := not_waking_of_proc ((h.lock (.proc i)).mpr hheld) (by rw [hpc]; exact nofun)
  refine h.move (lock_change h.lock (.proc i) hoff (Or.inr (Or.inr ⟨hheld, rfl, hon⟩))) (fun p => ?_)
    (h.bound i (by rw [hpc]; exact nofun)) (fun hw => absurd hw (hno i)) ?_
  · exact iff_of_false (not_waking_of_free rfl p) (hno p)
  · have hproc := h.proc i
    rw [ProcOk, hpc] at hproc
    rw [ProcOk, hself]
    exact Or.inl ⟨hproc.1, not_waking_of_free rfl i, hproc.2⟩

/-- `sched()` saves the process. -/
theorem Inv.save (h : Inv s tab) (hpc : s.pc i = .unlocked) : Inv (s.goto i .saved) tab := by
  obtain ⟨hoff, hon⟩ := holds_goto (s := s) (t := s.goto i .saved) rfl rfl
  have hself : (s.goto i .saved).pc i = .saved := update_self _ _ _
  have hwak := waking_goto (s := s) (t := s.goto i .saved) rfl rfl rfl (by rw [hpc]; exact nofun) nofun
  have hsame : s.holds (.proc i) = false := by
    rw [Rgrp.holds, hpc]
    rfl
  refine @Inv.move _ _ _ _ s.lock h (lock_change h.lock (.proc i) hoff (Or.inl ⟨rfl, hon.trans hsame.symm⟩)) hwak
    (h.bound i (by rw [hpc]; exact nofun)) (fun _ => Or.inr rfl) ?_
  have hproc := h.proc i
  rw [ProcOk, hpc] at hproc
  change ProcOk (s.goto i .saved) i
  rw [ProcOk, hself]
  rcases hproc with ⟨hr, hw, hopen⟩ | ⟨hr, hfate⟩
  · exact Or.inl ⟨hr, fun hw' => hw ((hwak i).mp hw'), hopen⟩
  · exact Or.inr ⟨hr.imp id (hwak i).mpr, hfate⟩

/-- The poster takes the lock. -/
theorem Inv.acquirePoster (h : Inv s tab) (hfree : s.lock = none) :
    Inv ({ s with lock := some (.poster k) }.post k (.locked p)) tab := by
  obtain ⟨hoff, hon⟩ := holds_post (s := s) (t := { s with lock := some (.poster k) }.post k (.locked p)) rfl rfl
  have hself : ({ s with lock := some (.poster k) }.post k (.locked p)).poster k = .locked p := update_self _ _ _
  refine h.movePoster (lock_change h.lock (.poster k) hoff (Or.inr (Or.inl ⟨hfree, rfl, hon⟩))) fun q => ?_
  exact iff_of_false (not_waking_of_poster rfl (by rw [hself]; exact nofun) q) (not_waking_of_free hfree q)

/-- The poster moves on and does not hold the lock, or finds that there is nothing to pull out. -/
theorem Inv.post (h : Inv s tab) (hbefore : ∀ p, s.poster k ≠ .pulled p) (hafter : ∀ p, x ≠ .pulled p)
    (hholds : x.holds = (s.poster k).holds) : Inv (s.post k x) tab := by
  obtain ⟨hoff, hon⟩ := holds_post (s := s) (t := s.post k x) rfl rfl
  exact @Inv.movePoster _ _ _ _ s.lock h (lock_change h.lock (.poster k) hoff (Or.inl ⟨rfl, hon.trans hholds⟩))
    (waking_post rfl rfl rfl hbefore hafter)

theorem Inv.releasePoster (h : Inv s tab) (hpc : s.poster k = .leaving) :
    Inv ({ s with lock := none }.post k .idle) tab := by
  obtain ⟨hoff, hon⟩ := holds_post (s := s) (t := { s with lock := none }.post k .idle) rfl rfl
  have hheld : s.holds (.poster k) = true := by rw [Rgrp.holds, hpc, Poster.holds]
  have hno := not_waking_of_poster ((h.lock (.poster k)).mpr hheld) (by rw [hpc]; exact nofun)
  refine h.movePoster (lock_change h.lock (.poster k) hoff (Or.inr (Or.inr ⟨hheld, rfl, hon⟩))) fun q => ?_
  exact iff_of_false (not_waking_of_free rfl q) (hno q)

theorem Inv.enter (h : Inv s tab) (hpc : s.pc i = .user) (hi : i < s.nproc) : Inv (s.enter i tag val) tab := by
  have hself : (s.enter i tag val).pc i = .entered tag val := update_self _ _ _
  obtain ⟨hoff, hon⟩ := holds_goto (s := s) (t := s.enter i tag val) rfl rfl
  have hfree : s.holds (.proc i) = false := by
    rw [Rgrp.holds, hpc]
    rfl
  have hwak := waking_goto (s := s) (t := s.enter i tag val) rfl rfl rfl (by rw [hpc]; exact nofun) nofun
  have hrun : s.state i = .running := by
    have hproc := h.proc i
    rwa [ProcOk, hpc] at hproc
  refine ⟨h.chains, fun b p => ?_, lock_change h.lock (.proc i) hoff (Or.inl ⟨rfl, hon.trans hfree.symm⟩),
    fun p hp => ?_, fun j hj => ?_, fun j => ?_, h.calls.concat i tag val⟩
  · rw [hwak]
    exact h.mem b p
  · obtain ⟨hstate, hsleep⟩ := h.waking p ((hwak p).mp hp)
    refine ⟨hstate, ?_⟩
    have hpi : p ≠ i := by
      rintro rfl
      rw [hpc] at hsleep
      rcases hsleep with hsleep | hsleep <;> cases hsleep
    change update s.pc i _ p = .unlocked ∨ update s.pc i _ p = .saved
    rwa [update_of_ne hpi]
  · by_cases hji : j = i
    · exact hji ▸ hi
    · refine h.bound j fun huser => hj ?_
      change update s.pc i _ j = .user
      rwa [update_of_ne hji]
  · by_cases hji : j = i
    · subst hji
      rw [ProcOk, hself]
      refine ⟨hrun, ?_⟩
      change (s.calls ++ [⟨j, tag, val, none, false, none⟩])[update s.cur j s.calls.length j]? = _
      rw [update_self, List.getElem?_concat_length]
    · refine (h.proc j).frame (update_of_ne hji _ _) rfl rfl (update_of_ne hji _ _) (update_of_ne hji _ _) (hwak j)
        (keeps_concat _ _) fun hj => ?_
      obtain ⟨c, hc, -⟩ := (h.proc j).mine hj
      exact List.getElem?_append_left (List.getElem?_eq_some_iff.mp hc).1

/-- **A call returns**, of a process that does not wait to be made ready.  It may have held the lock. -/
theorem Inv.ret (h : Inv s tab) {state : Nat → State} (hfate : Fate s.calls (s.cur i) i r)
    (hstate : ∀ j, j ≠ i → state j = s.state j) (hrun : state i = .running) (hsleep : s.state i ≠ .rendezvous)
    (hpaired : ∀ p val, s.pc i ≠ .paired p val) (hpc : s.pc i ≠ .user)
    (hlock : (lock = s.lock ∧ (s.pc i).holds = false) ∨ (lock = none ∧ (s.pc i).holds = true)) :
    Inv ({ s with lock := lock, state := state }.ret i r) tab := by
  have hself : ({ s with lock := lock, state := state }.ret i r).pc i = .user := update_self _ _ _
  obtain ⟨hoff, hon⟩ := holds_goto (s := s) (t := { s with lock := lock, state := state }.ret i r) rfl rfl
  have hafter : ∀ q v, Pc.user ≠ .paired q v := nofun
  have hwak : ∀ p, ({ s with lock := lock, state := state }.ret i r).Waking p ↔ s.Waking p := by
    intro p
    rcases hlock with ⟨hsame, -⟩ | ⟨hnone, hheld⟩
    · exact waking_goto (s := s) (t := { s with lock := lock, state := state }.ret i r) rfl rfl hsame hpaired hafter p
    · exact iff_of_false (not_waking_of_free hnone p)
        (not_waking_of_proc ((h.lock (.proc i)).mpr hheld) hpaired p)
  have hi : ¬s.Waking i := fun hw => hsleep (h.waking i hw).1
  refine ⟨h.chains, fun b p => ?_, lock_change h.lock (.proc i) hoff ?_, fun p hp => ?_, fun j hj => ?_, fun j => ?_,
    h.calls.ret hfate⟩
  · rw [hwak]
    change p ∈ tab b ↔ state p = .rendezvous ∧ rend (s.rendtag p) = b ∧ ¬s.Waking p
    by_cases hpi : p = i
    · subst hpi
      rw [h.mem b p, hrun]
      exact iff_of_false (fun hin => hsleep hin.1) fun hin => nomatch hin.1
    · rw [hstate p hpi]
      exact h.mem b p
  · rcases hlock with ⟨hsame, hno⟩ | ⟨hnone, hheld⟩
    · exact Or.inl ⟨hsame, hon.trans hno.symm⟩
    · exact Or.inr (Or.inr ⟨hheld, hnone, hon⟩)
  · have hpi : p ≠ i := fun heq => hi (heq ▸ (hwak p).mp hp)
    obtain ⟨hr, hpc'⟩ := h.waking p ((hwak p).mp hp)
    refine ⟨(hstate p hpi).trans hr, ?_⟩
    change update s.pc i _ p = .unlocked ∨ update s.pc i _ p = .saved
    rwa [update_of_ne hpi]
  · by_cases hji : j = i
    · exact absurd (hji ▸ hself) hj
    · refine h.bound j fun huser => hj ?_
      change update s.pc i _ j = .user
      rwa [update_of_ne hji]
  · by_cases hji : j = i
    · subst hji
      rw [ProcOk, hself]
      exact hrun
    · refine (h.proc j).frame (update_of_ne hji _ _) (hstate j hji) rfl rfl rfl (hwak j)
        (keeps_modify _ _ fun _ => rfl) fun hj => ?_
      change (s.calls.modify (s.cur i) _)[s.cur j]? = _
      rw [get_modify, if_neg (h.cur_ne hpc hj (Ne.symm hji))]

/-- **The process that was taken off its chain is made ready**, by whoever holds the lock. -/
theorem Inv.ready (h : Inv s tab) {pcs : Nat → Pc} {posters : Nat → Poster} (hp : s.Waking p)
    (hlock : ∀ a, s.lock = some a ↔
      ({ s with state := update s.state p .ready, pc := pcs, poster := posters } : Rgrp).holds a = true)
    (hno : ∀ q, ¬({ s with state := update s.state p .ready, pc := pcs, poster := posters } : Rgrp).Waking q)
    (honly : ∀ q, s.Waking q → q = p) (hpcs : ∀ j, (∀ q v, s.pc j ≠ .paired q v) → pcs j = s.pc j)
    (hleave : ∀ j q v, s.pc j = .paired q v → pcs j = .leaving v ∨ pcs j = s.pc j) :
    Inv { s with state := update s.state p .ready, pc := pcs, poster := posters } tab := by
  obtain ⟨hstate, hsleep⟩ := h.waking p hp
  have hpp : pcs p = s.pc p := by
    refine hpcs p fun q v => ?_
    rcases hsleep with hpc | hpc
    · rw [hpc]
      exact nofun
    · rw [hpc]
      exact nofun
  have hpaired : ∀ j q v, s.pc j = .paired q v → j ≠ p := by
    rintro j q v hj rfl
    rw [hj] at hsleep
    rcases hsleep with hsleep | hsleep <;> cases hsleep
  refine ⟨h.chains, fun b q => ?_, hlock, fun q hq => absurd hq (hno q), fun j hj => ?_, fun j => ?_, h.calls⟩
  · rw [h.mem b q]
    change _ ↔ update s.state p .ready q = .rendezvous ∧ rend (s.rendtag q) = b ∧ _
    by_cases hq : q = p
    · rw [hq, update_self]
      exact iff_of_false (fun hin => hin.2.2 hp) fun hin => nomatch hin.1
    · rw [update_of_ne hq]
      refine and_congr_right fun _ => and_congr_right fun _ => iff_of_true (fun hw => hq (honly q hw)) (hno q)
  · refine h.bound j fun huser => hj ?_
    exact (hpcs j (by rw [huser]; exact nofun)).trans huser
  · by_cases hjp : j = p
    · subst hjp
      have hsleep' : pcs j = .unlocked ∨ pcs j = .saved := by rwa [hpp]
      refine (procOk_asleep hsleep').mpr (Or.inr ⟨Or.inl (update_self _ _ _), ?_⟩)
      rcases (procOk_asleep hsleep).mp (h.proc j) with ⟨-, hw, -⟩ | ⟨-, hfate⟩
      · exact absurd hp hw
      · exact hfate
    · have hkeep : pcs j = s.pc j → ProcOk
          ({ s with state := update s.state p .ready, pc := pcs, poster := posters } : Rgrp) j := by
        intro hsame
        exact (h.proc j).frame hsame (update_of_ne hjp _ _) rfl rfl rfl
          (iff_of_false (hno j) fun hw => hjp (honly j hw)) (fun d c hd => ⟨c, hd, rfl⟩) fun _ => rfl
      by_cases hcase : ∃ q v, s.pc j = .paired q v
      · obtain ⟨q, v, hj⟩ := hcase
        rcases hleave j q v hj with hleave | hsame
        · obtain ⟨hrun, hfate⟩ := (procOk_paired hj).mp (h.proc j)
          exact (procOk_leaving hleave).mpr ⟨(update_of_ne hjp _ _).trans hrun, hfate⟩
        · exact hkeep hsame
      · exact hkeep (hpcs j fun q v hj => hcase ⟨q, v, hj⟩)

/-- A process on a chain is in the call. -/
theorem Inv.in_call (h : Inv s tab) (hstate : s.state p = .rendezvous) : s.pc p ≠ .user := by
  intro huser
  have hproc := h.proc p
  rw [ProcOk, huser, hstate] at hproc
  cases hproc

theorem Inv.length_lt (h : Inv s tab) (b : Nat) : (tab b).length < s.nproc + 1 :=
  (h.chains.path b).length_lt fun q hq => h.bound q (h.in_call ((h.mem b q).mp hq).1)

/-- **A process is taken off its chain** by the holder of the lock, who has decided its call. -/
theorem Inv.take {b : Nat} (h : Inv s tab) (hp : p ∈ tab b) (hno : ∀ q, ¬s.Waking q) (hown : s.lock ≠ some (.proc p))
    (hwak : ∀ q, t.Waking q ↔ q = p) (hchains : Chains t.head t.rendhash (update tab b ((tab b).erase p)))
    (hnproc : t.nproc = s.nproc) (hstate : t.state = s.state) (htag : t.rendtag = s.rendtag) (hcur : t.cur = s.cur)
    (hval : ∀ q, q ≠ p → t.rendval q = s.rendval q) (hlock : ∀ a, t.lock = some a ↔ t.holds a = true)
    (hkeeps : Keeps s.calls t.calls) (hcalls : CallsOk t.calls) (hfate : Fate t.calls (s.cur p) p (t.rendval p))
    (hpc : t.pc p = s.pc p)
    (hothers : ∀ j, j ≠ p → (t.pc j = s.pc j ∧ (s.pc j ≠ .user → t.calls[s.cur j]? = s.calls[s.cur j]?)) ∨
      (s.pc j ≠ .user ∧ ProcOk t j)) : Inv t (update tab b ((tab b).erase p)) := by
  obtain ⟨hsleep, -⟩ := h.sleeper ((h.mem b p).mp hp).1 (hno p) hown
  refine ⟨hchains, fun c q => ?_, hlock, fun q hq => ?_, fun j hj => ?_, fun j => ?_, hcalls⟩
  · rw [hstate, htag, hwak]
    have hin : q ∈ update tab b ((tab b).erase p) c ↔ q ∈ tab c ∧ q ≠ p := by
      by_cases hcb : c = b
      · rw [hcb, update_self, (h.chains.nodup b).mem_erase_iff, and_comm]
      · rw [update_of_ne hcb]
        refine (and_iff_left_of_imp fun hq => ?_).symm
        rintro rfl
        exact hcb (h.chains.disjoint c b q hq hp)
    rw [hin, h.mem c q, and_assoc, and_assoc]
    exact and_congr_right fun _ => and_congr_right fun _ => and_iff_right (hno q)
  · obtain rfl := (hwak q).mp hq
    rw [hstate, hpc]
    exact ⟨((h.mem b q).mp hp).1, hsleep⟩
  · rw [hnproc]
    refine h.bound j fun huser => ?_
    by_cases hjp : j = p
    · rw [hjp, hpc] at hj
      rw [hjp] at huser
      exact hj huser
    · rcases hothers j hjp with ⟨hsame, -⟩ | ⟨hin, -⟩
      · exact hj (hsame.trans huser)
      · exact hin huser
  · by_cases hjp : j = p
    · rw [hjp]
      refine (procOk_asleep (hpc ▸ hsleep)).mpr (Or.inr ⟨Or.inr ((hwak p).mpr rfl), ?_⟩)
      rw [hcur]
      exact hfate
    · rcases hothers j hjp with ⟨hsame, hcall⟩ | ⟨-, hproc⟩
      · refine (h.proc j).frame hsame (congrFun hstate j) (congrFun htag j) (hval j hjp) (congrFun hcur j) ?_ hkeeps
          hcall
        rw [hwak]
        exact iff_of_false hjp (hno j)
      · exact hproc

/-- **The partner is found.** -/
theorem Inv.pair {A B : List Nat} (h : Inv s tab) (hpc : s.pc i = .locked tag val) (htab : tab (rend tag) = A ++ p :: B)
    (htag : s.rendtag p = tag) : ∃ tab', Inv (s.pair i p A.getLast? tag val) tab' := by
  have hheld : s.holds (.proc i) = true := by
    rw [Rgrp.holds, hpc]
    rfl
  have hlock : s.lock = some (.proc i) := (h.lock (.proc i)).mpr hheld
  have hno := not_waking_of_proc hlock (by rw [hpc]; simp)
  have hp : p ∈ tab (rend tag) := by
    rw [htab]
    exact mem_append_right _ mem_cons_self
  have hmine := h.proc i
  rw [ProcOk, hpc] at hmine
  obtain ⟨hrun, hopen⟩ := hmine
  have hstate : s.state p = .rendezvous := ((h.mem _ p).mp hp).1
  have hip : i ≠ p := by
    rintro rfl
    rw [hrun] at hstate
    cases hstate
  have hown : s.lock ≠ some (.proc p) := by
    rw [hlock]
    exact fun heq => hip (Agent.proc.inj (some.inj heq))
  obtain ⟨-, hopen'⟩ := h.sleeper hstate (hno p) hown
  rw [htag] at hopen'
  obtain ⟨hcalls, hfate, hfate'⟩ := h.calls.pair hopen hopen' hip
  have hself : (s.pair i p A.getLast? tag val).pc i = .paired p (s.rendval p) := update_self _ _ _
  have hvalp : (s.pair i p A.getLast? tag val).rendval p = val := update_self _ _ _
  obtain ⟨hoff, hon⟩ := holds_goto (s := s) (t := s.pair i p A.getLast? tag val) rfl rfl
  have hpA : p ∉ A := by
    have hnodup := h.chains.nodup (rend tag)
    rw [htab, nodup_append] at hnodup
    exact fun hmem => hnodup.2.2 p hmem p mem_cons_self rfl
  have herase : (tab (rend tag)).erase p = A ++ B := by
    rw [htab, erase_append_right _ hpA, erase_cons_head]
  have hout : s.pc p ≠ .user := h.in_call hstate
  have hin : s.pc i ≠ .user := by
    rw [hpc]
    simp
  refine ⟨_, h.take (t := s.pair i p A.getLast? tag val) hp hno hown (fun q => ?_) ?_ rfl rfl rfl rfl
    (fun q hq => update_of_ne hq _ _) (lock_change h.lock (.proc i) hoff (Or.inl ⟨rfl, hon.trans hheld.symm⟩))
    (keeps_paired _ _ _) hcalls ?_ (update_of_ne hip.symm _ _) fun j hj => ?_⟩
  · constructor
    · rintro (⟨j, v, hj, hjpc⟩ | ⟨k, hk, -⟩)
      · have hji : i = j := Agent.proc.inj (some.inj (hlock.symm.trans hj))
        rw [← hji, hself] at hjpc
        cases hjpc
        rfl
      · cases hlock.symm.trans hk
    · rintro rfl
      exact Or.inl ⟨i, _, hlock, hself⟩
  · rw [herase]
    exact h.chains.remove htab
  · rw [hvalp]
    exact hfate'
  · by_cases hji : j = i
    · subst hji
      refine Or.inr ⟨hin, (procOk_paired hself).mpr ⟨hrun, hfate⟩⟩
    · refine Or.inl ⟨update_of_ne hji _ _, fun hj' => ?_⟩
      change (paired s.calls (s.cur i) (s.cur p))[s.cur j]? = _
      rw [get_paired (h.cur_ne hin hout hip), if_neg (h.cur_ne hj' hin hji), if_neg (h.cur_ne hj' hout hj)]

/-- **No partner is there**: the process is linked at the end of the chain. -/
theorem Inv.queue (h : Inv s tab) (hpc : s.pc i = .locked tag val) :
    ∃ tab', Inv (s.queue i (tab (rend tag)).getLast? tag val) tab' := by
  have hheld : s.holds (.proc i) = true := by
    rw [Rgrp.holds, hpc]
    rfl
  have hlock : s.lock = some (.proc i) := (h.lock (.proc i)).mpr hheld
  have hno := not_waking_of_proc hlock (by rw [hpc]; simp)
  have hmine := h.proc i
  rw [ProcOk, hpc] at hmine
  obtain ⟨hrun, hopen⟩ := hmine
  have hnot : ∀ b, i ∉ tab b := by
    intro b hb
    rw [((h.mem b i).mp hb).1] at hrun
    cases hrun
  have hself : (s.queue i (tab (rend tag)).getLast? tag val).pc i = .queued := update_self _ _ _
  have hno' : ∀ q, ¬(s.queue i (tab (rend tag)).getLast? tag val).Waking q :=
    not_waking_of_proc hlock (by rw [hself]; simp)
  obtain ⟨hoff, hon⟩ := holds_goto (s := s) (t := s.queue i (tab (rend tag)).getLast? tag val) rfl rfl
  refine ⟨update tab (rend tag) (tab (rend tag) ++ [i]), h.chains.concat hnot (rend tag), fun b q => ?_,
    lock_change h.lock (.proc i) hoff (Or.inl ⟨rfl, hon.trans hheld.symm⟩), fun q hq => absurd hq (hno' q),
    fun j hj => ?_, fun j => ?_, h.calls⟩
  · change _ ↔ update s.state i .rendezvous q = .rendezvous ∧ rend (update s.rendtag i tag q) = b ∧ _
    by_cases hqi : q = i
    · subst hqi
      rw [update_self, update_self]
      by_cases hb : b = rend tag
      · rw [hb, update_self]
        exact iff_of_true (mem_append_right _ mem_cons_self) ⟨rfl, rfl, hno' q⟩
      · rw [update_of_ne hb]
        exact iff_of_false (hnot b) fun hin => hb hin.2.1.symm
    · rw [update_of_ne hqi, update_of_ne hqi]
      have hold : q ∈ update tab (rend tag) (tab (rend tag) ++ [i]) b ↔ q ∈ tab b := by
        by_cases hb : b = rend tag
        · rw [hb, update_self, mem_append, mem_singleton, or_iff_left hqi]
        · rw [update_of_ne hb]
      rw [hold, h.mem b q]
      exact and_congr_right fun _ => and_congr_right fun _ => iff_of_true (hno q) (hno' q)
  · by_cases hji : j = i
    · exact hji ▸ h.bound i (by rw [hpc]; simp)
    · refine h.bound j fun huser => hj ?_
      change update s.pc i _ j = .user
      rwa [update_of_ne hji]
  · by_cases hji : j = i
    · subst hji
      have htag' : (s.queue j (tab (rend tag)).getLast? tag val).rendtag j = tag := update_self _ _ _
      have hval' : (s.queue j (tab (rend tag)).getLast? tag val).rendval j = val := update_self _ _ _
      rw [ProcOk, hself, htag', hval']
      exact ⟨update_self _ _ _, hopen⟩
    · exact (h.proc j).frame (update_of_ne hji _ _) (update_of_ne hji _ _) (update_of_ne hji _ _)
        (update_of_ne hji _ _) rfl (iff_of_false (hno' j) (hno j)) (fun d c hd => ⟨c, hd, rfl⟩) fun _ => rfl

/-- The loop of `sysrendezvous`. -/
theorem Inv.search (h : Inv s tab) (hpc : s.pc i = .locked tag val) :
    ∃ t tab', s.search i tag val = some t ∧ Inv t tab' := by
  have hsearch := @search_spec _ _ _ _ (fun p => decide (s.rendtag p = tag)) _ none (h.chains.path (rend tag))
    (h.length_lt (rend tag))
  rw [or_none] at hsearch
  rw [Rgrp.search, hsearch, map_some]
  have hsplit := takeWhile_append_dropWhile (p := fun p => !decide (s.rendtag p = tag)) (l := tab (rend tag))
  cases hrest : (tab (rend tag)).dropWhile fun p => !decide (s.rendtag p = tag) with
  | nil =>
    rw [hrest, append_nil] at hsplit
    rw [hsplit]
    obtain ⟨tab', hinv⟩ := h.queue hpc
    exact ⟨_, tab', rfl, hinv⟩
  | cons p B =>
    rw [hrest] at hsplit
    have htag : s.rendtag p = tag := by
      have hhead := List.head?_dropWhile_not (fun p => !decide (s.rendtag p = tag)) (tab (rend tag))
      rw [hrest] at hhead
      simpa using hhead
    obtain ⟨tab', hinv⟩ := h.pair hpc hsplit.symm htag
    exact ⟨_, tab', rfl, hinv⟩

/-- **A note pulls a process out.** -/
theorem Inv.pull (h : Inv s tab) (hpc : s.poster k = .locked p) : ∃ t tab', s.pull k p = some t ∧ Inv t tab' := by
  rw [Rgrp.pull]
  by_cases hstate : s.state p = .rendezvous
  · have hheld : s.holds (.poster k) = true := by
      rw [Rgrp.holds, hpc]
      rfl
    have hlock : s.lock = some (.poster k) := (h.lock (.poster k)).mpr hheld
    have hno := not_waking_of_poster hlock (by rw [hpc]; exact nofun)
    have hown : s.lock ≠ some (.proc p) := by
      rw [hlock]
      exact nofun
    have hp : p ∈ tab (rend (s.rendtag p)) := (h.mem _ p).mpr ⟨hstate, rfl, hno p⟩
    obtain ⟨-, hopen⟩ := h.sleeper hstate (hno p) hown
    obtain ⟨q, links, hrun, hchains⟩ := h.chains.unlink (rend (s.rendtag p)) p (h.length_lt _)
    rw [if_pos hstate, hrun, map_some]
    refine ⟨_, update tab (rend (s.rendtag p)) ((tab (rend (s.rendtag p))).erase p), rfl, ?_⟩
    have hout : s.pc p ≠ .user := h.in_call hstate
    have hget : (s.calls.modify (s.cur p) fun c => { c with interrupted := true })[s.cur p]? =
        some ⟨p, s.rendtag p, s.rendval p, none, true, none⟩ := by
      rw [get_modify, if_pos rfl, hopen]
      rfl
    refine h.take (b := rend (s.rendtag p)) hp hno hown (fun q => ?_) hchains rfl rfl rfl rfl
      (fun q hq => update_of_ne hq _ _) ?_ (keeps_modify _ _ fun _ => rfl) (h.calls.interrupt hopen) ?_ rfl
      fun j hj => Or.inl ⟨rfl, fun hj' => ?_⟩
    · constructor
      · rintro (⟨j, v, hj, -⟩ | ⟨k', hk, hkpc⟩)
        · cases hlock.symm.trans hj
        · have hkk : k = k' := Agent.poster.inj (some.inj (hlock.symm.trans hk))
          subst hkk
          have hself : update s.poster k (.pulled p) k = .pulled p := update_self _ _ _
          cases hself.symm.trans hkpc
          rfl
      · rintro rfl
        exact Or.inr ⟨k, hlock, update_self _ _ _⟩
    · have hkept : ∀ t : Rgrp, t.lock = s.lock → t.pc = s.pc → t.poster = update s.poster k (.pulled p) →
          ∀ a, t.lock = some a ↔ t.holds a = true := by
        intro t hsame hpcs hposter
        obtain ⟨hoff, hon⟩ := holds_post hpcs hposter
        exact lock_change h.lock (.poster k) hoff (Or.inl ⟨hsame, hon.trans hheld.symm⟩)
      exact hkept _ rfl rfl rfl
    · have hval : update s.rendval p nil p = nil := update_self _ _ _
      change Fate (s.calls.modify (s.cur p) fun c => { c with interrupted := true }) (s.cur p) p
        (update s.rendval p nil p)
      rw [hval]
      exact ⟨_, hget, rfl, rfl, Or.inr ⟨rfl, rfl⟩⟩
    · change (s.calls.modify (s.cur p) _)[s.cur j]? = _
      rw [get_modify, if_neg (h.cur_ne hout hj' (Ne.symm hj))]
  · rw [if_neg hstate]
    refine ⟨_, tab, rfl, h.post (by rw [hpc]; exact nofun) nofun ?_⟩
    rw [hpc]
    rfl

/-- `ready(p)` of the partner. -/
theorem Inv.readyPaired (h : Inv s tab) (hpc : s.pc i = .paired p val) :
    Inv ({ s with state := update s.state p .ready }.goto i (.leaving val)) tab := by
  obtain ⟨hoff, hon⟩ := holds_goto (s := s) (t := { s with state := update s.state p .ready }.goto i (.leaving val)) rfl
    rfl
  have hheld : s.holds (.proc i) = true := by
    rw [Rgrp.holds, hpc]
    rfl
  have hlock : s.lock = some (.proc i) := (h.lock (.proc i)).mpr hheld
  have hself : ({ s with state := update s.state p .ready }.goto i (.leaving val)).pc i = .leaving val :=
    update_self _ _ _
  refine h.ready (Or.inl ⟨i, val, hlock, hpc⟩)
    (lock_change h.lock (.proc i) hoff (Or.inl ⟨rfl, hon.trans hheld.symm⟩))
    (not_waking_of_proc hlock fun _ _ heq => nomatch hself.symm.trans heq) ?_ ?_ ?_
  · rintro q (⟨j, v, hj, hjpc⟩ | ⟨k, hk, -⟩)
    · have hji : i = j := Agent.proc.inj (some.inj (hlock.symm.trans hj))
      rw [← hji, hpc] at hjpc
      cases hjpc
      rfl
    · cases hlock.symm.trans hk
  · intro j hj
    refine update_of_ne ?_ _ _
    rintro rfl
    exact hj p val hpc
  · intro j q v hj
    by_cases hji : j = i
    · subst hji
      rw [hpc] at hj
      cases hj
      exact Or.inl (update_self _ _ _)
    · exact Or.inr (update_of_ne hji _ _)

/-- `ready(p)` of the process that is pulled out. -/
theorem Inv.readyPulled (h : Inv s tab) (hpc : s.poster k = .pulled p) :
    Inv ({ s with state := update s.state p .ready }.post k .leaving) tab := by
  obtain ⟨hoff, hon⟩ := holds_post (s := s) (t := { s with state := update s.state p .ready }.post k .leaving) rfl rfl
  have hheld : s.holds (.poster k) = true := by rw [Rgrp.holds, hpc, Poster.holds]
  have hlock : s.lock = some (.poster k) := (h.lock (.poster k)).mpr hheld
  have hself : ({ s with state := update s.state p .ready }.post k .leaving).poster k = .leaving := update_self _ _ _
  refine h.ready (Or.inr ⟨k, hlock, hpc⟩)
    (lock_change h.lock (.poster k) hoff (Or.inl ⟨rfl, hon.trans hheld.symm⟩))
    (not_waking_of_poster hlock fun _ heq => nomatch hself.symm.trans heq) ?_ (fun _ _ => rfl) fun _ _ _ _ => Or.inr rfl
  rintro q (⟨j, v, hj, -⟩ | ⟨k', hk, hkpc⟩)
  · cases hlock.symm.trans hj
  · have hkk : k = k' := Agent.poster.inj (some.inj (hlock.symm.trans hk))
    rw [← hkk, hpc] at hkpc
    cases hkpc
    rfl

theorem inv_init (nproc : Nat) : Inv (init nproc) fun _ => [] where
  chains := ⟨fun _ => rfl, fun _ _ _ h => nomatch h⟩
  mem _ _ := iff_of_false nofun fun h => nomatch h.1
  lock a := by cases a <;> exact iff_of_false nofun nofun
  waking p hp := absurd hp (not_waking_of_free rfl p)
  bound _ h := absurd rfl h
  proc _ := rfl
  calls _ _ h := nomatch h

/-- A process goes on. -/
theorem Inv.step (h : Inv s tab) (hstep : s.step i = some t) : ∃ tab', Inv t tab' := by
  rw [Rgrp.step] at hstep
  cases hpc : s.pc i with
  | user =>
    rw [hpc] at hstep
    cases hstep
  | entered tag val =>
    rw [hpc] at hstep
    obtain ⟨hfree, heq⟩ := ite_none_right_eq_some.mp hstep
    cases heq
    exact ⟨tab, h.acquire hpc hfree⟩
  | locked tag val =>
    rw [hpc] at hstep
    obtain ⟨t', tab', hsearch, hinv⟩ := h.search hpc
    cases hsearch.symm.trans hstep
    exact ⟨tab', hinv⟩
  | paired p val =>
    rw [hpc] at hstep
    obtain ⟨-, heq⟩ := ite_none_right_eq_some.mp hstep
    cases heq
    exact ⟨tab, h.readyPaired hpc⟩
  | leaving val =>
    rw [hpc] at hstep
    cases hstep
    obtain ⟨hrun, hfate⟩ := (procOk_leaving hpc).mp (h.proc i)
    refine ⟨tab, @Inv.ret _ _ _ _ _ h s.state hfate (fun _ _ => rfl) hrun (by rw [hrun]; exact nofun)
      (by rw [hpc]; exact nofun) (by rw [hpc]; exact nofun) (Or.inr ⟨rfl, ?_⟩)⟩
    rw [hpc]
    rfl
  | queued =>
    rw [hpc] at hstep
    cases hstep
    exact ⟨tab, h.sleep hpc⟩
  | unlocked =>
    rw [hpc] at hstep
    cases hstep
    exact ⟨tab, h.save hpc⟩
  | saved =>
    rw [hpc] at hstep
    obtain ⟨hready, heq⟩ := ite_none_right_eq_some.mp hstep
    cases heq
    -- it is ready, so its call is decided
    rcases (procOk_asleep (Or.inr hpc)).mp (h.proc i) with ⟨hstate, -⟩ | ⟨-, hfate⟩
    · rw [hready] at hstate
      cases hstate
    · refine ⟨tab, @Inv.ret _ _ _ _ s.lock h _ hfate (fun j hj => update_of_ne hj _ _) (update_self _ _ _)
        (by rw [hready]; exact nofun) (by rw [hpc]; exact nofun) (by rw [hpc]; exact nofun) (Or.inl ⟨rfl, ?_⟩)⟩
      rw [hpc]
      rfl

/-- A poster goes on. -/
theorem Inv.poststep (h : Inv s tab) (hstep : s.poststep k = some t) : ∃ tab', Inv t tab' := by
  rw [Rgrp.poststep] at hstep
  cases hpc : s.poster k with
  | idle =>
    rw [hpc] at hstep
    cases hstep
  | wants p =>
    rw [hpc] at hstep
    obtain ⟨hfree, heq⟩ := ite_none_right_eq_some.mp hstep
    cases heq
    exact ⟨tab, h.acquirePoster hfree⟩
  | locked p =>
    rw [hpc] at hstep
    obtain ⟨t', tab', hpull, hinv⟩ := h.pull hpc
    cases hpull.symm.trans hstep
    exact ⟨tab', hinv⟩
  | pulled p =>
    rw [hpc] at hstep
    cases hstep
    exact ⟨tab, h.readyPulled hpc⟩
  | leaving =>
    rw [hpc] at hstep
    cases hstep
    exact ⟨tab, h.releasePoster hpc⟩

/-- **Every step keeps the invariant.** -/
theorem Inv.act {a : Act} (h : Inv s tab) (hact : Rendezvous.act s a = some t) : ∃ tab', Inv t tab' := by
  cases a with
  | enter i tag val =>
    obtain ⟨⟨hpc, hi⟩, heq⟩ := ite_none_right_eq_some.mp hact
    cases heq
    exact ⟨tab, h.enter hpc hi⟩
  | proc i => exact h.step hact
  | notice k p =>
    obtain ⟨hidle, heq⟩ := ite_none_right_eq_some.mp hact
    split at heq
    · cases heq
      refine ⟨tab, h.post (by rw [hidle]; exact nofun) nofun ?_⟩
      rw [hidle]
      rfl
    · cases heq
      exact ⟨tab, h⟩
  | poster k => exact h.poststep hact

/-- **Every exchange is whole and the chains are right**, for any number of processes, in every interleaving of calls
and notes. -/
theorem rendezvous_pairs (nproc : Nat) (hr : StepSystem.Reach (fun s => s = init nproc) step s) :
    (∀ (n : Nat) c r, s.calls[n]? = some c → c.result = some r → Fair s.calls n c r) ∧ s.Chained ∧
      ∀ p, s.lock = none → ¬s.Waking p := by
  have hinv : ∃ tab, Inv s tab := by
    refine hr.invariant (fun s => ∃ tab, Inv s tab) ?_ ?_
    · rintro s rfl
      exact ⟨_, inv_init nproc⟩
    · rintro s a t ⟨tab, h⟩ hstep
      exact h.act hstep
  obtain ⟨tab, h⟩ := hinv
  exact ⟨fun n c r hn hresult => h.calls.fair hn hresult, ⟨tab, h.chains, h.mem⟩, fun p hfree =>
    not_waking_of_free hfree p⟩

/-- The process 0 waits on tag 5, and the process 1 comes. -/
def meeting : List Act :=
  [.enter 0 5 7, .proc 0, .proc 0, .proc 0, .enter 1 5 8, .proc 1, .proc 0, .proc 1, .proc 1, .proc 0, .proc 1]

/-- Each has the value of the other. -/
theorem rendezvous_pairs_meeting : ∃ s, StepSystem.exec act (init 2) meeting = some s ∧
    s.calls = [⟨0, 5, 7, some 1, false, some 8⟩, ⟨1, 5, 8, some 0, false, some 7⟩] ∧
    (∀ (n : Nat) c r, s.calls[n]? = some c → c.result = some r → Fair s.calls n c r) ∧ s.Chained := by
  have hrun : StepSystem.exec act (init 2) meeting = some ((StepSystem.exec act (init 2) meeting).getD (init 2)) :=
    StepSystem.exec_getD (by decide +kernel)
  have hreach := (@StepSystem.Reach.start _ _ (fun s => s = init 2) step _ rfl).exec hrun
    fun _ _ _ _ => id
  obtain ⟨hfair, hchained, -⟩ := rendezvous_pairs 2 hreach
  exact ⟨_, hrun, by decide +kernel, hfair, hchained⟩

end Rendezvous
