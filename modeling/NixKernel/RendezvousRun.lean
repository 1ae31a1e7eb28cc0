import NixKernel.Rendezvous

/-!
# Every exchange of a rendezvous is whole

The invariant says what each process is due.  One that is on a chain has its tag and value where a
partner finds them, and its call is not decided; one that is off it again has in `rendval` what it
will return, and its call has a partner or was interrupted.
-/

namespace Rendezvous

open LinkList Function ChainTable

variable {s t : Rgrp} {tab : Nat → List Nat} {calls : List Call} {c : Call} {i j p n : Nat} {tag val r : UInt64}

/-- What a decided call will return. -/
def Due (calls : List Call) (c : Call) (r : UInt64) : Prop :=
  (c.interrupted = false ∧ ∃ (d : Nat) (c' : Call), calls[d]? = some c' ∧ c.partner = some d ∧ r = c'.val) ∨
    (c.interrupted = true ∧ r = nil)

/-- The call has not returned and will return `r`. -/
def Fate (calls : List Call) (n i : Nat) (r : UInt64) : Prop :=
  ∃ c, calls[n]? = some c ∧ c.proc = i ∧ c.result = none ∧ Due calls c r

/-- The call has not been decided. -/
def Open (calls : List Call) (n i : Nat) (tag val : UInt64) : Prop := calls[n]? = some ⟨i, tag, val, none, false, none⟩

/-- Partners are partners of each other, with the same tag. -/
structure CallOk (calls : List Call) (n : Nat) (c : Call) : Prop where
  partner : ∀ d, c.partner = some d → ∃ c' : Call, calls[d]? = some c' ∧ c'.partner = some n ∧ c'.proc ≠ c.proc ∧
    c'.tag = c.tag
  interrupted : c.interrupted = true → c.partner = none
  result : ∀ r, c.result = some r → Due calls c r

def CallsOk (calls : List Call) : Prop := ∀ n c, calls[n]? = some c → CallOk calls n c

theorem CallsOk.fair (h : CallsOk calls) (hn : calls[n]? = some c) (hr : c.result = some r) : Fair calls n c r := by
  have hok := h n c hn
  have hdue := hok.result r hr
  constructor
  · intro hfree
    rcases hdue with ⟨-, d, c', hd, hpartner, hval⟩ | ⟨hnote, -⟩
    · obtain ⟨c'', hd', hback, hproc, htag⟩ := hok.partner d hpartner
      rw [hd] at hd'
      cases hd'
      have hok' := h d c' hd
      have hfree' : c'.interrupted = false := by
        refine Bool.eq_false_iff.mpr fun hnote => ?_
        rw [hok'.interrupted hnote] at hback
        cases hback
      refine ⟨d, c', hd, hpartner, hback, hproc, htag, hfree', hval, fun r' hr' => ?_⟩
      rcases hok'.result r' hr' with ⟨-, e, c'', he, hpartner', hval'⟩ | ⟨hnote, -⟩
      · rw [hback] at hpartner'
        cases hpartner'
        rw [hn] at he
        cases he
        exact hval'
      · rw [hfree'] at hnote
        cases hnote
    · rw [hfree] at hnote
      cases hnote
  · intro hnote
    refine ⟨?_, hok.interrupted hnote⟩
    rcases hdue with ⟨hfree, -⟩ | ⟨-, hval⟩
    · rw [hnote] at hfree
      cases hfree
    · exact hval
  · intro d c' hd hback
    obtain ⟨c'', hn', hpartner, -⟩ := (h d c' hd).partner n hback
    rw [hn] at hn'
    cases hn'
    exact hpartner

/-- The values of the calls are kept. -/
def Keeps (calls calls' : List Call) : Prop :=
  ∀ (d : Nat) (c : Call), calls[d]? = some c → ∃ c' : Call, calls'[d]? = some c' ∧ c'.val = c.val

theorem Keeps.due {calls' : List Call} (h : Keeps calls calls') (hdue : Due calls c r) : Due calls' c r := by
  rcases hdue with ⟨hfree, d, c', hd, hpartner, hval⟩ | hnote
  · obtain ⟨c'', hd', hsame⟩ := h d c' hd
    exact Or.inl ⟨hfree, d, c'', hd', hpartner, hval.trans hsame.symm⟩
  · exact Or.inr hnote

theorem Keeps.fate {calls' : List Call} (h : Keeps calls calls') (hfate : Fate calls n i r)
    (hn : calls'[n]? = calls[n]?) : Fate calls' n i r := by
  obtain ⟨c, hc, hproc, hresult, hdue⟩ := hfate
  exact ⟨c, hn.trans hc, hproc, hresult, h.due hdue⟩

theorem keeps_concat (calls : List Call) (c : Call) : Keeps calls (calls ++ [c]) := by
  intro d c' hd
  refine ⟨c', ?_, rfl⟩
  rw [List.getElem?_append_left (List.getElem?_eq_some_iff.mp hd).1, hd]

theorem get_modify (calls : List Call) (n d : Nat) (f : Call → Call) :
    (calls.modify n f)[d]? = if n = d then (calls[d]?).map f else calls[d]? := by
  rw [List.getElem?_modify]
  by_cases h : n = d
  · simp only [if_pos h]
    rfl
  · simp only [if_neg h]
    exact id_map _

theorem keeps_modify (calls : List Call) (n : Nat) {f : Call → Call} (hf : ∀ c, (f c).val = c.val) :
    Keeps calls (calls.modify n f) := by
  intro d c hd
  rw [get_modify, hd]
  split
  · exact ⟨f c, rfl, hf c⟩
  · exact ⟨c, rfl, rfl⟩

/-- A new call. -/
theorem CallsOk.concat (h : CallsOk calls) (i : Nat) (tag val : UInt64) :
    CallsOk (calls ++ [⟨i, tag, val, none, false, none⟩]) := by
  intro n c hn
  rw [List.getElem?_append] at hn
  split at hn
  · have hok := h n c hn
    refine ⟨fun d hd => ?_, hok.interrupted, fun r hr => (keeps_concat calls _).due (hok.result r hr)⟩
    obtain ⟨c', hc', hrest⟩ := hok.partner d hd
    refine ⟨c', ?_, hrest⟩
    rw [List.getElem?_append_left (List.getElem?_eq_some_iff.mp hc').1, hc']
  · rw [List.getElem?_singleton] at hn
    split at hn
    · cases hn
      exact ⟨nofun, nofun, nofun⟩
    · cases hn

/-- A call that is decided returns. -/
theorem CallsOk.ret (h : CallsOk calls) (hfate : Fate calls n i r) :
    CallsOk (calls.modify n fun c => { c with result := some r }) := by
  have hkeeps := keeps_modify calls n (f := fun c => { c with result := some r }) fun _ => rfl
  have hpartner : ∀ (d : Nat) (c : Call), calls[d]? = some c → ∃ c' : Call,
      (calls.modify n fun c => { c with result := some r })[d]? = some c' ∧ c'.partner = c.partner ∧
        c'.proc = c.proc ∧ c'.tag = c.tag := by
    intro d c hd
    rw [get_modify, hd]
    split
    · exact ⟨_, rfl, rfl, rfl, rfl⟩
    · exact ⟨_, rfl, rfl, rfl, rfl⟩
  have hmove : ∀ m c, CallOk calls m c → ∀ d, c.partner = some d → ∃ c' : Call,
      (calls.modify n fun c => { c with result := some r })[d]? = some c' ∧ c'.partner = some m ∧
        c'.proc ≠ c.proc ∧ c'.tag = c.tag := by
    intro m c hok d hd
    obtain ⟨c', hc', hback, hproc, htag⟩ := hok.partner d hd
    obtain ⟨c'', hc'', h1, h2, h3⟩ := hpartner d c' hc'
    exact ⟨c'', hc'', h1.trans hback, fun heq => hproc (h2.symm.trans heq), h3.trans htag⟩
  intro m c hm
  rw [get_modify] at hm
  split at hm
  · next heq =>
    subst heq
    obtain ⟨c₀, hc₀, -, -, hdue⟩ := hfate
    rw [hc₀] at hm
    cases hm
    have hok := h n c₀ hc₀
    refine ⟨hmove n c₀ hok, hok.interrupted, fun r' hr' => ?_⟩
    cases hr'
    exact hkeeps.due hdue
  · have hok := h m c hm
    exact ⟨hmove m c hok, hok.interrupted, fun r' hr' => hkeeps.due (hok.result r' hr')⟩

/-- A call that is not decided is interrupted. -/
theorem CallsOk.interrupt (h : CallsOk calls) (hopen : Open calls n i tag val) :
    CallsOk (calls.modify n fun c => { c with interrupted := true }) := by
  have hkeeps := keeps_modify calls n (f := fun c => { c with interrupted := true }) fun _ => rfl
  intro m c hm
  rw [get_modify] at hm
  split at hm
  · next heq =>
    subst heq
    rw [hopen] at hm
    cases hm
    exact ⟨nofun, fun _ => rfl, nofun⟩
  · have hok := h m c hm
    refine ⟨fun d hd => ?_, hok.interrupted, fun r' hr' => hkeeps.due (hok.result r' hr')⟩
    obtain ⟨c', hc', hback, hrest⟩ := hok.partner d hd
    refine ⟨c', ?_, hback, hrest⟩
    rw [get_modify, if_neg]
    · exact hc'
    · rintro rfl
      rw [hopen] at hc'
      cases hc'
      cases hback

/-- What a pairing records. -/
def paired (calls : List Call) (n m : Nat) : List Call :=
  (calls.modify n fun c => { c with partner := some m }).modify m fun c => { c with partner := some n }

theorem get_paired {m : Nat} (hnm : n ≠ m) (d : Nat) :
    (paired calls n m)[d]? = if d = n then (calls[n]?).map fun c => { c with partner := some m }
      else if d = m then (calls[m]?).map fun c => { c with partner := some n } else calls[d]? := by
  rw [paired, get_modify, get_modify]
  by_cases hd : d = n
  · rw [hd, if_neg (Ne.symm hnm), if_pos rfl, if_pos rfl]
  · by_cases hd' : d = m
    · rw [hd', if_pos rfl, if_neg hnm, if_neg (Ne.symm hnm), if_pos rfl]
    · rw [if_neg (Ne.symm hd'), if_neg (Ne.symm hd), if_neg hd, if_neg hd']

theorem keeps_paired (calls : List Call) (n m : Nat) : Keeps calls (paired calls n m) := by
  intro d c hd
  obtain ⟨c', hd', hval⟩ := keeps_modify calls n (f := fun c => { c with partner := some m }) (fun _ => rfl) d c hd
  obtain ⟨c'', hd'', hval'⟩ := keeps_modify _ m (f := fun c => { c with partner := some n }) (fun _ => rfl) d c' hd'
  exact ⟨c'', hd'', hval'.trans hval⟩

/-- Two calls with one tag that are not decided are paired. -/
theorem CallsOk.pair {m : Nat} {val' : UInt64} (h : CallsOk calls) (hn : Open calls n i tag val)
    (hm : Open calls m p tag val') (hip : i ≠ p) :
    CallsOk (paired calls n m) ∧ Fate (paired calls n m) n i val' ∧ Fate (paired calls n m) m p val := by
  have hnm : n ≠ m := by
    rintro rfl
    have hsame := hn.symm.trans hm
    cases hsame
    exact hip rfl
  have hgn : (paired calls n m)[n]? = some ⟨i, tag, val, some m, false, none⟩ := by
    rw [get_paired hnm, if_pos rfl, hn]
    rfl
  have hgm : (paired calls n m)[m]? = some ⟨p, tag, val', some n, false, none⟩ := by
    rw [get_paired hnm, if_neg hnm.symm, if_pos rfl, hm]
    rfl
  refine ⟨fun d c hd => ?_, ?_, ?_⟩
  · by_cases hdn : d = n
    · rw [hdn, hgn] at hd
      cases hd
      refine ⟨fun e he => ?_, nofun, nofun⟩
      cases he
      exact ⟨_, hgm, congrArg some hdn.symm, hip.symm, rfl⟩
    · by_cases hdm : d = m
      · rw [hdm, hgm] at hd
        cases hd
        refine ⟨fun e he => ?_, nofun, nofun⟩
        cases he
        exact ⟨_, hgn, congrArg some hdm.symm, hip, rfl⟩
      · rw [get_paired hnm, if_neg hdn, if_neg hdm] at hd
        have hok := h d c hd
        refine ⟨fun e he => ?_, hok.interrupted, fun r hr => (keeps_paired calls n m).due (hok.result r hr)⟩
        obtain ⟨c', hc', hback, hrest⟩ := hok.partner e he
        refine ⟨c', ?_, hback, hrest⟩
        rw [get_paired hnm, if_neg, if_neg, hc']
        · rintro rfl
          rw [hm] at hc'
          cases hc'
          cases hback
        · rintro rfl
          rw [hn] at hc'
          cases hc'
          cases hback
  · exact ⟨_, hgn, rfl, rfl, Or.inl ⟨rfl, m, _, hgm, rfl, rfl⟩⟩
  · exact ⟨_, hgm, rfl, rfl, Or.inl ⟨rfl, n, _, hgn, rfl, rfl⟩⟩

/-- The lock is held here. -/
def Pc.holds : Pc → Bool
  | .locked _ _ | .paired _ _ | .leaving _ | .queued => true
  | _ => false

def Poster.holds : Poster → Bool
  | .locked _ | .pulled _ | .leaving => true
  | _ => false

def Rgrp.holds (s : Rgrp) : Agent → Bool
  | .proc i => (s.pc i).holds
  | .poster k => (s.poster k).holds

/-- What is due to a process that sleeps. -/
def Asleep (s : Rgrp) (i : Nat) : Prop :=
  (s.state i = .rendezvous ∧ ¬s.Waking i ∧ Open s.calls (s.cur i) i (s.rendtag i) (s.rendval i)) ∨
    ((s.state i = .ready ∨ s.Waking i) ∧ Fate s.calls (s.cur i) i (s.rendval i))

/-- What is due to a process. -/
def ProcOk (s : Rgrp) (i : Nat) : Prop :=
  match s.pc i with
  | .user => s.state i = .running
  | .entered tag val | .locked tag val => s.state i = .running ∧ Open s.calls (s.cur i) i tag val
  | .paired _ val | .leaving val => s.state i = .running ∧ Fate s.calls (s.cur i) i val
  | .queued => s.state i = .rendezvous ∧ Open s.calls (s.cur i) i (s.rendtag i) (s.rendval i)
  | .unlocked | .saved => Asleep s i

theorem procOk_asleep (hpc : s.pc i = .unlocked ∨ s.pc i = .saved) : ProcOk s i ↔ Asleep s i := by
  rw [ProcOk]
  rcases hpc with hpc | hpc
  · rw [hpc]
  · rw [hpc]

theorem procOk_paired {q : Nat} (hpc : s.pc i = .paired q val) :
    ProcOk s i ↔ s.state i = .running ∧ Fate s.calls (s.cur i) i val := by
  rw [ProcOk, hpc]

theorem procOk_leaving (hpc : s.pc i = .leaving val) :
    ProcOk s i ↔ s.state i = .running ∧ Fate s.calls (s.cur i) i val := by
  rw [ProcOk, hpc]

/-- **The invariant.** -/
structure Inv (s : Rgrp) (tab : Nat → List Nat) : Prop where
  chains : Chains s.head s.rendhash tab
  mem : ∀ b p, p ∈ tab b ↔ s.state p = .rendezvous ∧ rend (s.rendtag p) = b ∧ ¬s.Waking p
  lock : ∀ a, s.lock = some a ↔ s.holds a = true
  waking : ∀ p, s.Waking p → s.state p = .rendezvous ∧ (s.pc p = .unlocked ∨ s.pc p = .saved)
  bound : ∀ i, s.pc i ≠ .user → i < s.nproc
  proc : ∀ i, ProcOk s i
  calls : CallsOk s.calls

/-- Nobody is being made ready while the lock is free. -/
theorem not_waking_of_free (h : s.lock = none) (p : Nat) : ¬s.Waking p := by
  rintro (⟨i, val, hlock, -⟩ | ⟨k, hlock, -⟩)
  · rw [h] at hlock
    cases hlock
  · rw [h] at hlock
    cases hlock

theorem not_waking_of_proc (h : s.lock = some (.proc i)) (hpc : ∀ p val, s.pc i ≠ .paired p val) (p : Nat) :
    ¬s.Waking p := by
  rintro (⟨j, val, hlock, hj⟩ | ⟨k, hlock, -⟩)
  · rw [h] at hlock
    cases hlock
    exact hpc p val hj
  · rw [h] at hlock
    cases hlock

theorem not_waking_of_poster {k : Nat} (h : s.lock = some (.poster k)) (hpc : ∀ p, s.poster k ≠ .pulled p) (p : Nat) :
    ¬s.Waking p := by
  rintro (⟨j, val, hlock, -⟩ | ⟨k', hlock, hk⟩)
  · rw [h] at hlock
    cases hlock
  · rw [h] at hlock
    cases hlock
    exact hpc p hk

/-- The process that sleeps on a chain. -/
theorem Inv.sleeper (h : Inv s tab) (hstate : s.state p = .rendezvous) (hwak : ¬s.Waking p)
    (hlock : s.lock ≠ some (.proc p)) :
    (s.pc p = .unlocked ∨ s.pc p = .saved) ∧ Open s.calls (s.cur p) p (s.rendtag p) (s.rendval p) := by
  have hproc := h.proc p
  have hhold : (s.pc p).holds = false := by
    refine Bool.eq_false_iff.mpr fun hholds => hlock ((h.lock (.proc p)).mpr hholds)
  rw [ProcOk] at hproc
  cases hpc : s.pc p with
  | user =>
    rw [hpc] at hproc
    rw [hproc] at hstate
    cases hstate
  | entered tag val =>
    rw [hpc] at hproc
    rw [hproc.1] at hstate
    cases hstate
  | locked tag val | paired q val | leaving val | queued =>
    rw [hpc] at hhold
    cases hhold
  | unlocked =>
    rw [hpc] at hproc
    rcases hproc with ⟨-, -, hopen⟩ | ⟨hready | hwak', -⟩
    · exact ⟨Or.inl rfl, hopen⟩
    · rw [hready] at hstate
      cases hstate
    · exact absurd hwak' hwak
  | saved =>
    rw [hpc] at hproc
    rcases hproc with ⟨-, -, hopen⟩ | ⟨hready | hwak', -⟩
    · exact ⟨Or.inr rfl, hopen⟩
    · rw [hready] at hstate
      cases hstate
    · exact absurd hwak' hwak

/-- The call that a process is in is its own. -/
theorem ProcOk.mine (h : ProcOk s i) (hpc : s.pc i ≠ .user) : ∃ c : Call, s.calls[s.cur i]? = some c ∧ c.proc = i := by
  have hopen : ∀ {tag val}, Open s.calls (s.cur i) i tag val → ∃ c : Call, s.calls[s.cur i]? = some c ∧ c.proc = i :=
    fun hopen => ⟨_, hopen, rfl⟩
  have hfate : ∀ {r}, Fate s.calls (s.cur i) i r → ∃ c : Call, s.calls[s.cur i]? = some c ∧ c.proc = i :=
    fun ⟨c, hc, hproc, _⟩ => ⟨c, hc, hproc⟩
  rw [ProcOk] at h
  cases hcase : s.pc i with
  | user => exact absurd hcase hpc
  | entered tag val | locked tag val | queued =>
    rw [hcase] at h
    exact hopen h.2
  | paired q val | leaving val =>
    rw [hcase] at h
    exact hfate h.2
  | unlocked | saved =>
    rw [hcase] at h
    rcases h with ⟨-, -, h⟩ | ⟨-, h⟩
    · exact hopen h
    · exact hfate h

/-- Two processes are not in one call. -/
theorem Inv.cur_ne (h : Inv s tab) (hi : s.pc i ≠ .user) (hj : s.pc j ≠ .user) (hij : i ≠ j) : s.cur i ≠ s.cur j := by
  obtain ⟨c, hc, hproc⟩ := (h.proc i).mine hi
  obtain ⟨c', hc', hproc'⟩ := (h.proc j).mine hj
  intro heq
  rw [heq, hc'] at hc
  cases hc
  exact hij (hproc.symm.trans hproc')

/-- **A process that a step leaves alone.** -/
theorem ProcOk.frame (h : ProcOk s j) (hpc : t.pc j = s.pc j) (hstate : t.state j = s.state j)
    (htag : t.rendtag j = s.rendtag j) (hval : t.rendval j = s.rendval j) (hcur : t.cur j = s.cur j)
    (hwak : t.Waking j ↔ s.Waking j) (hkeeps : Keeps s.calls t.calls)
    (hcall : s.pc j ≠ .user → t.calls[s.cur j]? = s.calls[s.cur j]?) : ProcOk t j := by
  rw [ProcOk, hpc]
  rw [ProcOk] at h
  cases hcase : s.pc j with
  | user =>
    rw [hcase] at h
    exact hstate.trans h
  | entered tag val | locked tag val =>
    rw [hcase] at h hcall
    exact ⟨hstate.trans h.1, by rw [Open, hcur, hcall nofun]; exact h.2⟩
  | paired q val | leaving val =>
    rw [hcase] at h hcall
    exact ⟨hstate.trans h.1, by rw [hcur]; exact hkeeps.fate h.2 (hcall nofun)⟩
  | queued =>
    rw [hcase] at h hcall
    exact ⟨hstate.trans h.1, by rw [Open, hcur, hcall nofun, htag, hval]; exact h.2⟩
  | unlocked | saved =>
    rw [hcase] at h hcall
    rcases h with ⟨hr, hw, hopen⟩ | ⟨hr, hfate⟩
    · exact Or.inl ⟨hstate.trans hr, fun hw' => hw (hwak.mp hw'),
        by rw [Open, hcur, hcall nofun, htag, hval]; exact hopen⟩
    · exact Or.inr ⟨hr.imp hstate.trans hwak.mpr, by rw [hcur, hval]; exact hkeeps.fate hfate (hcall nofun)⟩

end Rendezvous
