import NixKernel.Limbo

/-!
# The table of calls in limbo

A slot of a chain is the link behind a part of its entries.  An entry lies in the chain of its hash,
so no two chains share one.
-/

namespace TcpLimbo

open HeapChain StepSystem List

open Function (update update_self update_of_ne)

variable {s s' : Tcppriv} {L : Nat → List (Addr × Limbo)} {h : Nat} {a : Addr} {v : Limbo} {k : Call}
  {l : Slot} {p q : Option Addr} {r pre post post' : List (Addr × Limbo)}

/-- The link behind the entries `pre`, for a chain that starts at `l`. -/
def behind (l : Slot) : List (Addr × Limbo) → Slot
  | [] => l
  | c :: pre => behind (.next c.1) pre

@[simp] theorem behind_nil : behind l [] = l := rfl

theorem behind_concat : behind l (pre ++ [(a, v)]) = .next a := by
  induction pre generalizing l with
  | nil => rfl
  | cons c pre ih => exact ih

/-- Where the link of a chain of at least one entry lies does not depend on its head. -/
theorem behind_of_ne_nil {l' : Slot} (hpre : pre ≠ []) : behind l pre = behind l' pre := by
  cases pre with
  | nil => exact (hpre rfl).elim
  | cons c pre => rfl

/-- **The search** stops behind the entries of other calls, at the entry of the call if
there is one. -/
theorem Tcppriv.find_spec (hl : s.load l = some p) (hc : Chain s.mem p r) :
    ∃ pre post, r = pre ++ post ∧ s.find k l = some (behind l pre) ∧
      s.load (behind l pre) = some (post.head?.map Prod.fst) ∧
      (∀ c ∈ pre, c.2.call ≠ k) ∧ ∀ c ∈ post.head?, c.2.call = k := by
  induction r generalizing l p with
  | nil =>
    cases chain_nil.mp hc
    refine ⟨[], [], rfl, ?_, hl, by simp, by simp⟩
    rw [Tcppriv.find, hl]
    rfl
  | cons c r ih =>
    obtain ⟨a, v⟩ := c
    obtain ⟨rfl, n, ha, htail⟩ := chain_cons.mp hc
    by_cases hv : v.call = k
    · refine ⟨[], (a, v) :: r, rfl, ?_, hl, by simp, by simpa using hv⟩
      rw [Tcppriv.find, hl]
      simp [ha, hv]
    · have hnext : s.load (.next a) = some n := by simp [Tcppriv.load, ha]
      obtain ⟨pre, post, rfl, hfind, hload, hpre, hpost⟩ := ih hnext htail
      refine ⟨(a, v) :: pre, post, rfl, ?_, hload, ?_, hpost⟩
      · rw [Tcppriv.find, hl]
        simp [ha, hv, hfind, behind]
      · simpa [hv] using hpre

theorem Tcppriv.load_behind (hl : s.load l = some p) (hc : Chain s.mem p (pre ++ post)) :
    s.load (behind l pre) = some (post.head?.map Prod.fst) := by
  induction pre generalizing l p with
  | nil =>
    cases post with
    | nil => rw [behind_nil, hl, chain_nil.mp hc]; rfl
    | cons c post =>
      rw [behind_nil, hl, (chain_cons.mp hc).1]
      rfl
  | cons c pre ih =>
    obtain ⟨b, w⟩ := c
    obtain ⟨_, n, hb, htail⟩ := chain_cons.mp hc
    exact ih (by simp [Tcppriv.load, hb]) htail

@[simp] theorem Tcppriv.store_nlimbo : (s.store l q).nlimbo = s.nlimbo := by
  cases l <;> rfl

@[simp] theorem Tcppriv.set_nlimbo {f : Limbo → Limbo} : (s.set a f).nlimbo = s.nlimbo := rfl

@[simp] theorem Tcppriv.set_lht {f : Limbo → Limbo} : (s.set a f).lht = s.lht := rfl

@[simp] theorem Tcppriv.free_nlimbo : (s.free a).nlimbo = s.nlimbo := rfl

@[simp] theorem Tcppriv.free_lht : (s.free a).lht = s.lht := rfl

theorem Tcppriv.set_mem_of_ne {f : Limbo → Limbo} {b : Addr} (hb : b ≠ a) :
    (s.set a f).mem b = s.mem b := update_of_ne hb _ _

/-- A store into a chain changes neither another head nor another entry. -/
theorem Tcppriv.store_frame :
    (∀ k ≠ h, (s.store (behind (.head h) pre) q).lht k = s.lht k) ∧
      ∀ b ∉ addrs pre, (s.store (behind (.head h) pre) q).mem b = s.mem b := by
  rcases eq_nil_or_concat pre with rfl | ⟨pre, ⟨a, v⟩, rfl⟩
  · exact ⟨fun k hk => update_of_ne hk _ _, fun b _ => rfl⟩
  · rw [concat_eq_append, behind_concat]
    refine ⟨fun k _ => rfl, ?_⟩
    intro b hb
    have hne : b ≠ a := by
      rintro rfl
      simp at hb
    exact update_of_ne hne _ _

/-- **Redirecting a link** puts another chain behind the entries before it. -/
theorem Tcppriv.store_chain (hc : Chain s.mem (s.lht h) (pre ++ post)) (hq : Chain s.mem q post')
    (hdisj : ∀ b ∈ addrs pre, b ∉ addrs post') :
    Chain (s.store (behind (.head h) pre) q).mem ((s.store (behind (.head h) pre) q).lht h)
      (pre ++ post') := by
  rcases eq_nil_or_concat pre with rfl | ⟨pre, ⟨a, v⟩, rfl⟩
  · simpa [Tcppriv.store] using hq
  · rw [concat_eq_append] at hc hdisj ⊢
    rw [behind_concat, append_assoc]
    rw [append_assoc] at hc
    have hnodup := hc.nodup
    have ha : a ∉ addrs post' := hdisj a (by simp)
    obtain ⟨m, hpre, hrest⟩ := seg_append.mp hc
    obtain ⟨rfl, n, hcell, _⟩ := seg_cons.mp hrest
    have hapre : a ∉ addrs pre := by
      intro hmem
      rw [addrs_append] at hnodup
      exact disjoint_of_nodup_append hnodup hmem (by simp)
    refine seg_append.mpr ⟨some a, ?_, ?_⟩
    · exact hpre.update_ne hapre
    · simp only [Tcppriv.store, hcell, Option.map_some]
      exact hq.cons_update ha

/-- Assigning to the fields of an entry. -/
theorem Tcppriv.set_chain {f : Limbo → Limbo} (hc : Chain s.mem p (pre ++ (a, v) :: post)) :
    Chain (s.set a f).mem p (pre ++ (a, f v) :: post) := by
  have hnodup := hc.nodup
  rw [addrs_append, addrs_cons, nodup_append, nodup_cons] at hnodup
  obtain ⟨_, ⟨hpost, _⟩, hpre⟩ := hnodup
  obtain ⟨m, hs, hrest⟩ := seg_append.mp hc
  obtain ⟨rfl, n, hcell, htail⟩ := seg_cons.mp hrest
  have hapre : a ∉ addrs pre := fun hmem => hpre a hmem a mem_cons_self rfl
  refine seg_append.mpr ⟨some a, hs.update_ne hapre, rfl, n, ?_, htail.update_ne hpost⟩
  simp [Tcppriv.set, hcell]

/-- An entry lies in no other chain. -/
theorem Tcppriv.Holds.disjoint (hs : s.Holds L) {k : Nat} (hh : h < NLHT) (hk : k < NLHT) (hne : k ≠ h)
    (ha : a ∈ addrs (L h)) : a ∉ addrs (L k) := by
  intro hmem
  obtain ⟨⟨b, v⟩, hv, rfl⟩ := mem_map.mp ha
  obtain ⟨⟨b', w⟩, hw, hb⟩ := mem_map.mp hmem
  simp only at hb
  subst hb
  obtain ⟨n, hn⟩ := Seg.lookup (hs.chain h hh) hv
  obtain ⟨m, hm⟩ := Seg.lookup (hs.chain k hk) hw
  cases hn.symm.trans hm
  exact hne ((hs.hash k hk _ hw).symm.trans (hs.hash h hh _ hv))

theorem sum_length_update (hh : h < NLHT) :
    ∑ k ∈ Finset.range NLHT, ((update L h r k).length : Int) =
      ∑ k ∈ Finset.range NLHT, ((L k).length : Int) + r.length - (L h).length := by
  have hmem : h ∈ Finset.range NLHT := Finset.mem_range.mpr hh
  rw [← Finset.add_sum_erase _ _ hmem, ← Finset.add_sum_erase (Finset.range NLHT) _ hmem, update_self]
  have hrest : ∀ k ∈ (Finset.range NLHT).erase h,
      ((update L h r k).length : Int) = (L k).length := by
    intro k hk
    rw [update_of_ne (Finset.ne_of_mem_erase hk)]
  rw [Finset.sum_congr rfl hrest]
  omega

/-- **One chain changes**, with nothing written but its own entries and fresh memory. -/
theorem Tcppriv.Holds.replace (hs : s.Holds L) (hh : h < NLHT) (hc : Chain s'.mem (s'.lht h) r)
    (hlht : ∀ k ≠ h, s'.lht k = s.lht k)
    (hmem : ∀ b, s'.mem b = s.mem b ∨ b ∈ addrs (L h) ∨ s.mem b = none)
    (hhash : ∀ c ∈ r, hashipa c.2.raddr c.2.rport = h) (honce : (r.map fun c => c.2.call).Nodup)
    (hcount : s'.nlimbo = s.nlimbo + r.length - (L h).length) : s'.Holds (update L h r) := by
  refine ⟨?_, ?_, ?_, ?_⟩
  · intro k hk
    by_cases hkh : k = h
    · subst hkh
      rwa [update_self]
    · rw [update_of_ne hkh, hlht k hkh]
      apply (hs.chain k hk).frame
      intro b hb
      rcases hmem b with heq | hin | hfree
      · exact heq
      · exact (hs.disjoint hh hk hkh hin hb).elim
      · exact (Seg.not_mem_of_free (hs.chain k hk) hfree hb).elim
  · intro k hk c hc'
    by_cases hkh : k = h
    · subst hkh
      rw [update_self] at hc'
      exact hhash c hc'
    · rw [update_of_ne hkh] at hc'
      exact hs.hash k hk c hc'
  · intro k hk
    by_cases hkh : k = h
    · subst hkh
      rwa [update_self]
    · rw [update_of_ne hkh]
      exact hs.once k hk
  · rw [sum_length_update hh, hcount, hs.count]

/-- Assigning to an entry of the table. -/
theorem Tcppriv.Holds.set {f : Limbo → Limbo} (hs : s.Holds L) (hh : h < NLHT)
    (hL : L h = pre ++ (a, v) :: post) (hcall : (f v).call = v.call) :
    (s.set a f).Holds (update L h (pre ++ (a, f v) :: post)) := by
  have hc := hs.chain h hh
  have hhash := hs.hash h hh
  have honce := hs.once h hh
  rw [hL] at hc hhash honce
  refine hs.replace hh (Tcppriv.set_chain hc) (fun _ _ => rfl) ?_ ?_ ?_ ?_
  · intro b
    by_cases hb : b = a
    · right; left
      simp [hL, hb]
    · exact Or.inl (Tcppriv.set_mem_of_ne hb)
  · intro c hc'
    have hfields : (f v).raddr = v.raddr ∧ (f v).rport = v.rport := by
      simp only [Limbo.call, Call.mk.injEq] at hcall
      exact ⟨hcall.2.2.1, hcall.2.2.2.1⟩
    rcases mem_append.mp hc' with hin | hin
    · exact hhash c (mem_append_left _ hin)
    · rcases mem_cons.mp hin with rfl | hin
      · rw [hfields.1, hfields.2]
        exact hhash (a, v) (by simp)
      · exact hhash c (by simp [hin])
  · simpa [hcall] using honce
  · simp [hL]

/-- Unlinking an entry, whether or not it is freed. -/
theorem Tcppriv.Holds.unlink (hs : s.Holds L) (hh : h < NLHT) (hL : L h = pre ++ (a, v) :: post)
    {c : Cell Addr Limbo} (hcell : s.mem a = some c) (freed : Bool) :
    let s' : Tcppriv := { s.store (behind (.head h) pre) c.next with nlimbo := s.nlimbo - 1 }
    (if freed then s'.free a else s').Holds (update L h (pre ++ post)) := by
  intro s'
  have hc := hs.chain h hh
  have hhash := hs.hash h hh
  have honce := hs.once h hh
  rw [hL] at hc hhash honce
  have hnodup := hc.nodup
  rw [addrs_append, addrs_cons, nodup_append, nodup_cons] at hnodup
  obtain ⟨_, ⟨hpost, _⟩, hpre⟩ := hnodup
  obtain ⟨m, _, hrest⟩ := seg_append.mp hc
  obtain ⟨rfl, n, hcell', htail⟩ := seg_cons.mp hrest
  cases hcell.symm.trans hcell'
  have hdisj : ∀ b ∈ addrs pre, b ∉ addrs post := by
    intro b hb hb'
    exact hpre b hb b (mem_cons_of_mem _ hb') rfl
  have hapre : a ∉ addrs pre := fun hmem => hpre a hmem a mem_cons_self rfl
  have hchain : Chain s'.mem (s'.lht h) (pre ++ post) := Tcppriv.store_chain hc htail hdisj
  have ha : a ∉ addrs (pre ++ post) := by simp [hapre, hpost]
  have hframe := @Tcppriv.store_frame s h n pre
  refine hs.replace hh ?_ ?_ ?_ ?_ ?_ ?_
  · cases freed with
    | false => exact hchain
    | true => exact hchain.update_ne ha
  · intro k hk
    cases freed <;> exact hframe.1 k hk
  · intro b
    by_cases hb : b ∈ addrs (L h)
    · exact Or.inr (Or.inl hb)
    · left
      have hb' : b ≠ a ∧ b ∉ addrs pre := by
        rw [hL, addrs_append, addrs_cons, mem_append, mem_cons] at hb
        tauto
      have hsame := hframe.2 b hb'.2
      cases freed with
      | false => exact hsame
      | true => exact (update_of_ne hb'.1 _ _).trans hsame
  · intro c hc'
    apply hhash
    rcases mem_append.mp hc' with hin | hin <;> simp [hin]
  · refine honce.sublist (List.Sublist.map _ ?_)
    exact List.Sublist.append_left (sublist_cons_self _ _) pre
  · cases freed <;> simp [s', hL] <;> omega

theorem Tcppriv.Holds.discard (hs : s.Holds L) (hh : h < NLHT) (hL : L h = pre ++ (a, v) :: post) :
    ∃ s', s.discard (behind (.head h) pre) a = some s' ∧ s'.Holds (update L h (pre ++ post)) ∧
      s'.nlimbo = s.nlimbo - 1 := by
  obtain ⟨n, hcell⟩ := Seg.lookup (hs.chain h hh) (a := a) (v := v) (by simp [hL])
  refine ⟨_, ?_, hs.unlink hh hL hcell true, ?_⟩
  · simp [Tcppriv.discard, hcell]
  · simp

end TcpLimbo
