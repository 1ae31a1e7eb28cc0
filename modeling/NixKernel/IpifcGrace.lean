import Mathlib

/-!
# Putting addresses aside: `iplinkfree` and `ipselffree`

An `Iplink` or an `Ipself` that is taken from its chain is put on a list of its own kind for 5000 ms,
for those who walk along the chain without a lock.  Each call of either function goes through the
list first.  It frees what has not expired and leaves what has: so a list is right only if each call
that finds an entry comes just as it expires, or with a wrap of the clock between.

A time is counted in full here; the code sees its low 32 bits, as `NOW`.
-/

namespace Ipifc

open List

variable {P : Type}

/-- What is put aside.  When it was is not kept by the code. -/
structure Node (P : Type) where
  p : P
  since : Nat
  expire : UInt32

/-- A list with what each call has freed and what it has left on the list, and when, and with all that
was put aside. -/
structure Aside (P : Type) where
  list : List (Node P)
  freed : List (Node P × Nat)
  left : List (Node P × Nat)
  puts : List (Node P)

/-- What the loop leaves on the list, and what it frees. -/
def pass (now : UInt32) : List (Node P) → List (Node P) × List (Node P)
  | [] => ([], [])
  | np :: l =>
    if np.expire > now then ((pass now l).1, np :: (pass now l).2)
    else (np :: (pass now l).1, (pass now l).2)

/-- What is put aside by a call. -/
def node (p : P) (time : Nat) : Node P :=
  ⟨p, time, UInt32.ofNat time + 5000⟩ -- give other threads 5 secs to get out

/-- A call of `iplinkfree` or `ipselffree`. -/
def Aside.free (s : Aside P) (p : P) (time : Nat) : Aside P :=
  let now := UInt32.ofNat time
  let r := pass now s.list
  ⟨r.1 ++ [node p time], s.freed ++ r.2.map (·, time), s.left ++ r.1.map (·, time), s.puts ++ [node p time]⟩

/-- `freeiplink` and `freeipself`. -/
structure Freed (Iplink Ipself : Type) where
  freeiplink : Aside Iplink
  freeipself : Aside Ipself

variable {Iplink Ipself : Type}

def iplinkfree (p : Iplink) (time : Nat) (s : Freed Iplink Ipself) : Freed Iplink Ipself :=
  { s with freeiplink := s.freeiplink.free p time }

def ipselffree (p : Ipself) (time : Nat) (s : Freed Iplink Ipself) : Freed Iplink Ipself :=
  { s with freeipself := s.freeipself.free p time }

/-- A call, and when. -/
inductive Call (Iplink Ipself : Type)
  | iplinkfree (p : Iplink) (time : Nat)
  | ipselffree (p : Ipself) (time : Nat)

def Call.run : Call Iplink Ipself → Freed Iplink Ipself → Freed Iplink Ipself
  | .iplinkfree p time => Ipifc.iplinkfree p time
  | .ipselffree p time => Ipifc.ipselffree p time

/-- An empty list. -/
def Aside.empty : Aside P := ⟨[], [], [], []⟩

/-- What a sequence of calls does. -/
def calls (l : List (Call Iplink Ipself)) : Freed Iplink Ipself :=
  l.foldl (fun s c => c.run s) ⟨.empty, .empty⟩

/-- **The grace period** is kept: nothing is freed before it is over, all is freed by the first call
after it, and what was put aside has been freed once or is on the list. -/
structure Aside.Graceful (s : Aside P) : Prop where
  late : ∀ c ∈ s.freed, c.1.since + 5000 ≤ c.2
  soon : ∀ c ∈ s.left, c.2 ≤ c.1.since + 5000
  once : (s.freed.map Prod.fst ++ s.list).Perm s.puts

/-- The low 32 bits of the two are the other way round than they are: the clock has wrapped between
them.  Or they are the same. -/
def Turned (expire time : Nat) : Prop :=
  time = expire ∨ (time < expire ∧ expire % 2 ^ 32 ≤ time % 2 ^ 32) ∨
    (expire < time ∧ time % 2 ^ 32 < expire % 2 ^ 32)

/-- So they are at each of these calls, up to the first after the expiry. -/
def TurnedUpto (expire : Nat) : List Nat → Prop
  | [] => True
  | time :: l => Turned expire time ∧ (time ≤ expire → TurnedUpto expire l)

/-- And that for whatever any of these calls puts aside. -/
def AllTurned : List Nat → Prop
  | [] => True
  | time :: l => TurnedUpto (time + 5000) l ∧ AllTurned l

/-- When the calls on each list come. -/
def linkTimes (l : List (Call Iplink Ipself)) : List (Iplink × Nat) :=
  l.filterMap fun | .iplinkfree p time => some (p, time) | .ipselffree _ _ => none

def selfTimes (l : List (Call Iplink Ipself)) : List (Ipself × Nat) :=
  l.filterMap fun | .iplinkfree _ _ => none | .ipselffree p time => some (p, time)

variable {now : UInt32} {l : List (Node P)} {s : Aside P}

theorem pass_spec (now : UInt32) (l : List (Node P)) :
    (∀ x, x ∈ (pass now l).1 ↔ x ∈ l ∧ ¬x.expire > now) ∧
      (∀ x, x ∈ (pass now l).2 ↔ x ∈ l ∧ x.expire > now) ∧
      ((pass now l).2 ++ (pass now l).1).Perm l := by
  induction l with
  | nil => simp [pass]
  | cons np l ih =>
    obtain ⟨hleft, hfreed, hperm⟩ := ih
    rw [pass]
    by_cases hexp : np.expire > now
    · rw [if_pos hexp]
      refine ⟨fun x => ?_, fun x => ?_, hperm.cons np⟩
      · rw [hleft, mem_cons]
        refine ⟨fun h => ⟨.inr h.1, h.2⟩, fun h => ⟨h.1.resolve_left ?_, h.2⟩⟩
        rintro rfl
        exact h.2 hexp
      · rw [mem_cons, hfreed, mem_cons]
        refine ⟨?_, fun h => h.1.imp_right fun hx => ⟨hx, h.2⟩⟩
        rintro (rfl | h)
        · exact ⟨.inl rfl, hexp⟩
        · exact ⟨.inr h.1, h.2⟩
    · rw [if_neg hexp]
      refine ⟨fun x => ?_, fun x => ?_, List.perm_middle.trans (hperm.cons np)⟩
      · rw [mem_cons, hleft, mem_cons]
        refine ⟨?_, fun h => h.1.imp_right fun hx => ⟨hx, h.2⟩⟩
        rintro (rfl | h)
        · exact ⟨.inl rfl, hexp⟩
        · exact ⟨.inr h.1, h.2⟩
      · rw [hfreed, mem_cons]
        refine ⟨fun h => ⟨.inr h.1, h.2⟩, fun h => ⟨h.1.resolve_left ?_, h.2⟩⟩
        rintro rfl
        exact hexp h.2

/-- When an entry is freed, in the words of the machine. -/
theorem expire_gt_iff (p : P) (since time : Nat) :
    (node p since).expire > UInt32.ofNat time ↔ time % 2 ^ 32 < (since + 5000) % 2 ^ 32 := by
  have hlt : (node p since).expire > UInt32.ofNat time ↔
      (UInt32.ofNat time).toNat < (UInt32.ofNat since + 5000).toNat := Iff.rfl
  have hconst : (5000 : UInt32).toNat = 5000 := rfl
  rw [hlt, UInt32.toNat_add, UInt32.toNat_ofNat', UInt32.toNat_ofNat', hconst]
  omega

/-- **Nothing is lost or freed twice**, whenever a call comes. -/
theorem Aside.free_once (h : (s.freed.map Prod.fst ++ s.list).Perm s.puts) (p : P) (time : Nat) :
    ((s.free p time).freed.map Prod.fst ++ (s.free p time).list).Perm (s.free p time).puts := by
  obtain ⟨-, -, hperm⟩ := pass_spec (UInt32.ofNat time) s.list
  rw [Aside.free]
  dsimp only
  rw [map_append, map_map, ← append_assoc]
  refine List.Perm.append_right _ ?_
  have hid : (Prod.fst ∘ fun x : Node P => (x, time)) = id := rfl
  rw [hid, map_id, append_assoc]
  exact (hperm.append_left _).trans h

/-- The calls on one list. -/
def Aside.calls (cs : List (P × Nat)) (s : Aside P) : Aside P := cs.foldl (fun s c => s.free c.1 c.2) s

/-- What a call does with an entry is right. -/
def Node.Right (x : Node P) (time : Nat) : Prop :=
  (x.expire > UInt32.ofNat time → x.since + 5000 ≤ time) ∧
    (¬x.expire > UInt32.ofNat time → time ≤ x.since + 5000)

/-- So it is at each of these calls, up to the one that frees it. -/
def Node.RightUpto (x : Node P) : List Nat → Prop
  | [] => True
  | time :: l => x.Right time ∧ (¬x.expire > UInt32.ofNat time → x.RightUpto l)

/-- An entry is treated right just when the expiry is turned at the calls that see it. -/
theorem rightUpto_iff (p : P) (since : Nat) (l : List Nat) :
    (node p since).RightUpto l ↔ TurnedUpto (since + 5000) l := by
  induction l with
  | nil => exact Iff.rfl
  | cons time l ih =>
    rw [Node.RightUpto, Node.Right, TurnedUpto, Turned, ih, expire_gt_iff]
    change ((_ → since + 5000 ≤ time) ∧ (_ → time ≤ since + 5000)) ∧ _ ↔ _
    by_cases htail : TurnedUpto (since + 5000) l
    · simp only [htail, implies_true, and_true]
      omega
    · simp only [htail, imp_false]
      omega

/-- A call keeps the grace period just when it does right with all that is on the list. -/
theorem graceful_free (honce : (s.freed.map Prod.fst ++ s.list).Perm s.puts) (p : P) (time : Nat) :
    (s.free p time).Graceful ↔ s.Graceful ∧ ∀ x ∈ s.list, x.Right time := by
  obtain ⟨hleft, hfreed, -⟩ := pass_spec (UInt32.ofNat time) s.list
  constructor
  · intro h
    refine ⟨⟨fun c hc => h.late c (mem_append_left _ hc),
      fun c hc => h.soon c (mem_append_left _ hc), honce⟩,
      fun x hx => ⟨fun hexp => ?_, fun hexp => ?_⟩⟩
    · exact h.late (x, time) (mem_append_right _ (mem_map_of_mem ((hfreed x).mpr ⟨hx, hexp⟩)))
    · exact h.soon (x, time) (mem_append_right _ (mem_map_of_mem ((hleft x).mpr ⟨hx, hexp⟩)))
  · rintro ⟨h, hright⟩
    refine ⟨fun c hc => ?_, fun c hc => ?_, Aside.free_once honce p time⟩
    · rcases mem_append.mp hc with hc | hc
      · exact h.late c hc
      · obtain ⟨x, hx, rfl⟩ := mem_map.mp hc
        obtain ⟨hin, hexp⟩ := (hfreed x).mp hx
        exact (hright x hin).1 hexp
    · rcases mem_append.mp hc with hc | hc
      · exact h.soon c hc
      · obtain ⟨x, hx, rfl⟩ := mem_map.mp hc
        obtain ⟨hin, hexp⟩ := (hleft x).mp hx
        exact (hright x hin).2 hexp

/-- **The calls on one list** keep the grace period just when each does right with what was on the list
before and with what the calls before have put aside. -/
theorem graceful_calls (cs : List (P × Nat)) (honce : (s.freed.map Prod.fst ++ s.list).Perm s.puts) :
    (s.calls cs).Graceful ↔
      s.Graceful ∧ (∀ x ∈ s.list, x.RightUpto (cs.map Prod.snd)) ∧ AllTurned (cs.map Prod.snd) := by
  induction cs generalizing s with
  | nil => exact ⟨fun h => ⟨h, fun _ _ => trivial, trivial⟩, fun h => h.1⟩
  | cons c cs ih =>
    obtain ⟨hleft, -, -⟩ := pass_spec (UInt32.ofNat c.2) s.list
    change ((s.free c.1 c.2).calls cs).Graceful ↔ s.Graceful ∧
      (∀ x ∈ s.list, x.Right c.2 ∧ (¬x.expire > UInt32.ofNat c.2 → x.RightUpto (cs.map Prod.snd))) ∧
      TurnedUpto (c.2 + 5000) (cs.map Prod.snd) ∧ AllTurned (cs.map Prod.snd)
    rw [ih (Aside.free_once honce c.1 c.2), graceful_free honce, ← rightUpto_iff c.1]
    -- what is on the list after the call: what it has left, and what it has put aside
    have hlist : (∀ x ∈ (s.free c.1 c.2).list, x.RightUpto (cs.map Prod.snd)) ↔
        (∀ x ∈ s.list, ¬x.expire > UInt32.ofNat c.2 → x.RightUpto (cs.map Prod.snd)) ∧
          (node c.1 c.2).RightUpto (cs.map Prod.snd) := by
      constructor
      · intro h
        exact ⟨fun x hx hexp => h x (mem_append_left _ ((hleft x).mpr ⟨hx, hexp⟩)),
          h _ (mem_append_right _ (mem_singleton.mpr rfl))⟩
      · rintro ⟨hold, hnew⟩ x hx
        rcases mem_append.mp hx with hx | hx
        · exact hold x ((hleft x).mp hx).1 ((hleft x).mp hx).2
        · rw [mem_singleton.mp hx]
          exact hnew
    rw [hlist]
    constructor
    · rintro ⟨⟨h, hright⟩, ⟨hold, hnew⟩, hall⟩
      exact ⟨h, fun x hx => ⟨hright x hx, hold x hx⟩, hnew, hall⟩
    · rintro ⟨h, hold, hnew, hall⟩
      exact ⟨⟨h, fun x hx => (hold x hx).1⟩, ⟨fun x hx => (hold x hx).2, hnew⟩, hall⟩

theorem calls_links (l : List (Call Iplink Ipself)) (s : Freed Iplink Ipself) :
    l.foldl (fun s c => c.run s) s =
      ⟨s.freeiplink.calls (linkTimes l), s.freeipself.calls (selfTimes l)⟩ := by
  induction l generalizing s with
  | nil => rfl
  | cons c l ih =>
    cases c with
    | iplinkfree p time => exact ih _
    | ipselffree p time => exact ih _

theorem graceful_empty : (Aside.empty : Aside P).Graceful :=
  ⟨fun _ h => (not_mem_nil h).elim, fun _ h => (not_mem_nil h).elim, List.Perm.refl _⟩

/-- **The grace period is kept** on both lists, whatever the times, just when for every call and every
later one on its list, up to the first that is more than 5000 ms later, the later one is exactly
5000 ms later or the clock has wrapped between it and the expiry. -/
theorem graceful_iff (l : List (Call Iplink Ipself)) :
    ((calls l).freeiplink.Graceful ∧ (calls l).freeipself.Graceful) ↔
      AllTurned ((linkTimes l).map Prod.snd) ∧ AllTurned ((selfTimes l).map Prod.snd) := by
  have hlist : ∀ {P : Type} (cs : List (P × Nat)),
      (Aside.empty.calls cs).Graceful ↔ AllTurned (cs.map Prod.snd) := fun cs => by
    rw [graceful_calls cs (List.Perm.refl _)]
    exact ⟨fun h => h.2.2, fun h => ⟨graceful_empty, fun _ hx => (not_mem_nil hx).elim, h⟩⟩
  rw [calls, calls_links]
  exact and_congr (hlist (linkTimes l)) (hlist (selfTimes l))

/-- **Two links a second apart**: the second call frees the first link. -/
theorem iplinkfree_early :
    ¬(calls [Call.iplinkfree 1 1000, (.iplinkfree 2 2000 : Call Nat Nat)]).freeiplink.Graceful :=
  fun h => absurd (h.late (⟨1, 1000, 6000⟩, 2000) (List.mem_singleton.mpr rfl)) (by decide)

end Ipifc
