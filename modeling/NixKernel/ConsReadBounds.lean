import NixKernel.ConsRead

/-!
# When reading a console file is bounded

All files but the log have their offset cut to 32 bits.  What is copied is then right exactly when the cut offset is
beyond the file as the offset is, or when nothing was cut off and no sum overflowed.
-/

namespace ConsRead

open CString List

variable {src file tmp num : List UInt8} {off n o n' : Int} {size : Nat} {s : Cons} {str : Text} {val : UInt32}

theorem length_cut : (cut file off n).length = min (off + n).toNat file.length - off.toNat := by
  rw [cut, length_drop, length_take]

theorem cut_eq_nil : cut file off n = [] ↔ min (off + n).toNat file.length ≤ off.toNat := by
  rw [← length_eq_zero_iff, length_cut, Nat.sub_eq_zero_iff_le]

/-- Nothing is copied. -/
theorem bounded_none : Bounded none file off n ↔ min (off + n).toNat file.length ≤ off.toNat := by
  rw [← cut_eq_nil]
  exact ⟨fun h => h.2.symm, fun h => ⟨nofun, h.symm⟩⟩

/-- **What is copied from the first `size` bytes of a buffer**, which are the file where it is copied from. -/
theorem bounded_some (hfile : file.length = size) (hsrc : size ≤ src.length) (ho : o < size) (hn : 0 < n) (hn' : 0 < n')
    (hcut : off = o ∨ (size : Int) ≤ off ∨ off + n ≤ 0)
    (hsame : 0 ≤ o → o + n' ≤ size → src.take (o + n').toNat = file.take (o + n').toNat) :
    Bounded (some ⟨src, o, n'⟩) file off n ↔ 0 ≤ o ∧ off = o ∧ n' = min n (size - o) := by
  constructor
  · rintro ⟨hinside, hbytes⟩
    obtain ⟨hpos, -, hend⟩ := hinside _ rfl
    have hlen := congrArg List.length hbytes
    change ((src.drop o.toNat).take n'.toNat).length = _ at hlen
    rw [length_take, length_drop, length_cut, hfile] at hlen
    change 0 ≤ o at hpos
    change o + n' ≤ src.length at hend
    omega
  · rintro ⟨hpos, rfl, rfl⟩
    refine ⟨?_, ?_⟩
    · rintro _ ⟨⟩
      refine ⟨hpos, ?_, ?_⟩
      · change 0 ≤ min n (size - off)
        omega
      · change off + min n (size - off) ≤ src.length
        omega
    · have htake := hsame hpos (by omega)
      change (src.drop off.toNat).take (min n (size - off)).toNat = cut file off n
      have hsum : (off + min n (size - off)).toNat = off.toNat + (min n (size - off)).toNat := by omega
      rw [take_drop, ← hsum, htake, cut]
      by_cases hlong : size ≤ off + n
      · have hfull : (off + min n (size - off)).toNat = size := by omega
        rw [hfull, ← hfile, take_length, take_of_length_le (by omega)]
      · have hclip : min n (size - off) = n := by omega
        rw [hclip]

theorem toLong_cut (off : Int) : off = toLong off ∨ toLong off + 4294967296 ≤ off ∨ off ≤ toLong off - 4294967296 := by
  rw [toLong]
  omega

theorem toLong_small {x : Int} (h0 : 0 ≤ x) (h : x < 2147483648) : toLong x = x := by
  rw [toLong]
  omega

theorem toLong_range (off : Int) : -2147483648 ≤ toLong off ∧ toLong off < 2147483648 := by
  rw [toLong]
  omega

/-- What `readstr` makes of the count. -/
theorem clipped (ho : o < size) (hsize : size < 2147483648) (hn : 0 < n)
    (hn31 : n < 2147483648) (hn' : n' = if (size : Int) < toLong (o + n) then size - o else n) :
    0 < n' ∧ (0 ≤ o → (n' = min n (size - o) ↔ o + n < 2147483648)) := by
  rw [toLong] at hn'
  split at hn'
  · omega
  · omega

theorem readstr_bounded (hn : 0 < n) (hn31 : n < 2147483648) :
    Bounded (readstr (toLong off) n str) str.str.bytes off n ↔ StrOk str.str.length off n := by
  have hcut := toLong_cut off
  obtain ⟨hlow, hhigh⟩ := toLong_range off
  have hshort := str.short
  rw [readstr, StrOk]
  split
  · next hbeyond =>
    rw [bounded_none]
    change min (off + n).toNat str.str.length ≤ _ ↔ _
    omega
  · next hbefore =>
    have ho : toLong off < str.str.length := Int.lt_of_not_ge hbefore
    obtain ⟨hpos, hclip⟩ := clipped ho hshort hn hn31 rfl
    rw [@bounded_some _ _ _ _ _ _ str.str.length rfl ?_ ho hn hpos (by omega) ?_]
    · constructor
      · rintro ⟨h0, heq, hmin⟩
        have hsum := (hclip h0).mp hmin
        exact ⟨h0, fun _ => ⟨heq, by omega⟩⟩
      · rintro ⟨h0, hsame⟩
        obtain ⟨heq, hsum⟩ := hsame ho
        exact ⟨h0, heq, (hclip h0).mpr (by omega)⟩
    · rw [length_append]
      exact Nat.le_add_right _ _
    · intro h0 hle
      rw [take_append_of_le_length]
      change _ ≤ str.str.length
      omega

theorem length_number (val : UInt32) : (number val).length = numsize := by
  have hdigits : (Nat.toDigits 10 val.toNat).length ≤ 10 := by
    refine Nat.toDigits_length 10 val.toNat 10 (by decide) ?_
    have hlt := val.toNat_lt
    omega
  rw [number, length_append, lud, length_leftpad, length_map, length_singleton]
  change max 11 _ + 1 = 12
  omega

/-- What `readnum` has in its array. -/
theorem readnum_src (tmp : List UInt8) (val : UInt32) :
    fill (fill tmp 0 (lud (numsize - 1) val ++ [0])) (numsize - 1) [0x20] = number val ++ tmp.drop numsize := by
  have hlud : (lud (numsize - 1) val).length = numsize - 1 := by
    have hlen := length_number val
    rw [number, length_append, length_singleton] at hlen
    omega
  have hone : numsize - 1 + 1 = numsize := rfl
  have hlen : (lud (numsize - 1) val ++ [0]).length = numsize := by
    rw [length_append, hlud, length_singleton, hone]
  have hinner : fill tmp 0 (lud (numsize - 1) val ++ [0]) = lud (numsize - 1) val ++ [0] ++ tmp.drop numsize := by
    rw [fill, take_zero, nil_append, Nat.zero_add, hlen]
  have hdrop : (lud (numsize - 1) val ++ [0] ++ tmp.drop numsize).drop numsize = tmp.drop numsize :=
    drop_left' hlen
  have htake : (lud (numsize - 1) val ++ [0] ++ tmp.drop numsize).take (numsize - 1) = lud (numsize - 1) val := by
    rw [append_assoc, take_left' hlud]
  rw [hinner, fill, length_singleton, hone, hdrop, htake, number]

theorem readnum_bounded (tmp : List UInt8) (val : UInt32) (hn : 0 < n) (hn31 : n < 2147483648) :
    Bounded (readnum tmp (toUlong (toLong off)) n val numsize) (number val) off n ↔ NumOk off n := by
  have hsame : toUlong (toLong off) = toUlong off := by
    rw [toUlong, toLong, toUlong]
    omega
  have hrange : 0 ≤ toUlong off ∧ toUlong off < 4294967296 := by
    rw [toUlong]
    omega
  have hcut : off = toUlong off ∨ toUlong off + 4294967296 ≤ off ∨ off ≤ toUlong off - 4294967296 := by
    rw [toUlong]
    omega
  have hsize : (numsize : Int) = 12 := rfl
  rw [hsame, readnum, readnum_src, NumOk]
  split
  · next hbeyond =>
    rw [bounded_none, length_number]
    change min (off + n).toNat 12 ≤ _ ↔ _
    omega
  · next hbefore =>
    have ho : toUlong off < numsize := Int.lt_of_not_ge hbefore
    have hsum : toUlong (toUlong off + n) = toUlong off + n := by
      rw [toUlong]
      omega
    rw [hsum]
    have hclip : (if (numsize : Int) < toUlong off + n then numsize - toUlong off else n) =
        min n (numsize - toUlong off) := by
      split <;> omega
    rw [hclip, bounded_some (length_number val) ?_ ho hn (by omega) (by omega) ?_]
    · omega
    · rw [length_append, length_number]
      exact Nat.le_add_right _ _
    · intro h0 hle
      rw [take_append_of_le_length]
      rw [length_number]
      omega

/-- What `readnum` prints into the array of `consread`. -/
theorem readnum_whole (num : List UInt8) (val : UInt32) :
    (readnum num 0 numsize val numsize).elim [] Move.bytes = number val := by
  have hsize : (numsize : Int) = 12 := rfl
  rw [readnum, readnum_src, if_neg (by decide), if_neg (by decide)]
  change ((number val ++ num.drop numsize).drop 0).take numsize = number val
  rw [drop_zero, take_left' (length_number val)]

/-- **The loop.**  Up to `lim` the array is what all the times would be. -/
theorem formatTimes_take (num : List UInt8) {lim : Int} (time : List UInt32) {i m : Nat} {p t : List UInt8} (hp : p.length = numsize * i)
    (hm : m ≤ lim) (hall : m ≤ (p ++ time.flatMap number).length) :
    (formatTimes num lim i time (p ++ t)).take m = (p ++ time.flatMap number).take m := by
  induction time generalizing i p t with
  | nil =>
    rw [flatMap_nil, append_nil] at hall ⊢
    rw [formatTimes, take_append_of_le_length hall]
  | cons l time ih =>
    rw [formatTimes]
    split
    · have hfill : fill (p ++ t) (numsize * i) (number l) = p ++ number l ++ t.drop numsize := by
        rw [fill, take_left' hp, length_number, ← hp, ← drop_drop, drop_left]
      rw [readnum_whole, hfill, flatMap_cons, ← append_assoc]
      rw [flatMap_cons, ← append_assoc] at hall
      refine ih ?_ hall
      rw [length_append, hp, length_number, Nat.mul_succ]
    · next hstop =>
      have hle : m ≤ p.length := by omega
      rw [take_append_of_le_length hle, take_append_of_le_length hle]

theorem length_times (time : List UInt32) : (time.flatMap number).length = numsize * time.length := by
  induction time with
  | nil => rfl
  | cons l time ih => rw [flatMap_cons, length_append, ih, length_number, length_cons, Nat.mul_succ, Nat.add_comm]

theorem length_formatTimes (num : List UInt8) (lim : Int) (time : List UInt32) {i : Nat} {p t : List UInt8}
    (hp : p.length = numsize * i) (ht : numsize * time.length ≤ t.length) :
    (formatTimes num lim i time (p ++ t)).length = p.length + t.length := by
  induction time generalizing i p t with
  | nil => rw [formatTimes, length_append]
  | cons l time ih =>
    rw [formatTimes]
    split
    · have hfill : fill (p ++ t) (numsize * i) (number l) = p ++ number l ++ t.drop numsize := by
        rw [fill, take_left' hp, length_number, ← hp, ← drop_drop, drop_left]
      rw [length_cons, Nat.mul_succ] at ht
      rw [readnum_whole, hfill, ih]
      · rw [length_append, length_drop, length_number]
        omega
      · rw [length_append, hp, length_number, Nat.mul_succ]
      · rw [length_drop]
        omega
    · rw [length_append]

theorem length_ms (s : Cons) : s.ms.length = 6 := by rw [Cons.ms, length_mapIdx, s.times]

theorem length_cputime (s : Cons) : (s.ms.flatMap number).length = 72 := by rw [length_times, length_ms, numsize]

/-- As much of the array as is copied is the file. -/
theorem formatTimes_file {k : Int} (h0 : 0 ≤ k + n) (hle : k + n ≤ (72 : Nat)) :
    (formatTimes s.tmp.1 (toLong (k + n)) 0 s.ms s.tmp.2).take (k + n).toNat =
      (s.ms.flatMap number).take (k + n).toNat := by
  have hlen := length_cputime s
  rw [toLong_small h0 (by omega)]
  exact formatTimes_take s.tmp.1 s.ms (i := 0) (p := []) (t := s.tmp.2) rfl (by omega)
    (by rw [nil_append, hlen]; omega)

theorem cputime_bounded (hn : 0 < n) (hn31 : n < 2147483648) :
    Bounded (s.cputime (toLong off) n) (s.ms.flatMap number) off n ↔ StrOk (s.ms.flatMap number).length off n := by
  have hcut := toLong_cut off
  obtain ⟨hlow, hhigh⟩ := toLong_range off
  have hlen := length_cputime s
  have hsize : (6 * numsize : Int) = (72 : Nat) := rfl
  have hsrc : ∀ lim, (formatTimes s.tmp.1 lim 0 s.ms s.tmp.2).length = 512 := by
    intro lim
    have h := length_formatTimes s.tmp.1 lim s.ms (i := 0) (p := []) (t := s.tmp.2) rfl
      (by rw [length_ms, s.tmpsize.2]; decide)
    rw [nil_append] at h
    rw [h, length_nil, s.tmpsize.2]
  rw [Cons.cputime, StrOk, hlen, hsize]
  split
  · next hbeyond =>
    rw [bounded_none, hlen]
    omega
  · next hbefore =>
    have ho : toLong off < (72 : Nat) := Int.lt_of_not_ge hbefore
    obtain ⟨hpos, hclip⟩ := clipped ho (by decide) hn hn31 rfl
    rw [bounded_some hlen (by rw [hsrc]; decide) ho hn hpos (by omega) ?_]
    · constructor
      · rintro ⟨h0, heq, hmin⟩
        have hsum := (hclip h0).mp hmin
        exact ⟨h0, fun _ => ⟨heq, by omega⟩⟩
      · rintro ⟨h0, hsame⟩
        obtain ⟨heq, hsum⟩ := hsame ho
        exact ⟨h0, heq, (hclip h0).mpr (by omega)⟩
    · intro h0 hle
      exact formatTimes_file (by omega) hle

theorem readkmesg_bounded (hn : 0 < n) :
    Bounded (s.readkmesg off n) (s.kmesg.buf.take s.kmesg.n) off n ↔ 0 ≤ off := by
  have hlen : (s.kmesg.buf.take s.kmesg.n).length = s.kmesg.n :=
    length_take_of_le (by rw [s.kmesg.size]; exact s.kmesg.le)
  rw [Cons.readkmesg]
  split
  · next hbeyond =>
    rw [bounded_none, hlen]
    omega
  · next hbefore =>
    have ho : off < s.kmesg.n := Int.lt_of_not_ge hbefore
    have hclip : (if (s.kmesg.n : Int) < off + n then s.kmesg.n - off else n) = min n (s.kmesg.n - off) := by
      split <;> omega
    rw [hclip, bounded_some hlen (by rw [s.kmesg.size]; exact s.kmesg.le) ho hn (by omega) (Or.inl rfl) ?_]
    · exact ⟨fun h => h.1, fun h => ⟨h, rfl, rfl⟩⟩
    · intro h0 hle
      rw [take_take, Nat.min_eq_left]
      omega

/-- **Bounded file reads.**  For every offset and every count: what is copied is the part of the file that was asked
for, and lies in the source buffer, exactly when the offset survives the conversions of the file's case. -/
theorem consread_bounded (s : Cons) (q : File) (n off : Int) (hn : 0 < n) (hn31 : n < 2147483648) :
    Bounded (consread s q n off) (contents s q) off n ↔ Ok s off n q := by
  cases q with
  | qcputime => exact cputime_bounded hn hn31
  | qkmesg => exact readkmesg_bounded hn
  | qpgrpid | qpid | qppid | qmach => exact readnum_bounded _ _ hn hn31
  | qtime =>
      have hsame : toLong (toUlong (toLong off)) = toLong off := by
        rw [toLong, toUlong, toLong]
        omega
      rw [consread, hsame]
      exact readstr_bounded hn hn31
  | qhostowner | qhostdomain | quser | qsysstat | qswap | qosversion
  | qdebug | qdrivers => exact readstr_bounded hn hn31
  | qsysname =>
      rw [consread, contents, Ok]
      cases hname : s.sysname with
      | none =>
          refine iff_of_true (bounded_none.mpr ?_) nofun
          exact Nat.le_trans (Nat.min_le_right _ _) (Nat.zero_le _)
      | some str =>
          refine (readstr_bounded hn hn31).trans ⟨fun h str' hstr => ?_, fun h => h str rfl⟩
          cases hstr
          exact h

/-- The process 8 of the user `gre`. -/
def someCons : Cons where
  pgrpid := 1
  pid := 8
  parentpid := 1
  machno := 0
  ticks := 1000
  time := [1, 2, 3, 4, 5, 6]
  times := rfl
  eve := ⟨⟨[0x67, 0x72, 0x65], by decide⟩, by decide⟩
  hostdomain := ⟨⟨[], by decide⟩, by decide⟩
  user := ⟨⟨[0x67, 0x72, 0x65], by decide⟩, by decide⟩
  sysname := none
  timestr := ⟨⟨[], by decide⟩, by decide⟩
  sysstat := ⟨⟨[], by decide⟩, by decide⟩
  swap := ⟨⟨[], by decide⟩, by decide⟩
  debug := ⟨⟨[], by decide⟩, by decide⟩
  drivers := ⟨⟨[], by decide⟩, by decide⟩
  kmesg := ⟨List.replicate 16384 0, length_replicate, 0, Nat.zero_le _⟩
  tmp := (List.replicate 64 0, List.replicate 512 0)
  tmpsize := ⟨length_replicate, length_replicate⟩

theorem consread_bounded_pid :
    Bounded (consread someCons .qpid 5 10) (contents someCons .qpid) 10 5 ∧
      (consread someCons .qpid 5 10).elim [] Move.bytes = [0x38, 0x20] := by
  refine ⟨(consread_bounded someCons .qpid 5 10 (by decide) (by decide)).mpr (Or.inl ⟨by decide, by decide⟩), ?_⟩
  decide +kernel

/-- With offset -2 the copying begins two bytes before the name of the user. -/
theorem consread_before :
    ¬ ∀ (s : Cons) (q : File) (n off : Int), 0 < n → n < 2147483648 → -9223372036854775808 ≤ off →
      off < 9223372036854775808 → Bounded (consread s q n off) (contents s q) off n := by
  intro hall
  have hinside := (hall someCons .quser 1 (-2) (by decide) (by decide) (by decide) (by decide)).1 _ rfl
  exact absurd hinside.1 (by decide)

end ConsRead
