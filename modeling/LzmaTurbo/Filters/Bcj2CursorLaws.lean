import LzmaTurbo.Filters.Bcj2Cursor

/-!
# The cursor port and the checked decoder

Pointers show the slices of a checked call when what lies behind them is what is left of those.
Every step of the port keeps this, so no access leaves its slice and both come to the same end.
-/
namespace LzmaTurbo.Filters
open Machine

/-- The pointers show the slices of a checked call, and the window its output and `spare`. -/
structure Cursors.Shows (c : Cursors) (s : Bcj2DecStreams) (spare : List UInt8) : Prop where
  stream : ∀ i < 4, (c.slices i).drop (c.bufs i) = Bcj2Dec.streamOf s i
  inside : ∀ i < 4, c.bufs i ≤ c.lim i
  aligned : s.Aligned
  window : c.window = s.dest ++ spare
  dest : c.dest = s.dest.length
  room : s.room = spare.length

namespace Bcj2Dec

section
variable {p : Bcj2Dec} {c : Cursors} {s : Bcj2DecStreams} {spare rest : List UInt8} {v : UInt32}
  {i k : ℕ} {b : UInt8}

theorem shows_start (h : s.Aligned) (hroom : spare.length = s.room) :
    (Cursors.start s spare).Shows s spare :=
  ⟨fun _ _ => rfl, fun _ _ => Nat.zero_le _, h, rfl, rfl, hroom.symm⟩

theorem shows_left (h : c.Shows s spare) : c.left = s ∧ c.window.drop c.dest = spare := by
  have hroom : c.destLim - c.dest = s.room := by
    rw [Cursors.destLim, h.window, h.dest, h.room, List.length_append, Nat.add_sub_cancel_left]
  refine ⟨?_, by rw [h.window, h.dest, List.drop_left]⟩
  unfold Cursors.left
  rw [h.stream _ (by decide), h.stream _ (by decide), h.stream _ (by decide),
    h.stream _ (by decide), hroom, h.window, h.dest, List.take_left]
  rfl

/-! ## Reading -/

theorem shows_empty (h : c.Shows s spare) (hi : i < 4) :
    c.bufs i = c.lim i ↔ streamOf s i = [] := by
  have hle := h.inside i hi
  rw [← h.stream i hi, List.drop_eq_nil_iff]
  exact ⟨fun heq => heq.ge, fun hge => le_antisymm hle hge⟩

theorem shows_load (h : c.Shows s spare) (hi : i < 4) (hb : (streamOf s i)[k]? = some b) :
    c.load i (c.bufs i + k) = .ok b := by
  rw [← h.stream i hi, List.getElem?_drop] at hb
  rw [Cursors.load, hb]

theorem shows_advance {s' : Bcj2DecStreams} {n : ℕ} (h : c.Shows s spare) (hi : i < 4)
    (hn : n ≤ (streamOf s i).length) (hself : streamOf s' i = (streamOf s i).drop n)
    (hother : ∀ j < 4, j ≠ i → streamOf s' j = streamOf s j) (haligned : s'.Aligned)
    (hdest : s'.dest = s.dest) (hroom : s'.room = s.room) : (c.advance i n).Shows s' spare where
  stream j hj := by
    change (c.slices j).drop (Function.update c.bufs i (c.bufs i + n) j) = _
    by_cases hji : j = i
    · rw [hji, Function.update_self, ← List.drop_drop, h.stream i hi, hself]
    · rw [Function.update_of_ne hji, h.stream j hj, hother j hj hji]
  inside j hj := by
    change Function.update c.bufs i (c.bufs i + n) j ≤ c.lim j
    by_cases hji : j = i
    · have hle := h.inside i hi
      rw [← h.stream i hi, List.length_drop] at hn
      rw [hji, Function.update_self]
      change _ ≤ (c.slices i).length
      change c.bufs i ≤ (c.slices i).length at hle
      omega
    · rw [Function.update_of_ne hji]
      exact h.inside j hj
  aligned := haligned
  window := hdest ▸ h.window
  dest := hdest ▸ h.dest
  room := hroom.trans h.room

theorem codeBehind_eq (code : ℕ) (b : UInt8) : codeBehind code b = shifted code b := by
  have hb := b.toNat_lt
  have hshift : u32 (code <<< 8) = (code % 2 ^ 24) <<< 8 := by
    rw [u32, Nat.shiftLeft_eq, Nat.shiftLeft_eq]
    omega
  rw [codeBehind, hshift, ← Nat.shiftLeft_add_eq_or_of_lt hb, Nat.shiftLeft_eq, shifted]
  omega

/-- A byte of the range-coded stream is there whenever the checked call has one. -/
theorem shows_rc {rc : List UInt8} (h : c.Shows s spare) (hrc : s.rc = b :: rc) :
    c.load streamRc (c.bufs streamRc) = .ok b ∧
      (c.advance streamRc 1).Shows { s with rc } spare := by
  have hstream : streamOf s streamRc = b :: rc := hrc
  refine ⟨shows_load (k := 0) h (by decide) (by rw [hstream]; rfl), ?_⟩
  refine shows_advance h (by decide) (by rw [hstream]; simp) (by rw [hstream]; rfl) ?_ h.aligned
    rfl rfl
  intro j hj hne
  have hrc' : j ≠ 3 := hne
  obtain rfl | rfl | rfl : j = 0 ∨ j = 1 ∨ j = 2 := by omega
  all_goals rfl

theorem cursorRefill_spec {rc : List UInt8} (h : c.Shows s spare) (hrc : s.rc = b :: rc)
    (hrange : p.range < bcj2TopValue) : ∃ c', cursorRefill p c = .ok (p.normalized b, c') ∧
      c'.Shows { s with rc } spare := by
  obtain ⟨hload, hnext⟩ := shows_rc h hrc
  have hlt : p.range < 2 ^ 24 := hrange
  have hshift : u32 (p.range <<< 8) = p.range * 256 := by
    rw [u32, Nat.shiftLeft_eq]
    omega
  refine ⟨_, ?_, hnext⟩
  rw [cursorRefill, hload, ok_bind, hshift, codeBehind_eq]
  rfl

/-- The outcome of the first five bytes, as a call returns it. -/
def primedResult : Primed → Option (Except Bcj2Error Unit)
  | .ready => none
  | .starved => some (.ok ())
  | .bad => some (.error .data)

def primedState (d : Bcj2Dec) : Primed → Bcj2Dec
  | .starved => { d with state := streamRc }
  | _ => d

theorem cursorPrime_spec (fuel : ℕ) (h : c.Shows s spare) (hfuel : 5 < fuel + p.range)
    (hrange : p.range ≤ 5) : ∃ c', cursorPrime fuel p c =
        .ok (primedResult (primeLoop p s.rc).1,
          primedState (primeLoop p s.rc).2.1 (primeLoop p s.rc).1, c') ∧
      c'.Shows { s with rc := (primeLoop p s.rc).2.2 } spare := by
  induction fuel generalizing p c s with
  | zero => omega
  | succ fuel ih =>
      rw [cursorPrime]
      by_cases h5 : p.range = 5
      · have hloop : primeLoop p s.rc = (.ready, p, s.rc) := by
          cases s.rc <;> rw [primeLoop, if_pos h5]
        rw [hloop, if_pos h5]
        exact ⟨c, rfl, h⟩
      by_cases hbad : p.range = 1 ∧ p.code ≠ 0
      · have hloop : primeLoop p s.rc = (.bad, p, s.rc) := by
          cases s.rc <;> rw [primeLoop, if_neg h5, if_pos hbad]
        rw [hloop, if_neg h5, if_pos hbad]
        exact ⟨c, rfl, h⟩
      rw [if_neg h5, if_neg hbad]
      cases hrc : s.rc with
      | nil =>
          have hend : c.bufs streamRc = c.lim streamRc := (shows_empty h (by decide)).2 hrc
          rw [primeLoop, if_neg h5, if_neg hbad, if_pos hend]
          exact ⟨c, rfl, by rw [← hrc]; exact h⟩
      | cons b rc =>
          have hmore : c.bufs streamRc ≠ c.lim streamRc := fun heq => by
            have hnil : s.rc = [] := (shows_empty h (by decide)).1 heq
            rw [hrc] at hnil
            cases hnil
          obtain ⟨hload, hnext⟩ := shows_rc h hrc
          rw [primeLoop, if_neg h5, if_neg hbad, if_neg hmore, hload, ok_bind, codeBehind_eq]
          exact ih (p := { p with code := shifted p.code b, range := p.range + 1 }) hnext
            (by show 5 < fuel + (p.range + 1); omega) (by show p.range + 1 ≤ 5; omega)

/-! ## Writing -/

theorem store_behind {front : List UInt8} {x : UInt8} (h : c.window = front ++ x :: rest)
    (hk : k = front.length) (b : UInt8) :
    c.store k b = .ok { c with window := front ++ b :: rest } := by
  have hlt : k < c.destLim := by
    rw [Cursors.destLim, h, hk]
    simp
  rw [Cursors.store, if_pos hlt, h, hk, List.set_append_right _ _ le_rfl, Nat.sub_self,
    List.set_cons_zero]

/-- A byte takes the place of the first that was spare. -/
theorem shows_put {x : UInt8} (h : c.Shows s (x :: rest)) (b : UInt8) :
    Cursors.Shows { c with window := s.dest ++ b :: rest, dest := c.dest + 1 } (s.put b) rest where
  stream := h.stream
  inside := h.inside
  aligned := h.aligned
  window := by
    change s.dest ++ b :: rest = (s.dest ++ [b]) ++ rest
    rw [List.append_assoc, List.singleton_append]
  dest := by
    change c.dest + 1 = (s.dest ++ [b]).length
    rw [h.dest, List.length_append, List.length_singleton]
  room := by
    change s.room - 1 = rest.length
    rw [h.room, List.length_cons, Nat.add_sub_cancel]

theorem emit_spec {x : UInt8} (h : c.Shows s (x :: rest)) (v : UInt32) : ∃ c', c.emit v = .ok c' ∧
    c'.Shows (s.put v.toUInt8) rest :=
  ⟨_, by rw [Cursors.emit, store_behind h.window h.dest, ok_bind], shows_put h v.toUInt8⟩

theorem full_iff (h : c.Shows s spare) : c.dest = c.destLim ↔ s.room = 0 := by
  rw [Cursors.destLim, h.window, h.dest, h.room, List.length_append]
  omega

theorem cursorOwed_spec {fuel left state : ℕ} (h : c.Shows s spare) (hleft : 0 < left)
    (hfuel : left ≤ fuel) (hstate : state + left = decStateOrig) :
    ∃ c' spare', c'.Shows (flushTarget left v s).2.2 spare' ∧ spare' <:+ spare ∧
      cursorOwed p fuel state v c = .ok (if (flushTarget left v s).1 = 0 then none
        else some { p with
          state := decStateOrig - (flushTarget left v s).1
          temp := (flushTarget left v s).2.1 }, (flushTarget left v s).2.1, c') := by
  induction left generalizing fuel state v c s spare with
  | zero => omega
  | succ left ih =>
      obtain ⟨fuel, rfl⟩ : ∃ n, fuel = n + 1 := ⟨fuel - 1, by omega⟩
      rw [cursorOwed, flushTarget]
      by_cases hroom : s.room = 0
      · rw [if_pos hroom, if_pos ((full_iff h).2 hroom), if_neg (Nat.succ_ne_zero left)]
        refine ⟨c, spare, h, List.suffix_rfl, ?_⟩
        rw [show decStateOrig - (left + 1) = state by omega]
      · rw [if_neg hroom, if_neg fun heq => hroom ((full_iff h).1 heq)]
        obtain ⟨x, rest, rfl⟩ : ∃ x rest, spare = x :: rest := by
          cases spare with
          | nil => exact absurd h.room hroom
          | cons x rest => exact ⟨x, rest, rfl⟩
        obtain ⟨c₁, hemit, h₁⟩ := emit_spec h v
        rw [hemit, ok_bind]
        by_cases hlast : left = 0
        · rw [if_pos hlast, if_pos (by omega)]
          exact ⟨c₁, rest, h₁, List.suffix_cons x rest, rfl⟩
        · rw [if_neg hlast, if_neg (by omega)]
          obtain ⟨c', spare', h', hsuf, howed⟩ := ih (v := v >>> 8) h₁ (by omega)
            (show left ≤ fuel by omega) (show state + 1 + left = decStateOrig by omega)
          exact ⟨c', spare', h', hsuf.trans (List.suffix_cons x rest), howed⟩

theorem cursorPart_spec {rem : ℕ} (h : c.Shows s spare) (hrem : rem ≤ spare.length) :
    ∃ c', cursorPart rem v c = .ok ((putPart rem v s).1, c') ∧
      c'.Shows (putPart rem v s).2 (spare.drop rem) := by
  induction rem generalizing v c s spare with
  | zero => exact ⟨c, rfl, h⟩
  | succ rem ih =>
      cases spare with
      | nil => simp at hrem
      | cons x rest =>
          obtain ⟨c₁, hemit, h₁⟩ := emit_spec h v
          rw [cursorPart, hemit, ok_bind, putPart]
          exact ih h₁ (by simpa using hrem)

theorem emitLe32_spec (h : c.Shows s spare) (hroom : 4 ≤ spare.length) :
    ∃ c', c.emitLe32 v = .ok c' ∧ c'.Shows (putWhole v s) (spare.drop 4) := by
  obtain ⟨x0, x1, x2, x3, rest, rfl⟩ :
      ∃ x0 x1 x2 x3 rest, spare = x0 :: x1 :: x2 :: x3 :: rest := by
    rcases spare with _ | ⟨x0, _ | ⟨x1, _ | ⟨x2, _ | ⟨x3, rest⟩⟩⟩⟩
    · simp at hroom
    · simp at hroom
    · simp at hroom
    · simp at hroom
    · exact ⟨x0, x1, x2, x3, rest, rfl⟩
  have hd := h.dest
  have h4 := shows_put (shows_put (shows_put (shows_put h v.toUInt8) (v >>> 8).toUInt8)
    (v >>> 16).toUInt8) (v >>> 24).toUInt8
  have hstore0 := store_behind h.window h.dest v.toUInt8
  have hstore1 := @store_behind { c with window := s.dest ++ v.toUInt8 :: x1 :: x2 :: x3 :: rest }
    (x2 :: x3 :: rest) (c.dest + 1) (s.dest ++ [v.toUInt8]) x1 (by simp) (by simp [hd])
    (v >>> 8).toUInt8
  have hstore2 := @store_behind { c with window := s.dest ++ [v.toUInt8] ++ (v >>> 8).toUInt8 ::
    x2 :: x3 :: rest } (x3 :: rest) (c.dest + 2) (s.dest ++ [v.toUInt8] ++ [(v >>> 8).toUInt8]) x2
    (by simp) (by simp [hd]) (v >>> 16).toUInt8
  have hstore3 := @store_behind { c with window := s.dest ++ [v.toUInt8] ++ [(v >>> 8).toUInt8] ++
    (v >>> 16).toUInt8 :: x3 :: rest } rest (c.dest + 3) (s.dest ++ [v.toUInt8] ++
    [(v >>> 8).toUInt8] ++ [(v >>> 16).toUInt8]) x3 (by simp) (by simp [hd]) (v >>> 24).toUInt8
  refine ⟨_, ?_, h4⟩
  rw [Cursors.emitLe32]
  simp only [hstore0, hstore1, hstore2, hstore3, ok_bind]
  rfl

/-! ## The scan -/

/-- The scan has copied `n` bytes; `hit` says whether the last of them is a marker. -/
structure Copied (c₀ : Cursors) (s : Bcj2DecStreams) (spare : List UInt8) (v₀ : UInt32) (n : ℕ)
    (hit : Bool) (dest : ℕ) (v : UInt32) (c : Cursors) : Prop where
  le_main : n ≤ s.main.length
  le_spare : n ≤ spare.length
  dest : dest = s.dest.length + n
  same : c = { c₀ with window := s.dest ++ s.main.take n ++ spare.drop n }
  scan : scanMain n s.main v₀ = (n, v, hit)

variable {c₀ : Cursors} {v₀ : UInt32} {n m src dest : ℕ} {hit : Bool}

theorem Copied.start (h : c.Shows s spare) (v : UInt32) :
    Copied c s spare v 0 false c.dest v c where
  le_main := Nat.zero_le _
  le_spare := Nat.zero_le _
  dest := h.dest
  same := by
    rw [List.take_zero, List.append_nil, List.drop_zero, ← h.window]
  scan := rfl

/-- One byte more. -/
theorem oneIter_spec (h : c₀.Shows s spare) (hc : Copied c₀ s spare v₀ n false dest v c)
    (hmain : n < s.main.length) (hspare : n < spare.length) (index : ℕ)
    (hsrc : src + index = c₀.bufs streamMain + n) :
    ∃ hit dest' v' c', oneIter c src index dest v = .ok (hit, dest', v', c') ∧
      Copied c₀ s spare v₀ (n + 1) hit dest' v' c' := by
  have hb : s.main[n]? = some s.main[n] := List.getElem?_eq_getElem hmain
  have hload : c.load streamMain (src + index) = .ok s.main[n] := by
    rw [hc.same, hsrc]
    exact (shows_load h (by decide) hb : c₀.load streamMain _ = _)
  have hwindow : c.window = (s.dest ++ s.main.take n) ++ spare[n] :: spare.drop (n + 1) := by
    rw [hc.same, ← List.drop_eq_getElem_cons hspare]
  have hstore := store_behind hwindow (show dest = _ by
    rw [hc.dest, List.length_append, List.length_take, Nat.min_eq_left hmain.le]) s.main[n]
  have hscan := hc.scan
  refine ⟨_, _, _, _, by rw [oneIter, hload, ok_bind, hstore, ok_bind], hmain, hspare, ?_, ?_, ?_⟩
  · rw [hc.dest, Nat.add_assoc]
  · rw [hc.same, List.take_succ_eq_append_getElem hmain]
    simp only [List.append_assoc, List.singleton_append]
  · rw [scanMain_add n 1 s.main v₀ hmain.le, hscan, if_neg Bool.false_ne_true,
      List.drop_eq_getElem_cons hmain, scanMain]
    by_cases hm : isMarker v s.main[n]
    · rw [if_pos hm, Nat.add_comm 1 n]
      exact congrArg (fun hit => (n + 1, rolled v s.main[n], hit)) hm.symm
    · rw [if_neg hm]
      change (0 + 1 + n, _) = _
      rw [Nat.zero_add, Nat.add_comm 1 n]
      exact congrArg (fun hit => (n + 1, rolled v s.main[n], hit))
        (Bool.not_eq_true _ ▸ hm).symm

/-- Up to `m` bytes more, from the index `k` on. -/
theorem iters_spec (h : c₀.Shows s spare) (hc : Copied c₀ s spare v₀ n false dest v c)
    (hmain : n + m ≤ s.main.length) (hspare : n + m ≤ spare.length)
    (hsrc : src + k = c₀.bufs streamMain + n) :
    ∃ hit n' dest' v' c', iters src (List.range' k m) dest v c = .ok (hit, dest', v', c') ∧
      Copied c₀ s spare v₀ n' hit dest' v' c' ∧ (hit = false → n' = n + m) := by
  induction m generalizing n k dest v c with
  | zero => exact ⟨false, n, dest, v, c, rfl, hc, fun _ => rfl⟩
  | succ m ih =>
      obtain ⟨hit, dest', v', c', hiter, hc'⟩ := oneIter_spec h hc (by omega) (by omega) k hsrc
      rw [List.range'_succ, iters, hiter, ok_bind]
      cases hit with
      | true => exact ⟨true, n + 1, dest', v', c', rfl, hc', by simp⟩
      | false =>
          obtain ⟨hit, n', dest'', v'', c'', hiters, hc'', hend⟩ := ih (k := k + 1) hc' (by omega)
            (by omega) (by omega)
          exact ⟨hit, n', dest'', v'', c'', hiters, hc'', fun hf => by rw [hend hf]; omega⟩

theorem quads_spec {q : ℕ} (fuel : ℕ) (h : c₀.Shows s spare)
    (hc : Copied c₀ s spare v₀ n false dest v c) (hmain : n + 4 * q ≤ s.main.length)
    (hspare : n + 4 * q ≤ spare.length) (hsrc : src = c₀.bufs streamMain + n) (hfuel : q < fuel) :
    ∃ hit n' src' dest' v' c', quads (src + 4 * q) fuel src dest v c =
        .ok (hit, src', dest', v', c') ∧ Copied c₀ s spare v₀ n' hit dest' v' c' ∧
      (hit = false → n' = n + 4 * q ∧ src' = c₀.bufs streamMain + n') := by
  induction q generalizing fuel n src dest v c with
  | zero =>
      obtain ⟨fuel, rfl⟩ : ∃ f, fuel = f + 1 := ⟨fuel - 1, by omega⟩
      rw [quads, if_pos (by omega)]
      exact ⟨false, n, src, dest, v, c, rfl, hc, fun _ => ⟨rfl, hsrc⟩⟩
  | succ q ih =>
      obtain ⟨fuel, rfl⟩ : ∃ f, fuel = f + 1 := ⟨fuel - 1, by omega⟩
      obtain ⟨hit, n', dest', v', c', hiters, hc', hend⟩ := iters_spec (k := 0) (m := 4) h hc
        (by omega) (by omega) hsrc
      rw [quads, if_neg (by omega), show [0, 1, 2, 3] = List.range' 0 4 from rfl, hiters, ok_bind]
      cases hit with
      | true => exact ⟨true, n', src, dest', v', c', rfl, hc', by simp⟩
      | false =>
          obtain rfl := hend rfl
          have hnext := ih fuel hc' (by omega) (by omega)
            (show src + 4 = c₀.bufs streamMain + (n + 4) by omega) (by omega)
          rwa [show src + 4 + 4 * q = src + 4 * (q + 1) by omega,
            show n + 4 + 4 * q = n + 4 * (q + 1) by omega] at hnext

theorem tail_spec (fuel : ℕ) (h : c₀.Shows s spare)
    (hc : Copied c₀ s spare v₀ n false dest v c) (hsrc : src = c₀.bufs streamMain + n)
    (hfuel : s.main.length < fuel + n) :
    ∃ hit n' src' dest' v' c', tail fuel src dest v c = .ok (hit, src', dest', v', c') ∧
      Copied c₀ s spare v₀ n' hit dest' v' c' ∧
      (hit = false → n' = min s.main.length spare.length ∧ src' = c₀.bufs streamMain + n') := by
  induction fuel generalizing n src dest v c with
  | zero =>
      have hle := hc.le_main
      omega
  | succ fuel ih =>
      have hle := hc.le_main
      have hle' := hc.le_spare
      have hlim : c.lim streamMain = c₀.bufs streamMain + s.main.length := by
        have hin := h.inside streamMain (by decide)
        have hlen := congrArg List.length (h.stream streamMain (by decide))
        rw [List.length_drop] at hlen
        change (c₀.slices streamMain).length - _ = s.main.length at hlen
        change _ ≤ (c₀.slices streamMain).length at hin
        rw [hc.same]
        change (c₀.slices streamMain).length = _
        omega
      have hdest : c.destLim = s.dest.length + spare.length := by
        rw [hc.same]
        change (s.dest ++ s.main.take n ++ spare.drop n).length = _
        simp only [List.length_append, List.length_take, List.length_drop]
        omega
      rw [tail, hlim, hdest, hc.dest]
      by_cases hend : src = c₀.bufs streamMain + s.main.length ∨
          s.dest.length + n = s.dest.length + spare.length
      · rw [if_pos hend]
        exact ⟨false, n, src, _, v, c, rfl, hc.dest ▸ hc, fun _ => ⟨by omega, hsrc⟩⟩
      · rw [if_neg hend]
        obtain ⟨hit, dest', v', c', hiter, hc'⟩ := oneIter_spec h (hc.dest ▸ hc)
          (by omega) (by omega) 0 hsrc
        rw [hiter, ok_bind]
        cases hit with
        | true => exact ⟨true, n + 1, src, dest', v', c', rfl, hc', by simp⟩
        | false => exact ih hc' (by omega) (by omega)

/-- The pointers of the scan end where the checked scan does. -/
theorem cursorScan_spec (h : c.Shows s spare) (v : UInt32) :
    ∃ hit n src v' c', cursorScan c v = .ok (hit, src, s.dest.length + n, v', c') ∧
      Copied c s spare v n hit (s.dest.length + n) v' c' ∧
      copyMain s.main s.room v = (n, v', hit) ∧ (hit = false → src = c.bufs streamMain + n) := by
  have hlen := congrArg List.length (h.stream streamMain (by decide))
  rw [List.length_drop] at hlen
  change (c.slices streamMain).length - _ = s.main.length at hlen
  have hout : c.destLim - c.dest = spare.length := by
    rw [Cursors.destLim, h.window, h.dest, List.length_append, Nat.add_sub_cancel_left]
  have hle : c.dest ≤ c.destLim := by
    rw [Cursors.destLim, h.window, h.dest, List.length_append]
    exact Nat.le_add_right _ _
  have hsplit : ∀ {n' v' hit}, scanMain n' s.main v = (n', v', hit) → n' ≤ s.main.length →
      n' ≤ spare.length → (hit = false → n' = min s.main.length spare.length) →
      copyMain s.main s.room v = (n', v', hit) := by
    intro n' v' hit hscan hmain hspare hend
    rw [copyMain_eq, h.room]
    cases hit with
    | false => rw [← hend rfl, hscan]
    | true =>
        rw [show min s.main.length spare.length =
          n' + (min s.main.length spare.length - n') by omega, scanMain_add _ _ _ _ hmain, hscan,
          if_pos rfl]
  rw [cursorScan, sub_ok (h.inside streamMain (by decide)), ok_bind, sub_ok hle, ok_bind,
    show c.lim streamMain - c.bufs streamMain = s.main.length from hlen, hout]
  obtain ⟨q, hq⟩ : ∃ q, min s.main.length spare.length / 4 = q := ⟨_, rfl⟩
  rw [hq, Nat.mul_comm q 4]
  obtain ⟨hit, n, src, dest, v', c', hquads, hc, hend⟩ := quads_spec (q := q)
    (4 * q + 1) h (Copied.start h v) (by omega) (by omega) rfl (by omega)
  rw [Nat.add_zero] at hquads
  dsimp only
  rw [hquads, ok_bind]
  cases hit with
  | true =>
      have hdest := hc.dest
      subst hdest
      exact ⟨true, n, src, v', c', rfl, hc, hsplit hc.scan hc.le_main hc.le_spare (by simp),
        by simp⟩
  | false =>
      obtain ⟨-, hsrc⟩ := hend rfl
      obtain ⟨hit, n', src', dest', v'', c'', htail, hc', hend'⟩ := tail_spec
        (s.main.length + 1) h hc hsrc (by omega)
      have hdest := hc'.dest
      subst hdest
      exact ⟨hit, n', src', v'', c'', htail, hc', hsplit hc'.scan hc'.le_main hc'.le_spare
        fun hf => (hend' hf).1, fun hf => (hend' hf).2⟩

/-- What the scan has copied, its pointers moved. -/
theorem Copied.shows (h : c₀.Shows s spare) (hc : Copied c₀ s spare v₀ n hit dest v c) :
    Cursors.Shows { c₀.advance streamMain n with
      window := s.dest ++ s.main.take n ++ spare.drop n, dest } (s.copy n) (spare.drop n) := by
  have hmoved : (c₀.advance streamMain n).Shows { s with main := s.main.drop n } spare := by
    refine shows_advance h (by decide) hc.le_main rfl (fun j hj hne => ?_) h.aligned rfl rfl
    have hpos : j ≠ 0 := hne
    obtain rfl | rfl | rfl : j = 1 ∨ j = 2 ∨ j = 3 := by omega
    all_goals rfl
  refine ⟨hmoved.stream, hmoved.inside, h.aligned, rfl, ?_, ?_⟩
  · change dest = (s.dest ++ s.main.take n).length
    rw [hc.dest, List.length_append, List.length_take, Nat.min_eq_left hc.le_main]
  · change s.room - n = (spare.drop n).length
    rw [h.room, List.length_drop]

/-! ## A turn -/

/-- A word of the call or the jump stream, where there is one. -/
theorem side_word {xs : List UInt8} (h : xs.length % 4 = 0) :
    xs = [] ∨ ∃ a b d e rest, xs = a :: b :: d :: e :: rest := by
  rcases xs with _ | ⟨a, _ | ⟨b, _ | ⟨d, _ | ⟨e, rest⟩⟩⟩⟩
  · exact .inl rfl
  · simp at h
  · simp at h
  · simp at h
  · exact .inr ⟨a, b, d, e, rest, rfl⟩

theorem streamOf_side {cj : ℕ} (hcj : cj = streamCall ∨ cj = streamJump) :
    streamOf s cj = s.side cj := by
  rcases hcj with rfl | rfl <;> rfl

theorem side_aligned (cj : ℕ) (h : s.Aligned) : (s.side cj).length % 4 = 0 := by
  unfold Bcj2DecStreams.side
  split
  · exact h.1
  · exact h.2

theorem side_of_is32bit {cj : ℕ} (h : is32bitStream cj = true) :
    cj = streamCall ∨ cj = streamJump := by
  rwa [is32bitStream, Bool.or_eq_true, beq_iff_eq, beq_iff_eq] at h

theorem shows_word {cj : ℕ} (h : c.Shows s spare) (hcj : cj = streamCall ∨ cj = streamJump)
    {a b d e : UInt8} {rest : List UInt8} (hside : s.side cj = a :: b :: d :: e :: rest) :
    c.loadBe32 cj (c.bufs cj) = .ok (getBe32 a b d e) ∧
      (c.advance cj 4).Shows (s.setSide cj rest) spare := by
  have hlt : cj < 4 := by
    rcases hcj with rfl | rfl
    · decide
    · decide
  have hstream : streamOf s cj = a :: b :: d :: e :: rest := (streamOf_side hcj).trans hside
  have hload : ∀ k x, (a :: b :: d :: e :: rest)[k]? = some x →
      c.load cj (c.bufs cj + k) = .ok x := fun k x hx => shows_load h hlt (by rw [hstream, hx])
  have hwords := side_aligned cj h.aligned
  rw [hside] at hwords
  constructor
  · rw [Cursors.loadBe32, show c.load cj (c.bufs cj) = .ok a from hload 0 a rfl, ok_bind,
      hload 1 b rfl, ok_bind, hload 2 d rfl, ok_bind, hload 3 e rfl, ok_bind]
  · have hrest : rest.length % 4 = 0 := by
      simp only [List.length_cons] at hwords
      omega
    rcases hcj with rfl | rfl
    · refine shows_advance h hlt (by rw [hstream]; simp) (by rw [hstream]; rfl)
        (fun j hj hne => ?_) ⟨hrest, h.aligned.2⟩ rfl rfl
      have hpos : j ≠ 1 := hne
      obtain rfl | rfl | rfl : j = 0 ∨ j = 2 ∨ j = 3 := by omega
      all_goals rfl
    · refine shows_advance h hlt (by rw [hstream]; simp) (by rw [hstream]; rfl)
        (fun j hj hne => ?_) ⟨h.aligned.1, hrest⟩ rfl rfl
      have hpos : j ≠ 2 := hne
      obtain rfl | rfl | rfl : j = 0 ∨ j = 1 ∨ j = 3 := by omega
      all_goals rfl

theorem cursorLast_spec (h : c.Shows s spare) :
    ∃ c', cursorLast p c = .ok ((lastNormalize p s).1, c') ∧
      c'.Shows (lastNormalize p s).2 spare := by
  unfold cursorLast lastNormalize
  by_cases hrange : p.range < bcj2TopValue
  · rw [if_pos hrange]
    cases hrc : s.rc with
    | nil =>
        have hend : c.bufs streamRc = c.lim streamRc := (shows_empty h (by decide)).2 hrc
        rw [if_neg fun hne => hne.2 hend]
        exact ⟨c, rfl, h⟩
    | cons b rc =>
        have hmore : c.bufs streamRc ≠ c.lim streamRc := fun heq => by
          have hnil : s.rc = [] := (shows_empty h (by decide)).1 heq
          rw [hrc] at hnil
          cases hnil
        rw [if_pos ⟨hrange, hmore⟩]
        exact cursorRefill_spec h hrc hrange
  · rw [if_neg hrange, if_neg fun hboth => hrange hboth.1]
    exact ⟨c, rfl, h⟩

/-- A turn of the port does what the checked turn does. -/
inductive Follows (spare : List UInt8) : CursorTurn → Turn → Prop
  | stop {p : Bcj2Dec} {c : Cursors} {s : Bcj2DecStreams} {spare' : List UInt8} :
      c.Shows s spare' → spare' <:+ spare → Follows spare (.stop p c) (.stop p s)
  | leave {p : Bcj2Dec} {c : Cursors} {s : Bcj2DecStreams} {spare' : List UInt8} :
      c.Shows s spare' → spare' <:+ spare →
      Follows spare (.leave p c) (.stop (lastNormalize p s).1 (lastNormalize p s).2)
  | again {p : Bcj2Dec} {v : UInt32} {c : Cursors} {s : Bcj2DecStreams} {spare' : List UInt8} :
      c.Shows s spare' → spare' <:+ spare → Follows spare (.again p v c) (.again p v s)

theorem Follows.mono {t : CursorTurn} {t' : Turn} {spare' : List UInt8}
    (h : Follows spare' t t') (hsuf : spare' <:+ spare) : Follows spare t t' := by
  cases h with
  | stop hc hs => exact .stop hc (hs.trans hsuf)
  | leave hc hs => exact .leave hc (hs.trans hsuf)
  | again hc hs => exact .again hc (hs.trans hsuf)

theorem cursorBranch_spec (h : c.Shows s spare) (p : Bcj2Dec) (v : UInt32) :
    ∃ t, cursorBranch p v c = .ok t ∧ Follows spare t (branchTurn p v s) := by
  have hcj := side_of_is32bit (branchStream_side v)
  have hlt : branchStream v < 4 := by
    rcases hcj with hcj | hcj <;> rw [hcj] <;> decide
  have hempty := shows_empty h hlt
  rw [streamOf_side hcj] at hempty
  unfold cursorBranch branchTurn
  dsimp only
  rcases side_word (side_aligned (branchStream v) h.aligned) with hside | hside
  · rw [if_pos (hempty.2 hside), hside]
    exact ⟨_, rfl, .leave h List.suffix_rfl⟩
  · obtain ⟨a, b, d, e, rest, hside⟩ := hside
    obtain ⟨hword, h₁⟩ := shows_word h hcj hside
    have hmore : c.bufs (branchStream v) ≠ c.lim (branchStream v) := fun heq => by
      have hnil := hempty.1 heq
      rw [hside] at hnil
      cases hnil
    have hroom : (c.advance (branchStream v) 4).destLim - (c.advance (branchStream v) 4).dest =
        (s.setSide (branchStream v) rest).room := by
      rw [Cursors.destLim, h₁.window, h₁.dest, h₁.room, List.length_append, Nat.add_sub_cancel_left]
    have hle : (c.advance (branchStream v) 4).dest ≤ (c.advance (branchStream v) 4).destLim := by
      rw [Cursors.destLim, h₁.window, h₁.dest, List.length_append]
      exact Nat.le_add_right _ _
    simp only [if_neg hmore, hside, hword, ok_bind, sub_ok hle, hroom]
    by_cases hshort : (s.setSide (branchStream v) rest).room < 4
    · obtain ⟨c', hpart, h'⟩ := cursorPart_spec (v := getBe32 a b d e - (p.ip + 4)) h₁ h₁.room.le
      simp only [if_pos hshort, hpart, ok_bind]
      exact ⟨_, rfl, .leave h' (List.drop_suffix _ _)⟩
    · obtain ⟨c', hemit, h'⟩ := emitLe32_spec (v := getBe32 a b d e - (p.ip + 4)) h₁
        (by rw [← h₁.room]; omega)
      simp only [if_neg hshort, hemit, ok_bind]
      exact ⟨_, rfl, .again h' (List.drop_suffix _ _)⟩

theorem cursorBit_spec (h : c.Shows s spare) (p : Bcj2Dec) (v : UInt32) :
    ∃ t, cursorBit p v c = .ok t ∧
      Follows spare t (if (p.decodeBit v).1 then branchTurn (p.decodeBit v).2 v s
        else .again (p.decodeBit v).2 v s) := by
  have hbound : p.range >>> bcj2NumBitModelTotalBits = p.range / bcj2BitModelTotal :=
    Nat.shiftRight_eq_div_pow _ _
  have hmove : ∀ x, x >>> bcj2NumMoveBits = x / 32 := fun x => Nat.shiftRight_eq_div_pow x _
  unfold cursorBit decodeBit
  dsimp only
  rw [hbound, hmove, hmove]
  by_cases hlow : p.code < p.range / bcj2BitModelTotal * p.probs (probIndex v)
  · simp only [if_pos hlow, Bool.false_eq_true, if_false]
    exact ⟨_, rfl, .again h List.suffix_rfl⟩
  · simp only [if_neg hlow, if_true]
    exact cursorBranch_spec h _ v

theorem cursorCopy_spec (h : c.Shows s spare) (p : Bcj2Dec) (v : UInt32) :
    ∃ t, cursorCopy p v c = .ok t ∧ Follows spare t (scanTurn copyMainScan p v s) := by
  obtain ⟨hit, n, src, v', c', hscan, hc, hcopy, hend⟩ := cursorScan_spec h v
  have hshows := hc.shows h
  have hsame : { c'.advance streamMain n with dest := s.dest.length + n } =
      { c.advance streamMain n with
        window := s.dest ++ s.main.take n ++ spare.drop n, dest := s.dest.length + n } := by
    rw [hc.same]
    rfl
  have hsuf : spare.drop n <:+ spare := List.drop_suffix _ _
  unfold cursorCopy scanTurn
  rw [hscan, ok_bind, show copyMainScan.scan s.main s.room v = (n, v', hit) from hcopy]
  dsimp only
  cases hit with
  | true =>
      have hdest : c'.dest = s.dest.length := by rw [hc.same, ← h.dest]
      rw [if_pos rfl, if_pos rfl, hdest, sub_ok (Nat.le_add_right _ _), ok_bind,
        Nat.add_sub_cancel_left, hsame]
      obtain ⟨t, hbit, hf⟩ := cursorBit_spec hshows
        { p with ip := p.ip + UInt32.ofNat n } v'
      exact ⟨t, hbit, hf.mono hsuf⟩
  | false =>
      have hbufs : c'.bufs streamMain = c.bufs streamMain := by rw [hc.same]
      have hends : src = c'.lim streamMain ↔ (s.copy n).main = [] := by
        refine Iff.trans ?_ (shows_empty hshows (i := streamMain) (by decide))
        change _ ↔ Function.update c.bufs streamMain (c.bufs streamMain + n) streamMain = _
        rw [Function.update_self, hend rfl, hc.same]
        rfl
      rw [if_neg Bool.false_ne_true, if_neg Bool.false_ne_true, hbufs, hend rfl,
        sub_ok (Nat.le_add_right _ _), ok_bind, Nat.add_sub_cancel_left, ← hend rfl, hsame]
      simp only [hends]
      exact ⟨_, rfl, .stop hshows hsuf⟩

theorem cursorTurn_spec (h : c.Shows s spare) (p : Bcj2Dec) (v : UInt32) :
    ∃ t, cursorTurn p v c = .ok t ∧ Follows spare t (mainTurn copyMainScan p v s) := by
  unfold cursorTurn mainTurn
  by_cases hrange : p.range < bcj2TopValue
  · rw [if_pos hrange, if_pos hrange]
    cases hrc : s.rc with
    | nil =>
        have hend : c.bufs streamRc = c.lim streamRc := (shows_empty h (by decide)).2 hrc
        rw [if_pos hend]
        exact ⟨_, rfl, .stop h List.suffix_rfl⟩
    | cons b rc =>
        have hmore : c.bufs streamRc ≠ c.lim streamRc := fun heq => by
          have hnil : s.rc = [] := (shows_empty h (by decide)).1 heq
          rw [hrc] at hnil
          cases hnil
        obtain ⟨c', hrefill, h'⟩ := cursorRefill_spec h hrc hrange
        rw [if_neg hmore, hrefill, ok_bind]
        exact cursorCopy_spec h' _ v
  · rw [if_neg hrange, if_neg hrange]
    exact cursorCopy_spec h p v

/-! ## A call -/

theorem cursorLoop_spec (fuel : ℕ) (h : c.Shows s spare) (p : Bcj2Dec) (v : UInt32)
    (hfuel : s.main.length < fuel) : ∃ c' spare',
      cursorLoop fuel p v c = .ok ((mainLoop copyMainScan p v s).1, c') ∧
      c'.Shows (mainLoop copyMainScan p v s).2 spare' ∧ spare' <:+ spare := by
  fun_induction mainLoop copyMainScan p v s generalizing fuel c spare with
  | case1 p v s p' s' hmain =>
      obtain ⟨fuel, rfl⟩ : ∃ f, fuel = f + 1 := ⟨fuel - 1, by omega⟩
      obtain ⟨t, hturn, hf⟩ := cursorTurn_spec h p v
      rw [cursorLoop, hturn, ok_bind]
      rw [hmain] at hf
      cases hf with
      | stop hc hsuf => exact ⟨_, _, rfl, hc, hsuf⟩
      | leave hc hsuf =>
          obtain ⟨c', hlast, hc'⟩ := cursorLast_spec hc
          exact ⟨c', _, hlast, hc', hsuf⟩
  | case2 p v s p' v' s' hmain ih =>
      obtain ⟨fuel, rfl⟩ : ∃ f, fuel = f + 1 := ⟨fuel - 1, by omega⟩
      obtain ⟨t, hturn, hf⟩ := cursorTurn_spec h p v
      have hshort := mainTurn_shorter hmain
      rw [cursorLoop, hturn, ok_bind]
      rw [hmain] at hf
      cases hf with
      | again hc hsuf =>
          obtain ⟨c', spare', hloop, hc', hsuf'⟩ := ih fuel hc (by omega)
          exact ⟨c', spare', hloop, hc', hsuf'.trans hsuf⟩

theorem flushTarget_main (left : ℕ) (v : UInt32) (s : Bcj2DecStreams) :
    (flushTarget left v s).2.2.main = s.main := by
  fun_induction flushTarget left v s with
  | case1 v s => rfl
  | case2 left v s h => rfl
  | case3 v s h => rfl
  | case4 left v s h hlast ih => exact ih

theorem cursorAfter_owed {fuel left state : ℕ} (h : c.Shows s spare) (p : Bcj2Dec) (v : UInt32)
    (hfuel : s.main.length < fuel) (hleft : 0 < left) (hle : left ≤ 4)
    (hstate : state + left = decStateOrig) : ∃ c' spare',
      cursorAfter fuel p state v c = .ok ((afterTarget copyMainScan p left v s).1, c') ∧
      c'.Shows (afterTarget copyMainScan p left v s).2 spare' ∧ spare' <:+ spare := by
  have horig : decStateOrig = decStateOrig0 + 4 := rfl
  obtain ⟨c₁, spare₁, h₁, hsuf, howed⟩ := cursorOwed_spec (p := p) (v := v) h hleft hle hstate
  have hmain := flushTarget_main left v s
  rw [cursorAfter, if_pos (by omega), howed, ok_bind, afterTarget]
  by_cases hdone : (flushTarget left v s).1 = 0
  · simp only [if_pos hdone]
    obtain ⟨c', spare', hloop, h', hsuf'⟩ := cursorLoop_spec _ h₁ p (flushTarget left v s).2.1
      (hmain ▸ hfuel)
    exact ⟨c', spare', hloop, h', hsuf'.trans hsuf⟩
  · simp only [if_neg hdone]
    exact ⟨c₁, spare₁, rfl, h₁, hsuf⟩

theorem cursorResume_spec {fuel : ℕ} (h : c.Shows s spare) (p : Bcj2Dec)
    (hfuel : s.main.length < fuel) : ∃ c' spare',
      cursorResume fuel p c = .ok ((resume copyMainScan p s).1, c') ∧
      c'.Shows (resume copyMainScan p s).2 spare' ∧ spare' <:+ spare := by
  unfold cursorResume resume
  by_cases hside : is32bitStream p.state = true
  · have hcj := side_of_is32bit hside
    have hlt : p.state < 4 := by
      rcases hcj with hcj | hcj <;> rw [hcj] <;> decide
    have hempty := shows_empty h hlt
    rw [streamOf_side hcj] at hempty
    rw [if_pos hside, if_pos hside]
    rcases side_word (side_aligned p.state h.aligned) with hnil | hword
    · rw [if_pos (hempty.2 hnil), hnil]
      exact ⟨c, spare, rfl, h, List.suffix_rfl⟩
    · obtain ⟨a, b, d, e, rest, hword⟩ := hword
      obtain ⟨hload, h₁⟩ := shows_word h hcj hword
      have hmore : c.bufs p.state ≠ c.lim p.state := fun heq => by
        have hnil := hempty.1 heq
        rw [hword] at hnil
        cases hnil
      simp only [if_neg hmore, hword, hload, ok_bind]
      exact cursorAfter_owed h₁ _ _ (by rwa [Bcj2DecStreams.setSide_main]) (by norm_num) le_rfl rfl
  · rw [if_neg hside, if_neg hside]
    by_cases howed : decStateOrig0 ≤ p.state ∧ p.state < decStateOrig
    · have horig : decStateOrig = decStateOrig0 + 4 := rfl
      rw [if_pos howed]
      exact cursorAfter_owed h p _ hfuel (by omega) (by omega) (by omega)
    · have howed' : ¬(decStateOrig0 ≤ p.state ∧ p.state < decStateOrig0 + 4) := howed
      rw [if_neg howed, cursorAfter, if_neg howed']
      exact cursorLoop_spec _ h p _ hfuel

theorem decodeInner_spec {fuel : ℕ} (h : c.Shows s spare) (p : Bcj2Dec)
    (hfuel : s.main.length < fuel) : ∃ c' spare',
      decodeInner fuel p c = .ok ((p.decodeChecked s).1, (p.decodeChecked s).2.1, c') ∧
      c'.Shows (p.decodeChecked s).2.2 spare' ∧ spare' <:+ spare := by
  unfold decodeInner decodeChecked decodeWith
  rw [if_neg (not_not.2 h.aligned)]
  by_cases hrange : p.range ≤ 5
  · rw [if_pos hrange, if_pos hrange]
    obtain ⟨c₁, hprime, h₁⟩ := cursorPrime_spec (p := { p with state := decStateError }) 6 h
      (Nat.lt_of_lt_of_le (by norm_num) (Nat.le_add_right 6 _)) hrange
    rw [hprime, ok_bind]
    generalize primeLoop { p with state := decStateError } s.rc = primed at h₁
    obtain ⟨outcome, p₁, rc⟩ := primed
    cases outcome with
    | bad => exact ⟨c₁, spare, rfl, h₁, List.suffix_rfl⟩
    | starved => exact ⟨c₁, spare, rfl, h₁, List.suffix_rfl⟩
    | ready =>
        simp only [primedResult, primedState]
        by_cases hcode : p₁.code = 0xFFFFFFFF
        · rw [if_pos hcode, if_pos hcode]
          exact ⟨c₁, spare, rfl, h₁, List.suffix_rfl⟩
        · rw [if_neg hcode, if_neg hcode]
          obtain ⟨c', spare', hresume, h', hsuf⟩ := cursorResume_spec h₁
            { p₁ with range := 0xFFFFFFFF } hfuel
          exact ⟨c', spare', by rw [hresume]; rfl, h', hsuf⟩
  · rw [if_neg hrange, if_neg hrange]
    obtain ⟨c', spare', hresume, h', hsuf⟩ := cursorResume_spec h p hfuel
    exact ⟨c', spare', by rw [hresume]; rfl, h', hsuf⟩

/-- The port reads and writes inside its slices only, returns what the checked decoder returns
and leaves the rest of the window alone. -/
theorem cursorDecode_eq (p : Bcj2Dec) (s : Bcj2DecStreams) (hroom : spare.length = s.room) :
    ∃ rest, rest <:+ spare ∧ rest.length = (p.decodeChecked s).2.2.room ∧
      cursorDecode p s spare = .ok (p.decodeChecked s, rest) := by
  unfold cursorDecode
  by_cases haligned : s.Aligned
  · rw [if_neg (not_not.2 haligned)]
    obtain ⟨c, rest, hinner, hshows, hsuf⟩ := decodeInner_spec (shows_start haligned hroom) p
      (Nat.lt_succ_self s.main.length)
    obtain ⟨hleft, hrest⟩ := shows_left hshows
    rw [hinner, ok_bind]
    dsimp only
    rw [hleft, hrest]
    exact ⟨rest, hsuf, hshows.room.symm, rfl⟩
  · rw [if_pos haligned]
    refine ⟨spare, List.suffix_rfl, ?_, rfl⟩
    unfold decodeChecked decodeWith
    rw [if_pos haligned]
    exact hroom

end
end Bcj2Dec
end LzmaTurbo.Filters
