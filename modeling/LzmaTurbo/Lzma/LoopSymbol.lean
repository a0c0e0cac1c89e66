import LzmaTurbo.Lzma.Procedures
import LzmaTurbo.Lzma.ReferenceLaws
import LzmaTurbo.Lzma.DecodeReal

/-!
# One symbol of the loop is one symbol of the format

`Mirrors` ties the loop's locals to a reference state whose history is what the
dictionary holds. Under it, the body of the loop asks exactly the questions of
`symbolProg` and then does `finishSymbol`, which no longer reads any bit.
-/
namespace LzmaTurbo.Lzma
open Machine BitProgram Window
open RangeDecoder (Coder)

/-- The loop's constants, as `envOf` derives them from the properties. -/
structure Env.For (e : Env) (prop : LzmaProps) : Prop where
  pbMask : e.pbMask = (1 <<< prop.pb) - 1
  lc : e.lc = prop.lc
  lpMask : e.lpMask = (0x100 <<< prop.lp) - (0x100 >>> prop.lc)
  size_lt : e.dicBufSize < 2 ^ 63

/-- The history fits: a distance within reach is a place in the buffer. -/
def Fits (prop : LzmaProps) (size pos len : ℕ) : Prop := prop.dictSize ≤ size ∨ len ≤ pos

def checkOf (prop : LzmaProps) (len : ℕ) : ℕ := if len < prop.dictSize then 0 else prop.dictSize

structure Mirrors (prop : LzmaProps) (e : Env) (r : Regs) (s : RefState) : Prop where
  holds : Holds r.dic e.dicBufSize r.dicPos s.hist
  fits : Fits prop e.dicBufSize r.dicPos s.hist.length
  processed : r.processedPos = s.hist.length % 2 ^ 32
  check : e.checkDicSize = checkOf prop s.hist.length
  state : r.state = s.state
  reps : r.reps = s.reps

/-- Before the first byte the only literals are unmatched ones. -/
def RefState.Plain (s : RefState) : Prop := s.hist = [] → s.state = 0

/-- What is left of the loop's body once the symbol's bits are read. -/
def finishSymbol (e : Env) (r : Regs) : Symbol → Rc → Except Fault (Flow × Regs)
  | .lit b, rc => do
      let dic ← put r.dic r.dicPos b
      .ok (.body, { r with rc, state := litState r.state, dic, dicPos := r.dicPos + 1
                           processedPos := wrappingAdd32 r.processedPos 1 })
  | .shortRep, rc => decodeShortRep e { r with rc }
  | .rep index len, rc =>
      copyMatch e { r with rc, reps := r.reps.front index, state := repState r.state
                           len := len - 2 }
  | .simple dist len, rc =>
      if dist = 0xFFFFFFFF then .ok (.outer, { r with rc, len := kMatchSpecLenStart })
      else
        let reps : Reps := ⟨wrappingAdd32 dist 1, r.reps.rep0, r.reps.rep1, r.reps.rep2⟩
        if (if e.checkDicSize = 0 then r.processedPos else e.checkDicSize) ≤ dist then
          .ok (.outer, { r with rc, state := matchState r.state, reps
                                len := len - 2 + (kMatchSpecLenErrorData + kMatchMinLen) })
        else copyMatch e { r with rc, state := matchState r.state, reps, len := len - 2 }

theorem dicIndex_eq {size pos k : ℕ} (hs : size < 2 ^ 63) (hp : pos ≤ size)
    (hk : k ≤ size) : dicIndex size pos k = back size pos k := by
  unfold dicIndex wrappingAdd64 wrappingSub64 back
  split <;> omega

theorem Fits.back_le {prop : LzmaProps} {size pos len k : ℕ} (h : Fits prop size pos len)
    (hp : pos ≤ size) (hk : k ≤ len) (hd : k ≤ prop.dictSize) : k ≤ size := by
  rcases h with h | h <;> omega

theorem and_two_pow_sub {x a b : ℕ} (h : b ≤ a) :
    x &&& (2 ^ a - 2 ^ b) = x / 2 ^ b % 2 ^ (a - b) * 2 ^ b := by
  have hm : 2 ^ a - 2 ^ b = (2 ^ (a - b) - 1) <<< b := by
    rw [Nat.shiftLeft_eq, Nat.sub_mul, ← pow_add, one_mul, Nat.sub_add_cancel h]
  rw [hm, ← Nat.shiftLeft_eq, ← Nat.shiftRight_eq_div_pow, ← Nat.and_two_pow_sub_one_eq_mod]
  apply Nat.eq_of_testBit_eq
  intro i
  simp only [Nat.testBit_and, Nat.testBit_shiftLeft, Nat.testBit_shiftRight]
  by_cases hi : b ≤ i
  · simp [hi, show b + (i - b) = i by omega]
  · simp [hi]

/-- The masked shift of the loop picks the literal table of the format. -/
theorem literalIndex_eq {lc lp pos prev : ℕ} (hlc : lc ≤ 8) (hlp : lp ≤ 4) (hprev : prev < 256) :
    u32 ((wrappingAdd32 (u32 ((pos % 2 ^ 32) <<< 8)) prev &&&
      ((0x100 <<< lp) - (0x100 >>> lc))) <<< lc) =
      256 * (pos % 2 ^ lp * 2 ^ lc + prev / 2 ^ (8 - lc)) := by
  have h8 : (256 : ℕ) = 2 ^ (8 - lc) * 2 ^ lc := by
    rw [← pow_add, show 8 - lc + lc = 8 by omega]
    norm_num
  have hmask : (0x100 <<< lp) - (0x100 >>> lc) = 2 ^ (8 + lp) - 2 ^ (8 - lc) := by
    rw [Nat.shiftLeft_eq, Nat.shiftRight_eq_div_pow, pow_add]
    conv_lhs => rw [h8, Nat.mul_div_cancel _ (Nat.two_pow_pos lc), ← h8]
    norm_num
  have hx : wrappingAdd32 (u32 ((pos % 2 ^ 32) <<< 8)) prev = pos % 2 ^ 24 * 256 + prev := by
    simp only [wrappingAdd32, u32, Nat.shiftLeft_eq]
    omega
  have hdiv : (pos % 2 ^ 24 * 256 + prev) / 2 ^ (8 - lc) =
      pos % 2 ^ 24 * 2 ^ lc + prev / 2 ^ (8 - lc) := by
    rw [show pos % 2 ^ 24 * 256 = 2 ^ (8 - lc) * (pos % 2 ^ 24 * 2 ^ lc) by rw [h8]; ring,
      Nat.mul_add_div (by positivity)]
  have hr : prev / 2 ^ (8 - lc) < 2 ^ lc := Nat.div_lt_of_lt_mul (by omega)
  have hmod : (pos % 2 ^ 24 * 2 ^ lc + prev / 2 ^ (8 - lc)) % 2 ^ (8 + lp - (8 - lc)) =
      pos % 2 ^ lp * 2 ^ lc + prev / 2 ^ (8 - lc) := by
    have hq : pos % 2 ^ 24 = 2 ^ lp * (pos % 2 ^ 24 / 2 ^ lp) + pos % 2 ^ lp := by
      rw [← Nat.mod_mod_of_dvd pos (Nat.pow_dvd_pow 2 (show lp ≤ 24 by omega)),
        Nat.div_add_mod]
    have hlt : pos % 2 ^ lp + 1 ≤ 2 ^ lp := Nat.mod_lt _ (by positivity)
    have hlt' : (pos % 2 ^ lp + 1) * 2 ^ lc ≤ 2 ^ lp * 2 ^ lc := Nat.mul_le_mul_right _ hlt
    rw [Nat.add_mul] at hlt'
    rw [show 8 + lp - (8 - lc) = lp + lc by omega, pow_add]
    conv_lhs => rw [hq]
    rw [show (2 ^ lp * (pos % 2 ^ 24 / 2 ^ lp) + pos % 2 ^ lp) * 2 ^ lc + prev / 2 ^ (8 - lc) =
      2 ^ lp * 2 ^ lc * (pos % 2 ^ 24 / 2 ^ lp) + (pos % 2 ^ lp * 2 ^ lc + prev / 2 ^ (8 - lc))
      by ring, Nat.mul_add_mod, Nat.mod_eq_of_lt (by omega)]
  rw [hmask, hx, and_two_pow_sub (by omega), hdiv, hmod, u32, Nat.shiftLeft_eq, mul_assoc, ← h8,
    mul_comm]
  apply Nat.mod_eq_of_lt
  have h1 : pos % 2 ^ lp < 2 ^ lp := Nat.mod_lt _ (by positivity)
  have h2 : (2 : ℕ) ^ lp ≤ 2 ^ 4 := Nat.pow_le_pow_right (by norm_num) hlp
  have h3 : (2 : ℕ) ^ lc ≤ 2 ^ 8 := Nat.pow_le_pow_right (by norm_num) hlc
  have h4 : pos % 2 ^ lp * 2 ^ lc ≤ 2 ^ 4 * 2 ^ 8 := Nat.mul_le_mul (by omega) h3
  omega

section
variable {prop : LzmaProps} {e : Env} {r : Regs} {s : RefState}

theorem checkOf_zero {prop : LzmaProps} {len : ℕ} : checkOf prop len = 0 ↔ len < prop.dictSize := by
  have hd := prop.dict_ge
  have h1 : (1 : ℕ) ≤ lzmaDicMin := by decide
  unfold checkOf
  split <;> omega

/-- `processed_pos` and `check_dic_size` are both zero only before the first byte. -/
theorem position_zero {prop : LzmaProps} {len : ℕ} :
    (len % 2 ^ 32 = 0 ∧ checkOf prop len = 0) ↔ len = 0 := by
  have hd := prop.dict_lt
  have hg := prop.dict_ge
  have h1 : (1 : ℕ) ≤ lzmaDicMin := by decide
  rw [checkOf_zero]
  omega

theorem Mirrors.get_back (h : Mirrors prop e r s) (he : e.For prop) {k : ℕ}
    (hk : k < s.hist.length) (hd : k < prop.dictSize) :
    get r.dic (dicIndex e.dicBufSize r.dicPos (k + 1)) = .ok (s.hist.getD k 0) := by
  have hb := h.fits.back_le h.holds.pos_le (show k + 1 ≤ _ by omega) (by omega)
  rw [dicIndex_eq he.size_lt h.holds.pos_le hb]
  exact get_ok (h.holds.get hk (by omega))

/-- Both decoders read the last byte written the same way. -/
theorem Holds.last {dic : Array UInt8} {size pos : ℕ} {b : UInt8} {hist : List UInt8}
    (h : Holds dic size pos (b :: hist)) (hs : 0 < size) :
    ∃ i, sub (if pos = 0 then size else pos) 1 = .ok i ∧ get dic i = .ok b := by
  have hpos := h.pos_le
  refine ⟨back size pos (0 + 1), ?_, get_ok (h.get (k := 0) (by simp) hs)⟩
  unfold back
  split
  · rw [sub_ok (by omega), if_pos (by omega)]
    congr 1
    omega
  · rw [sub_ok (by omega), if_neg (by omega)]

theorem Mirrors.size_pos (h : Mirrors prop e r s) (hne : s.hist ≠ []) : 0 < e.dicBufSize := by
  have hd := prop.dict_ge
  have h1 : (1 : ℕ) ≤ lzmaDicMin := by decide
  have hlen := List.length_pos_iff.mpr hne
  have hsize := h.fits.back_le h.holds.pos_le (k := 1) hlen (by omega)
  omega

theorem Mirrors.literalProb (h : Mirrors prop e r s) (he : e.For prop) :
    literalProb e r = .ok (litProbOf prop s.hist) := by
  have hz : (s.hist.length % 2 ^ 32 = 0 ∧ checkOf prop s.hist.length = 0) ↔ s.hist.length = 0 :=
    position_zero
  unfold Lzma.literalProb litProbOf
  rw [h.processed, h.check]
  cases hh : s.hist with
  | nil => simp [checkOf, prop.dict_ge.trans_lt', show 0 < lzmaDicMin by decide]
  | cons b hist =>
      rw [hh, List.length_cons] at hz
      have hne : (b :: hist).length % 2 ^ 32 ≠ 0 ∨ checkOf prop (b :: hist).length ≠ 0 := by
        rw [List.length_cons]
        omega
      obtain ⟨i, hi, hget⟩ := Holds.last (hh ▸ h.holds) (h.size_pos (by simp [hh]))
      rw [if_pos hne, hi, ok_bind, hget, ok_bind, he.lc, he.lpMask,
        literalIndex_eq prop.lc_le prop.lp_le b.toNat_lt, List.headD_cons,
        show lzmaLitSize = 3 * 256 from rfl, mul_assoc]

theorem decodeLiteral_follows {src : List UInt8} {size N : ℕ} (hN : N ≤ size) (he : e.For prop)
    (hc : (s.ctx prop).Ok N) (hp : s.Plain) (hr : s.reps.Ok prop s.hist)
    (h : Mirrors prop e r s) (hsrc : e.src = src) {c : Coder ℕ} {rest : List UInt8}
    (ht : Tracks src size N r.rc c rest) :
    Follows src size N (decodeLiteral e r) (litProg (s.ctx prop)) c rest (finishSymbol e r) := by
  have hl := layout
  have h1 := hc.lit_ge
  have h2 := hc.lit_le
  have hlit : (s.ctx prop).litProb = litProbOf prop s.hist := rfl
  unfold decodeLiteral litProg
  rw [h.literalProb he, hsrc, h.state, show (s.ctx prop).state = s.state from rfl, ok_bind]
  by_cases hs : s.state < kNumLitStates
  · have hsub : sub s.state (if s.state < 4 then s.state else 3) = .ok (litState s.state) := by
      unfold litState
      split
      · rw [sub_ok le_rfl, Nat.sub_self]
      · rw [sub_ok (by omega), if_pos (by omega)]
    rw [if_pos hs, if_pos hs, hsub, ok_bind]
    refine Follows.bind (treeDecode_follows hN (by omega) ht) (tree_spec _ 8).returns
      (fun b rc' c' rest' _ h' => follows_pure h' ?_)
    simp only [ok_bind, finishSymbol, h.state]
  · have hne : s.hist ≠ [] := fun hnil => hs (by rw [hp hnil]; decide)
    have hlen := List.length_pos_iff.mpr hne
    have hr0 := hr 0
    simp only [Reps.nth] at hr0
    have hget := h.get_back he (k := s.reps.rep0 - 1) (by omega) (by omega)
    rw [show s.reps.rep0 - 1 + 1 = s.reps.rep0 by omega] at hget
    have hsub : sub s.state (if s.state < 10 then 3 else 6) = .ok (litState s.state) := by
      unfold litState
      rw [if_neg (show ¬ s.state < 4 by omega)]
      by_cases h10 : s.state < 10
      · rw [if_pos h10, if_pos h10, sub_ok (by omega)]
      · rw [if_neg h10, if_neg h10, sub_ok (by omega)]
    rw [if_neg hs, if_neg hs, h.reps, hget, hsub, ok_bind, ok_bind]
    have hm := matchedLiterDec_follows hN (s.hist.getD (s.reps.rep0 - 1) 0).toNat 1 true
      (le_refl 8) (by norm_num)
      (show litProbOf prop s.hist + lzmaLitSize ≤ N by omega) ht
    rw [show 8 - 8 = 0 from rfl, pow_zero, mul_one, if_pos rfl] at hm
    refine Follows.bind hm (matchedTree_spec _ _).returns
      (fun b rc' c' rest' _ h' => follows_pure h' ?_)
    simp only [ok_bind, finishSymbol, h.state, h.reps]

theorem copyMatch_follows {src : List UInt8} {size N : ℕ} {c : Coder ℕ} {rest : List UInt8}
    (hN : N ≤ size) {posState : ℕ} (hp : posState < 16) (hb : lenCoder ≤ N)
    (hs : r.state < kNumStates) (hsrc : e.src = src) (ht : Tracks src size N r.rc c rest)
    {index : ℕ} {r₀ : Regs} (hr : ∀ rc, { r with rc } =
      { r₀ with rc, reps := r₀.reps.front index, state := repState r₀.state }) :
    Follows src size N (decodeMatch e r (16 * posState) repLenCoder)
      ((lenProg repLenCoder posState).bind fun len => .pure (.rep index (len + 2))) c rest
      (finishSymbol e r₀) := by
  have hl := layout
  unfold decodeMatch
  rw [hsrc]
  refine Follows.bind (lenDecode_follows hN hp (by omega) ht) (lenProg_spec _ hp).returns
    (fun len rc' c' rest' _ h' => follows_pure h' ?_)
  simp only [bind, Except.bind]
  rw [if_neg (by omega)]
  show copyMatch e { ({ r with rc := rc' } : Regs) with len := len } = _
  rw [hr rc']
  rfl

theorem simpleMatch_follows {src : List UInt8} {size N : ℕ} {c : Coder ℕ} {rest : List UInt8}
    (hN : N ≤ size) {posState : ℕ} (hp : posState < 16) (hb : literal ≤ N)
    (hsrc : e.src = src) (ht : Tracks src size N r.rc c rest) :
    Follows src size N
      (decodeMatch e { r with state := r.state + kNumStates } (16 * posState) lenCoder)
      ((lenProg lenCoder posState).bind fun len =>
        (distProg len).bind fun dist => .pure (.simple dist (len + 2))) c rest
      (finishSymbol e r) := by
  have hl := layout
  unfold decodeMatch
  rw [hsrc]
  refine Follows.bind (lenDecode_follows hN hp (by omega) ht) (lenProg_spec _ hp).returns
    (fun len rc₁ c₁ rest₁ _ h₁ => ?_)
  simp only [bind, Except.bind]
  rw [if_pos (by omega)]
  refine Follows.bind (distanceDecode_follows hN hb len h₁) (distProg_spec len).returns
    (fun dist rc₂ c₂ rest₂ _ h₂ => follows_pure h₂ ?_)
  simp only [bind, Except.bind, finishSymbol, sub_ok (show kNumStates ≤ r.state + kNumStates by omega),
    Nat.add_sub_cancel]
  have hst : (if r.state + kNumStates < kNumStates + kNumLitStates then kNumLitStates
      else kNumLitStates + 3) = matchState r.state := by
    unfold matchState
    split <;> split <;> omega
  rw [hst]

/-- The loop asks what the format asks, and does what it does. -/
theorem decodeSymbol_follows {src : List UInt8} {size N : ℕ} (hN : N ≤ size) (he : e.For prop)
    (hc : (s.ctx prop).Ok N) (hp : s.Plain) (hr : s.reps.Ok prop s.hist)
    (h : Mirrors prop e r s) (hsrc : e.src = src) {c : Coder ℕ} {rest : List UInt8}
    (ht : Tracks src size N r.rc c rest) :
    Follows src size N (decodeSymbol e r)
      (symbolProg { s.ctx prop with canRep := true }) c rest (finishSymbol e r) := by
  have hl := layout
  have h1 := hc.lit_ge
  have h2 := hc.lit_le
  have hst : s.state < kNumStates := hc.state_lt
  have hps := hc.posState_lt
  have hposState : (r.processedPos &&& e.pbMask) <<< 4 = 16 * (s.ctx prop).posState := by
    rw [he.pbMask, Nat.one_shiftLeft, Nat.and_two_pow_sub_one_eq_mod, h.processed,
      Nat.shiftLeft_eq, Nat.mod_mod_of_dvd _ (Nat.pow_dvd_pow 2 (by have := prop.pb_le; omega)),
      mul_comm]
    rfl
  have hm : ∀ rc, Mirrors prop e { r with rc } s := fun rc =>
    ⟨h.holds, h.fits, h.processed, h.check, h.state, h.reps⟩
  have hs := h.state
  obtain ⟨rc, st, reps, dic, dicPos, processedPos, len⟩ := r
  simp only at hs hposState hm
  subst hs
  unfold decodeSymbol symbolProg
  simp only [hposState, hsrc]
  refine follows_ifBit ht hN (by omega) (fun b rc₁ c₁ rest₁ h₁ => ?_)
  cases b with
  | false => exact decodeLiteral_follows hN he hc hp hr (hm rc₁) hsrc h₁
  | true =>
      refine follows_ifBit h₁ hN (by omega) (fun b rc₂ c₂ rest₂ h₂ => ?_)
      cases b with
      | false =>
          exact simpleMatch_follows (r := ⟨rc₂, s.state, reps, dic, dicPos, processedPos, len⟩)
            hN hps (by omega) hsrc h₂
      | true =>
          refine follows_ifBit h₂ hN (by omega) (fun b rc₃ c₃ rest₃ h₃ => ?_)
          have hlen : lenCoder ≤ N := by omega
          have hrep : (if s.state < kNumLitStates then 8 else 11) < kNumStates := by
            split <;> omega
          cases b with
          | false =>
              refine follows_ifBit h₃ hN (by omega) (fun b rc₄ c₄ rest₄ h₄ => ?_)
              cases b with
              | false => exact follows_pure h₄ rfl
              | true => exact copyMatch_follows hN hps hlen hrep hsrc h₄ (fun _ => rfl)
          | true =>
              simp only [selectRep, bind_assoc, hsrc]
              refine follows_ifBit h₃ hN (by omega) (fun b rc₄ c₄ rest₄ h₄ => ?_)
              cases b with
              | false => exact copyMatch_follows hN hps hlen hrep hsrc h₄ (fun _ => rfl)
              | true =>
                  simp only [Bool.not_true, Bool.false_eq_true, if_false, bind_assoc]
                  refine follows_ifBit h₄ hN (show isRepG2 + s.state < N by omega)
                    (fun b rc₅ c₅ rest₅ h₅ => ?_)
                  cases b with
                  | false =>
                      exact copyMatch_follows hN hps hlen hrep hsrc h₅ (fun _ => rfl)
                  | true =>
                      exact copyMatch_follows hN hps hlen hrep hsrc h₅ (fun _ => rfl)

end
end LzmaTurbo.Lzma
