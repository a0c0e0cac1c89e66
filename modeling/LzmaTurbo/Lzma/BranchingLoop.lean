import LzmaTurbo.Lzma.Branching
import LzmaTurbo.Lzma.DecodeReal

/-!
# The loop with its branches

The fast loop over the forms of the C macros, the source's in all else. From any registers in
use the two loops run alike, whatever the input, and leave registers in use.
-/
namespace LzmaTurbo.Lzma
open Machine

namespace Branching

def lenDecode (src : List UInt8) (prob posState : ℕ) (rc : Rc) : Except Fault (ℕ × Rc) := do
  let (bit, rc) ← ifBit src (prob + lenChoice) rc
  if !bit then do
    let (len, rc) ← treeDecode src (prob + (lenLow + posState)) 2 rc
    let len ← sub len 8
    .ok (len, rc)
  else do
    let (bit, rc) ← ifBit src (prob + lenChoice2) rc
    if !bit then
      treeDecode src (prob + (lenLow + posState + (1 <<< kLenNumLowBits))) 2 rc
    else do
      let (len, rc) ← treeDecode src (prob + lenHigh) (kLenNumHighBits - 1) rc
      let len ← sub len (1 <<< kLenNumHighBits)
      .ok (len + kLenNumLowSymbols * 2, rc)

def distanceDecode (src : List UInt8) (len : ℕ) (rc : Rc) : Except Fault (ℕ × Rc) := do
  let temp := (if len < kNumLenToPosStates then len else kNumLenToPosStates - 1)
    <<< kNumPosSlotBits
  let (distance, rc) ← treeDecode src (posSlot + temp) 5 rc
  let distance ← sub distance 0x40
  if kStartPosModelIndex ≤ distance then do
    let slot := distance
    let numDirectBits ← sub (distance >>> 1) 1
    let distance := 2 ||| (distance &&& 1)
    if slot < kEndPosModelIndex then do
      let distance := distance <<< numDirectBits
      let (distance, m, rc) ← revBitVars src specPos numDirectBits (distance + 1) 1 rc
      let distance ← sub distance m
      .ok (distance, rc)
    else do
      let numDirectBits ← sub numDirectBits kNumAlignBits
      let (distance, rc) ← directBits src numDirectBits distance rc
      let distance := u32 (distance <<< kNumAlignBits)
      let (i, rc) ← revBitConst src align 1 1 rc
      let (i, rc) ← revBitConst src align i 2 rc
      let (i, rc) ← revBitConst src align i 4 rc
      let (i, rc) ← revBitLast src align i 8 rc
      .ok (distance ||| i, rc)
  else .ok (distance, rc)

def decodeLiteral (e : Env) (r : Regs) : Except Fault (Flow × Regs) := do
  let prob ← literalProb e r
  let processedPos := wrappingAdd32 r.processedPos 1
  if r.state < kNumLitStates then do
    let state ← sub r.state (if r.state < 4 then r.state else 3)
    let (symbol, rc) ← treeDecode e.src prob 7 r.rc
    let dic ← put r.dic r.dicPos (UInt8.ofNat symbol)
    .ok (.body, { r with rc, state, dic, dicPos := r.dicPos + 1, processedPos })
  else do
    let matchByte ← get r.dic (dicIndex e.dicBufSize r.dicPos r.reps.rep0)
    let state ← sub r.state (if r.state < 10 then 3 else 6)
    let (symbol, rc) ← matchedLiterDec e.src prob 8 1 matchByte.toNat 0x100 r.rc
    let dic ← put r.dic r.dicPos (UInt8.ofNat symbol)
    .ok (.body, { r with rc, state, dic, dicPos := r.dicPos + 1, processedPos })

def decodeMatch (e : Env) (r : Regs) (posState prob : ℕ) : Except Fault (Flow × Regs) := do
  let (len, rc) ← lenDecode e.src prob posState r.rc
  if kNumStates ≤ r.state then do
    let (distance, rc) ← distanceDecode e.src len rc
    if distance = 0xFFFFFFFF then do
      let state ← sub r.state kNumStates
      .ok (.outer, { r with rc, state, len := kMatchSpecLenStart })
    else do
      let reps : Reps := ⟨wrappingAdd32 distance 1, r.reps.rep0, r.reps.rep1, r.reps.rep2⟩
      let state := if r.state < kNumStates + kNumLitStates then kNumLitStates
        else kNumLitStates + 3
      if (if e.checkDicSize = 0 then r.processedPos else e.checkDicSize) ≤ distance then
        .ok (.outer, { r with rc, state, reps
                              len := len + (kMatchSpecLenErrorData + kMatchMinLen) })
      else copyMatch e { r with rc, state, reps, len }
  else copyMatch e { r with rc, len }

def decodeSymbol (e : Env) (r : Regs) : Except Fault (Flow × Regs) := do
  let posState := (r.processedPos &&& e.pbMask) <<< 4
  let (bit, rc) ← ifBit e.src (isMatch + (posState + r.state)) r.rc
  if !bit then decodeLiteral e { r with rc }
  else do
    let (bit, rc) ← ifBit e.src (isRep + r.state) rc
    if !bit then decodeMatch e { r with rc, state := r.state + kNumStates } posState lenCoder
    else do
      let (bit, rc) ← ifBit e.src (isRepG0 + r.state) rc
      let state := if r.state < kNumLitStates then 8 else 11
      if !bit then do
        let (bit, rc) ← ifBit e.src (isRep0Long + (posState + r.state)) rc
        if !bit then decodeShortRep e { r with rc }
        else decodeMatch e { r with rc, state } posState repLenCoder
      else do
        let (reps, rc) ← selectRep e { r with rc }
        decodeMatch e { r with rc, reps, state } posState repLenCoder

def decodeLoop (e : Env) : ℕ → Regs → Except Fault Regs
  | 0, _ => .error .fuel
  | fuel + 1, r => do
      let (flow, r) ← decodeSymbol e r
      match flow with
      | .outer => .ok r
      | .body => if r.dicPos < e.limit ∧ r.rc.buf < e.bufLimit then decodeLoop e fuel r else .ok r

def lzmaDecDecodeReal (p : LzmaDec) (limit : ℕ) (src : List UInt8) (bufLimit : ℕ) :
    Except Fault RealResult := do
  let r ← decodeLoop (envOf p limit src bufLimit) (limit - p.dicPos + 1) (regsOf p)
  let rc ← normalize src r.rc
  .ok { p := { p with probs := rc.probs, dic := r.dic, range := rc.range, code := rc.code
                      remainLen := r.len, dicPos := r.dicPos, processedPos := r.processedPos
                      reps := r.reps, state := r.state }
        buf := rc.buf
        ok := decide (r.len < kMatchSpecLenErrorData) }

end Branching

section
variable {src : List UInt8} {rc : Rc} {N : ℕ}

theorem lenDecode_same {prob posState : ℕ} (hp : posState ≤ 240) (hb : prob + kNumLenProbs ≤ N)
    (h : rc.InUse N) :
    EqualRuns (lenDecode src prob posState rc) (Branching.lenDecode src prob posState rc)
      (fun t => t.2.InUse N) := by
  have hl := layout
  unfold lenDecode Branching.lenDecode
  refine (ifBit_same h _).bind fun t ht => ?_
  refine .ite (fun _ => ?_) (fun _ => ?_)
  · refine (treeDecode_same ?_ ht.1).bind fun u hu => (sub_same _ _).bind fun _ _ => .ok hu
    norm_num
    omega
  · refine (ifBit_same ht.1 _).bind fun u hu => ?_
    refine .ite (fun _ => ?_) (fun _ => ?_)
    · refine treeDecode_same ?_ hu.1
      norm_num
      omega
    · refine (treeDecode_same ?_ hu.1).bind fun v hv => (sub_same _ _).bind fun _ _ => .ok hv
      norm_num
      omega

theorem directBits_same (n distance : ℕ) (h : rc.InUse N) :
    EqualRuns (directBits src n distance rc) (directBits src n distance rc)
      (fun t => t.2.InUse N) := by
  induction n generalizing distance rc with
  | zero => exact .ok h
  | succ n ih =>
      unfold directBits
      refine (normalize_same h).bind fun rc' ⟨h', _⟩ => ?_
      have hlt := h'.range_lt
      have hhalf : rc'.range >>> 1 ≤ rc'.range := Nat.shiftRight_le _ _
      exact ih _ ⟨by show rc'.range >>> 1 < 2 ^ 32; omega, h'.prob⟩

theorem distanceDecode_same (len : ℕ) (hb : numBaseProbs ≤ N) (hN : N < 2 ^ 32)
    (h : rc.InUse N) :
    EqualRuns (distanceDecode src len rc) (Branching.distanceDecode src len rc)
      (fun t => t.2.InUse N) := by
  have hl := layout
  unfold distanceDecode Branching.distanceDecode
  have htemp : (if len < kNumLenToPosStates then len else kNumLenToPosStates - 1)
      <<< kNumPosSlotBits ≤ 192 := by
    rw [Nat.shiftLeft_eq]
    split
    · norm_num at *
      omega
    · norm_num
  refine (treeDecode_same (by rw [show 2 ^ (5 + 1) = 64 from rfl]; omega) h).bind fun t ht => ?_
  refine (sub_same _ _).bind fun distance _ => ?_
  refine .ite (fun _ => ?_) (fun _ => .ok ht)
  refine (sub_same _ _).bind fun numDirectBits hnum => ?_
  refine .ite (fun hslot => ?_) (fun _ => ?_)
  · have hnum : numDirectBits ≤ 5 := by
      rw [hnum, Nat.shiftRight_eq_div_pow]
      omega
    have hlow : 2 ||| (distance &&& 1) ≤ 3 := by
      rw [Nat.and_one_is_mod]
      obtain h0 | h1 := Nat.mod_two_eq_zero_or_one distance
      · rw [h0]
        decide
      · rw [h1]
        decide
    have hpow : 2 ^ numDirectBits ≤ 2 ^ 5 := Nat.pow_le_pow_right (by norm_num) hnum
    have hoff : (2 ||| (distance &&& 1)) <<< numDirectBits ≤ 3 * 2 ^ 5 := by
      rw [Nat.shiftLeft_eq]
      exact Nat.mul_le_mul hlow hpow
    refine (revBitVars_same one_pos (by omega) hN ht).bind fun u hu => ?_
    exact (sub_same _ _).bind fun _ _ => .ok hu
  · refine (sub_same _ _).bind fun _ _ => (directBits_same _ _ ht).bind fun u hu => ?_
    refine (revBitConst_same (by omega) (by norm_num) hu).bind fun i₁ ⟨h₁, hu₁⟩ => ?_
    refine (revBitConst_same (by omega) (by norm_num) hu₁).bind fun i₂ ⟨h₂, hu₂⟩ => ?_
    refine (revBitConst_same (by omega) (by norm_num) hu₂).bind fun i₃ ⟨h₃, hu₃⟩ => ?_
    exact (revBitLast_same (by omega) (by norm_num) hu₃).bind fun i₄ hu₄ => .ok hu₄

end

/-- The loop's constants keep its trees in the first `N` entries. -/
structure Env.Within (e : Env) (N : ℕ) : Prop where
  pb_lt : e.pbMask < kNumPosStatesMax
  base_le : numBaseProbs ≤ N
  literal_le : ∀ x, literal + 3 * u32 ((x &&& e.lpMask) <<< e.lc) + lzmaLitSize ≤ N
  lt : N < 2 ^ 32

/-- Whatever the context, the last literal tree is the furthest. -/
theorem literalIndex_le {lc : ℕ} (hlc : lc ≤ 8) (lp x : ℕ) :
    u32 ((x &&& ((0x100 <<< lp) - (0x100 >>> lc))) <<< lc) + 0x100 ≤ 0x100 * 2 ^ (lc + lp) := by
  obtain ⟨mask, hmask⟩ : ∃ mask, (0x100 <<< lp) - (0x100 >>> lc) = mask := ⟨_, rfl⟩
  have hlow : 0x100 >>> lc * 2 ^ lc = 0x100 := by
    rw [Nat.shiftRight_eq_div_pow]
    exact Nat.div_mul_cancel (Nat.pow_dvd_pow 2 hlc)
  have hshift : mask * 2 ^ lc = 0x100 * 2 ^ (lc + lp) - 0x100 := by
    rw [← hmask, Nat.sub_mul, hlow, Nat.shiftLeft_eq, mul_assoc, ← pow_add, add_comm lp]
  have hand : (x &&& mask) * 2 ^ lc ≤ mask * 2 ^ lc := Nat.mul_le_mul_right _ Nat.and_le_right
  have hmod : u32 ((x &&& mask) * 2 ^ lc) ≤ (x &&& mask) * 2 ^ lc := Nat.mod_le _ _
  have hone := Nat.one_le_two_pow (n := lc + lp)
  rw [hmask, Nat.shiftLeft_eq]
  omega

theorem envOf_within (p : LzmaDec) (limit : ℕ) (src : List UInt8) (bufLimit : ℕ) :
    (envOf p limit src bufLimit).Within (lzmaPropsGetNumProbs p.prop.lc p.prop.lp) := by
  have hl := layout
  have hlc := p.prop.lc_le
  have hlp := p.prop.lp_le
  have hpb := p.prop.pb_le
  have hnum : lzmaPropsGetNumProbs p.prop.lc p.prop.lp =
      1984 + 768 * 2 ^ (p.prop.lc + p.prop.lp) := by
    unfold lzmaPropsGetNumProbs
    rw [Nat.shiftLeft_eq]
    rfl
  rw [hnum]
  refine ⟨?_, by omega, fun x => ?_, ?_⟩
  · have hpow : (2 : ℕ) ^ p.prop.pb ≤ 2 ^ 4 := Nat.pow_le_pow_right (by norm_num) hpb
    have h16 : kNumPosStatesMax = 16 := by decide
    change (1 <<< p.prop.pb) - 1 < kNumPosStatesMax
    rw [Nat.shiftLeft_eq]
    omega
  · have hindex := literalIndex_le hlc p.prop.lp x
    change literal + 3 * u32 ((x &&& ((0x100 <<< p.prop.lp) - (0x100 >>> p.prop.lc))) <<< p.prop.lc) +
      lzmaLitSize ≤ _
    omega
  · have hpow : (2 : ℕ) ^ (p.prop.lc + p.prop.lp) ≤ 2 ^ 12 :=
      Nat.pow_le_pow_right (by norm_num) (by omega)
    omega

section
variable {e : Env} {r : Regs} {N : ℕ}

theorem literalProb_same (he : e.Within N) (r : Regs) :
    EqualRuns (literalProb e r) (literalProb e r) (fun prob => prob + lzmaLitSize ≤ N) := by
  have h₀ := he.literal_le 0
  have hl := layout
  unfold literalProb
  refine .ite (fun _ => ?_) (fun _ => .ok (by omega))
  refine (sub_same _ _).bind fun _ _ => (EqualRuns.shared _).bind fun _ _ => .ok ?_
  exact he.literal_le _

theorem decodeLiteral_same (he : e.Within N) (h : r.rc.InUse N) :
    EqualRuns (decodeLiteral e r) (Branching.decodeLiteral e r) (fun t => t.2.rc.InUse N) := by
  have hl := layout
  unfold decodeLiteral Branching.decodeLiteral
  refine (literalProb_same he r).bind fun prob hprob => .ite (fun _ => ?_) (fun _ => ?_)
  · refine (sub_same _ _).bind fun _ _ => ?_
    refine (treeDecode_same (by omega) h).bind fun t ht => ?_
    exact (EqualRuns.shared _).bind fun _ _ => .ok ht
  · refine (EqualRuns.shared _).bind fun matchByte _ => (sub_same _ _).bind fun _ _ => ?_
    refine (matchedLiterDec_same (d := 8) matchByte.toNat (by norm_num) le_rfl (.inr rfl)
      (by omega) (by norm_num) h).bind fun t ht => ?_
    exact (EqualRuns.shared _).bind fun _ _ => .ok ht

theorem copyMatch_same (h : r.rc.InUse N) :
    EqualRuns (copyMatch e r) (copyMatch e r) (fun t => t.2.rc.InUse N) := by
  unfold copyMatch
  refine (sub_same _ _).bind fun _ _ => .ite (fun _ => .ok h) (fun _ => ?_)
  refine (sub_same _ _).bind fun _ _ => (sub_same _ _).bind fun _ _ => ?_
  exact .ite (fun _ => (EqualRuns.shared _).bind fun _ _ => .ok h)
    (fun _ => (EqualRuns.shared _).bind fun _ _ => .ok h)

theorem decodeMatch_same {posState prob : ℕ} (he : e.Within N) (hp : posState ≤ 240)
    (hb : prob + kNumLenProbs ≤ N) (h : r.rc.InUse N) :
    EqualRuns (decodeMatch e r posState prob) (Branching.decodeMatch e r posState prob)
      (fun t => t.2.rc.InUse N) := by
  unfold decodeMatch Branching.decodeMatch
  refine (lenDecode_same hp hb h).bind fun t ht => .ite (fun _ => ?_) (fun _ => copyMatch_same ht)
  refine (distanceDecode_same _ he.base_le he.lt ht).bind fun u hu => ?_
  refine .ite (fun _ => (sub_same _ _).bind fun _ _ => .ok hu) (fun _ => ?_)
  exact .ite (fun _ => .ok hu) (fun _ => copyMatch_same hu)

theorem decodeShortRep_same (h : r.rc.InUse N) :
    EqualRuns (decodeShortRep e r) (decodeShortRep e r) (fun t => t.2.rc.InUse N) := by
  unfold decodeShortRep
  exact (EqualRuns.shared _).bind fun _ _ => (EqualRuns.shared _).bind fun _ _ => .ok h

theorem selectRep_same (h : r.rc.InUse N) :
    EqualRuns (selectRep e r) (selectRep e r) (fun t => t.2.InUse N) := by
  unfold selectRep
  refine (ifBit_same h _).bind fun t ht => .ite (fun _ => .ok ht.1) (fun _ => ?_)
  exact (ifBit_same ht.1 _).bind fun u hu => .ite (fun _ => .ok hu.1) (fun _ => .ok hu.1)

/-- One symbol. -/
theorem decodeSymbol_same (he : e.Within N) (h : r.rc.InUse N) :
    EqualRuns (decodeSymbol e r) (Branching.decodeSymbol e r) (fun t => t.2.rc.InUse N) := by
  have hl := layout
  have hbase := he.base_le
  have hpos : (r.processedPos &&& e.pbMask) <<< 4 ≤ 240 := by
    have hle : r.processedPos &&& e.pbMask ≤ e.pbMask := Nat.and_le_right
    have hpb := he.pb_lt
    have h16 : kNumPosStatesMax = 16 := by decide
    rw [Nat.shiftLeft_eq]
    omega
  unfold decodeSymbol Branching.decodeSymbol
  refine (ifBit_same h _).bind fun t ht =>
    .ite (fun _ => decodeLiteral_same he ht.1) (fun _ => ?_)
  refine (ifBit_same ht.1 _).bind fun u hu =>
    .ite (fun _ => decodeMatch_same he hpos (by omega) hu.1) (fun _ => ?_)
  refine (ifBit_same hu.1 _).bind fun v hv => .ite (fun _ => ?_) (fun _ => ?_)
  · exact (ifBit_same hv.1 _).bind fun w hw => .ite (fun _ => decodeShortRep_same hw.1)
      (fun _ => decodeMatch_same he hpos (by omega) hw.1)
  · exact (selectRep_same hv.1).bind fun w hw => decodeMatch_same he hpos (by omega) hw

/-- Any number of symbols, by induction on the bound. -/
theorem decodeLoop_same (he : e.Within N) (fuel : ℕ) (h : r.rc.InUse N) :
    EqualRuns (decodeLoop e fuel r) (Branching.decodeLoop e fuel r) (fun r' => r'.rc.InUse N) := by
  induction fuel generalizing r with
  | zero => exact .error _
  | succ fuel ih =>
      unfold decodeLoop Branching.decodeLoop
      refine (decodeSymbol_same he h).bind fun t ht => ?_
      obtain ⟨flow, r'⟩ := t
      cases flow with
      | outer => exact .ok ht
      | body => exact .ite (fun _ => ih ht) (fun _ => .ok ht)

/-- The two loops run alike from every decoder whose table is in use. -/
theorem lzmaDecDecodeReal_same {p : LzmaDec}
    (h : (regsOf p).rc.InUse (lzmaPropsGetNumProbs p.prop.lc p.prop.lp)) (limit : ℕ)
    (src : List UInt8) (bufLimit : ℕ) :
    EqualRuns (lzmaDecDecodeReal p limit src bufLimit)
      (Branching.lzmaDecDecodeReal p limit src bufLimit)
      (fun res => (regsOf res.p).rc.InUse (lzmaPropsGetNumProbs p.prop.lc p.prop.lp)) := by
  have he := envOf_within p limit src bufLimit
  unfold lzmaDecDecodeReal Branching.lzmaDecDecodeReal
  refine (decodeLoop_same he _ h).bind fun r hr => (normalize_same hr).bind fun rc ⟨hrc, _⟩ => ?_
  exact .ok ⟨hrc.range_lt, hrc.prob⟩

end
end LzmaTurbo.Lzma
