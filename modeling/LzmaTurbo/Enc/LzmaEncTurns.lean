import LzmaTurbo.Enc.CodedDecisions
import LzmaTurbo.Lzma.LoopSymbol

/-!
# A turn of the coding loop is a symbol

Whatever the parser decided, the bits that are coded for it are the path of one symbol of the
format, in the context in which a decoder of the bytes so far reads it.
-/
namespace LzmaTurbo.Enc
open Machine Lzma BitProgram Window
open RangeDecoder (Coder)
open ExactCoder (Op Path Exact)

namespace LzmaEnc

/-- The encoder stands where the reference decoder has the history up to the position. -/
structure At (prop : LzmaProps) (src : List UInt8) (e : LzmaEnc) (s : RefState) : Prop where
  litLen : e.litLen = 0x300 <<< (prop.lp + prop.lc)
  lc : e.lc = prop.lc
  lpMask : e.lpMask = (0x100 <<< prop.lp) - (0x100 >>> prop.lc)
  pbMask : e.pbMask = (1 <<< prop.pb) - 1
  state : e.state = s.state
  reps : e.reps = s.reps
  pos_le : e.nowPos ≤ src.length
  hist : s.hist = (src.take e.nowPos).reverse
  base : s.Base prop
  /-- No error was found yet. -/
  clean : e.result = .ok ()

section
variable {prop : LzmaProps} {src : List UInt8} {e : LzmaEnc} {s : RefState} {w : List UInt8}
  {x : Exact ℕ} {fails : ℕ → Bool}

theorem At.length (h : e.At prop src s) : s.hist.length = e.nowPos := by
  rw [h.hist, List.length_reverse, List.length_take, Nat.min_eq_left h.pos_le]

theorem At.posState (h : e.At prop src s) :
    u32 e.nowPos &&& e.pbMask = (s.ctx prop).posState := by
  have hpb := prop.pb_le
  change _ = s.hist.length % 2 ^ prop.pb
  rw [h.length, h.pbMask, Nat.shiftLeft_eq, one_mul, Nat.and_two_pow_sub_one_eq_mod, u32]
  exact Nat.mod_mod_of_dvd _ (pow_dvd_pow 2 (by omega))

theorem At.posState_lt (h : e.At prop src s) : (s.ctx prop).posState < 16 :=
  (s.ctx_ok h.base.state_lt).posState_lt

/-- A byte of the window, at a distance. -/
theorem At.back (h : e.At prop src s) {d : ℕ} (h1 : 1 ≤ d) (hd : d ≤ e.nowPos) :
    ∃ b, src[e.nowPos - d]? = some b ∧ s.hist.getD (d - 1) 0 = b := by
  have hle := h.pos_le
  have hlt : e.nowPos - d < src.length := by omega
  have hlen : (src.take e.nowPos).length = e.nowPos := by
    rw [List.length_take, Nat.min_eq_left hle]
  refine ⟨src[e.nowPos - d], List.getElem?_eq_getElem hlt, ?_⟩
  rw [h.hist, List.getD_eq_getElem?_getD, List.getElem?_reverse (by omega), hlen,
    show e.nowPos - 1 - (d - 1) = e.nowPos - d by omega, List.getElem?_take_of_lt (by omega),
    List.getElem?_eq_getElem hlt]
  rfl

theorem At.litProbs (h : e.At prop src s) {prev : UInt8} (hprev : s.hist.headD 0 = prev) :
    literal + e.litProbsAt (u32 e.nowPos) prev.toNat = (s.ctx prop).litProb := by
  change _ = litProbOf prop s.hist
  rw [litProbsAt, h.lc, h.lpMask, litProbOf, hprev, h.length, show u32 e.nowPos =
    e.nowPos % 2 ^ 32 from rfl, literalIndex_eq prop.lc_le prop.lp_le prev.toNat_lt]
  change literal + 3 * (256 * _) = literal + 768 * _
  ring

/-- The cells of one literal table. -/
theorem At.litSlots (h : e.At prop src s) (base : ℕ)
    (hbase : literal + base = (s.ctx prop).litProb) :
    ∀ i, i < 768 → ModelSlot.InTable e.litLen (.lit (base + i)) ∧
      place (.lit (base + i)) = (s.ctx prop).litProb + i := by
  intro i hi
  have hctx : (s.ctx prop).Ok _ := s.ctx_ok h.base.state_lt
  have hbounds := hctx.lit_le
  have hl := layout
  constructor
  · change base + i < e.litLen
    rw [lzmaPropsGetNumProbs, ← hbase] at hbounds
    rw [h.litLen, add_comm prop.lp]
    change base + i < lzmaLitSize <<< (prop.lc + prop.lp)
    omega
  · rw [← hbase]
    exact (Nat.add_assoc _ _ _).symm

theorem nextStates : ∀ state < 12,
    read kLiteralNextStates state = .ok (litState state) ∧
    read kMatchNextStates state = .ok (matchState state) ∧
    read kRepNextStates state = .ok (repState state) ∧
    read kShortRepNextStates state = .ok (shortRepState state) := by
  decide

/-- Once a byte is out, the last distance lies in the window. -/
theorem At.rep0_le (h : e.At prop src s) (hpos : 0 < e.nowPos) :
    1 ≤ e.reps.rep0 ∧ e.reps.rep0 ≤ e.nowPos := by
  obtain ⟨h1, h2, -⟩ := h.base.reps 0
  rw [h.length] at h2
  rw [h.reps]
  change 1 ≤ s.reps.nth 0 ∧ s.reps.nth 0 ≤ e.nowPos
  omega

theorem leaf_byte (b : UInt8) : UInt8.ofNat (256 + b.toNat) = b := by
  apply UInt8.toNat_inj.mp
  have := b.toNat_lt
  rw [UInt8.toNat_ofNat']
  omega

theorem codeLit_spec (h : e.Models fails w x) (ha : e.At prop src s) (hpos : 0 < e.nowPos)
    {b : UInt8} (hb : src[e.nowPos]? = some b) : ∃ os c cells w',
      e.codeLit src (s.ctx prop).posState =
        .ok (LzmaEnc.coded { e with state := litState s.state } c cells) ∧
      (LzmaEnc.coded { e with state := litState s.state } c cells).Models fails w'
        (x.ops (os.map (Op.map place))) ∧
      Path (·.InTable e.litLen) place (symbolProg (s.ctx prop)) os (.lit b) := by
  have hlt := ha.base.state_lt
  obtain ⟨prev, hprev, hhead⟩ := ha.back le_rfl hpos
  have hslots := ha.litSlots (e.litProbsAt (u32 e.nowPos) prev.toNat)
    (ha.litProbs (by rwa [← List.headD_eq_getD] at hhead))
  have hin : ModelSlot.InTable e.litLen (.isMatch e.state (s.ctx prop).posState) :=
    ⟨by rw [ha.state]; exact hlt, ha.posState_lt⟩
  obtain ⟨c, cells, w₁, hop, h₁⟩ := h.known hin false
  have hfirst : ∀ {os sym}, Path (·.InTable e.litLen) place (litProg (s.ctx prop)) os sym →
      Path (·.InTable e.litLen) place (symbolProg (s.ctx prop))
        (.bit (.isMatch e.state (s.ctx prop).posState) false :: os) sym := fun hpath =>
    .bit hin (by rw [ha.state]; rfl) hpath
  have hkinds := nextStates s.state hlt
  unfold codeLit
  rw [hop, ok_bind]
  have hbase : (e.coded c cells).litProbsAt (u32 e.nowPos) prev.toNat =
      e.litProbsAt (u32 e.nowPos) prev.toNat := rfl
  simp only [sub_ok hpos, ok_bind, byteAt_ok hprev, byteAt_ok hb, hbase]
  generalize e.litProbsAt (u32 e.nowPos) prev.toNat = base at hslots
  rw [show read kLiteralNextStates e.state = .ok (litState s.state) from ha.state ▸ hkinds.1,
    ok_bind]
  have h₂ := h₁.moved (litState s.state) e.reps e.nowPos
  by_cases hkind : isLitState e.state
  · rw [if_pos hkind]
    have hpath := litEncode_path (fun i _ hi => hslots i (by omega)) b.toNat_lt
    obtain ⟨c', cells', w', hops, h'⟩ := h₂.ops fun o ho => hpath.inTable o ho
    refine ⟨.bit (.isMatch e.state (s.ctx prop).posState) false ::
      litEncode (fun i => .lit (base + i)) b.toNat, c', cells', w', hops, h', hfirst ?_⟩
    have hlit := hpath.map fun i => Symbol.lit (UInt8.ofNat i)
    rw [leaf_byte] at hlit
    have hlow : (s.ctx prop).state < kNumLitStates := by
      change s.state < 7
      rw [← ha.state]
      exact hkind
    rwa [litProg, if_pos hlow]
  · rw [if_neg hkind]
    obtain ⟨h1, h2⟩ := ha.rep0_le hpos
    obtain ⟨m, hm, hmatch⟩ := ha.back h1 h2
    simp only [sub_ok h2, ok_bind, byteAt_ok hm]
    have hpath := litEncodeMatched_path (fun i _ hi => hslots i hi) b.toNat_lt m.toNat_lt
    obtain ⟨c', cells', w', hops, h'⟩ := h₂.ops fun o ho => hpath.inTable o ho
    refine ⟨.bit (.isMatch e.state (s.ctx prop).posState) false ::
      litEncodeMatched (fun i => .lit (base + i)) b.toNat m.toNat, c', cells', w', hops, h',
        hfirst ?_⟩
    have hlit := hpath.map fun i => Symbol.lit (UInt8.ofNat i)
    have hbyte : (s.ctx prop).matchByte = m.toNat := by
      rw [ha.reps] at hmatch
      exact congrArg UInt8.toNat hmatch
    rw [leaf_byte] at hlit
    have hhigh : ¬ (s.ctx prop).state < kNumLitStates := by
      change ¬ s.state < 7
      rw [← ha.state]
      exact hkind
    rwa [litProg, if_neg hhigh, hbyte]

/-- The program behind the first bit of a match. -/
def matchProg (c : Ctx) : Prog ℕ Symbol :=
  .bit (isRep + c.state) fun
    | false => simpleProg c
    | true => if c.canRep then repProg c else .fail

theorem At.canRep (h : e.At prop src s) (hpos : 0 < e.nowPos) : (s.ctx prop).canRep = true := by
  have hlen := h.length
  change (!s.hist.isEmpty) = true
  cases hh : s.hist with
  | nil =>
      rw [hh, List.length_nil] at hlen
      omega
  | cons b hist => rfl

/-- The cells of a rep, and their places. -/
structure RepSlots (e : LzmaEnc) (k : Ctx) : Prop where
  rep : ModelSlot.InTable e.litLen (.isRep e.state) ∧ place (.isRep e.state) = isRep + k.state
  g0 : ModelSlot.InTable e.litLen (.isRepG0 e.state) ∧
    place (.isRepG0 e.state) = isRepG0 + k.state
  g1 : ModelSlot.InTable e.litLen (.isRepG1 e.state) ∧
    place (.isRepG1 e.state) = isRepG1 + k.state
  g2 : ModelSlot.InTable e.litLen (.isRepG2 e.state) ∧
    place (.isRepG2 e.state) = isRepG2 + k.state
  long : ModelSlot.InTable e.litLen (.isRep0Long e.state k.posState) ∧
    place (.isRep0Long e.state k.posState) = isRep0Long + (16 * k.posState + k.state)

theorem At.state_lt (h : e.At prop src s) : e.state < 12 := by
  rw [h.state]
  exact h.base.state_lt

theorem At.repSlots (h : e.At prop src s) : RepSlots e (s.ctx prop) := by
  have hlt := h.state_lt
  have hstate : (s.ctx prop).state = e.state := h.state.symm
  refine ⟨⟨hlt, ?_⟩, ⟨hlt, ?_⟩, ⟨hlt, ?_⟩, ⟨hlt, ?_⟩, ⟨⟨hlt, h.posState_lt⟩, ?_⟩⟩ <;>
    rw [hstate] <;> rfl

/-- Behind the bit that says it is a rep. -/
theorem At.repPath (h : e.At prop src s) (hpos : 0 < e.nowPos) {os : List (Op ModelSlot)}
    {sym : Symbol} (hpath : Path (·.InTable e.litLen) place (repProg (s.ctx prop)) os sym) :
    Path (·.InTable e.litLen) place (matchProg (s.ctx prop)) (.bit (.isRep e.state) true :: os)
      sym := by
  have hslots := h.repSlots
  refine .bit hslots.rep.1 hslots.rep.2 ?_
  show Path _ _ (if (s.ctx prop).canRep then repProg (s.ctx prop) else .fail) _ _
  rwa [h.canRep hpos, if_pos rfl]

/-- The bits that pick the last distance, with what is left to code of the symbol. -/
theorem codeRep_last (h : e.Models fails w x) (ha : e.At prop src s) (hpos : 0 < e.nowPos)
    (len : ℕ) : ∃ (os : List (Op ModelSlot)) (c : Coding) (cells : ModelSlot → ℕ)
      (w' : List UInt8),
      e.codeRep len 0 (s.ctx prop).posState = .ok (LzmaEnc.coded { e with
        state := if len = 1 then shortRepState e.state else e.state } c cells) ∧
      (LzmaEnc.coded { e with
        state := if len = 1 then shortRepState e.state else e.state } c cells).Models fails w'
        (x.ops (os.map (Op.map place))) ∧
      ∀ os' sym, (if len = 1 then os' = [] ∧ sym = .shortRep else
          Path (·.InTable e.litLen) place (repTail (s.ctx prop) 0) os' sym) →
        Path (·.InTable e.litLen) place (matchProg (s.ctx prop)) (os ++ os') sym := by
  have hslots := ha.repSlots
  obtain ⟨-, -, -, hshort⟩ := nextStates e.state ha.state_lt
  obtain ⟨c₁, cells₁, w₁, hop₁, h₁⟩ := h.known hslots.rep.1 true
  obtain ⟨c₂, cells₂, w₂, hop₂, h₂⟩ := h₁.knownNext hslots.g0.1 false
  obtain ⟨c₃, cells₃, w₃, hop₃, h₃⟩ := h₂.knownNext hslots.long.1 (decide (len ≠ 1))
  refine ⟨[.bit (.isRep e.state) true, .bit (.isRepG0 e.state) false,
    .bit (.isRep0Long e.state (s.ctx prop).posState) (decide (len ≠ 1))], c₃, cells₃, w₃, ?_,
    by
        simp only [ops_cons, ops_nil]
        exact h₃.moved (if len = 1 then shortRepState e.state else e.state) e.reps e.nowPos,
    fun os' sym hrest => ha.repPath hpos
      (.bit hslots.g0.1 hslots.g0.2 (.bit hslots.long.1 hslots.long.2 ?_))⟩
  · simp only [codeRep, hop₁, ok_bind, if_true, hop₂, hop₃]
    by_cases hlen : len = 1
    · simp only [hlen, ne_eq, not_true_eq_false, if_false, if_true, hshort, ok_bind]
    · simp only [hlen, ne_eq, not_false_eq_true, if_true, if_false]
  · by_cases hlen : len = 1
    · rw [if_pos hlen] at hrest
      obtain ⟨rfl, rfl⟩ := hrest
      rw [hlen]
      exact .pure _
    · rw [if_neg hlen] at hrest
      rw [show decide (len ≠ 1) = true from decide_eq_true hlen]
      exact hrest

/-- The bits that pick an older distance. -/
theorem codeRep_older (h : e.Models fails w x) (ha : e.At prop src s) (hpos : 0 < e.nowPos)
    (len : ℕ) {index : ℕ} (h0 : index ≠ 0) (h4 : index < 4) :
    ∃ (os : List (Op ModelSlot)) (c : Coding) (cells : ModelSlot → ℕ) (w' : List UInt8),
      e.codeRep len index (s.ctx prop).posState =
        .ok (LzmaEnc.coded { e with reps := e.reps.front index } c cells) ∧
      (LzmaEnc.coded { e with reps := e.reps.front index } c cells).Models fails w'
        (x.ops (os.map (Op.map place))) ∧
      ∀ os' sym, Path (·.InTable e.litLen) place (repTail (s.ctx prop) index) os' sym →
        Path (·.InTable e.litLen) place (matchProg (s.ctx prop)) (os ++ os') sym := by
  have hslots := ha.repSlots
  obtain ⟨c₁, cells₁, w₁, hop₁, h₁⟩ := h.known hslots.rep.1 true
  obtain ⟨c₂, cells₂, w₂, hop₂, h₂⟩ := h₁.knownNext hslots.g0.1 true
  by_cases h1 : index = 1
  · obtain ⟨c₃, cells₃, w₃, hop₃, h₃⟩ := h₂.knownNext hslots.g1.1 false
    subst h1
    refine ⟨[.bit (.isRep e.state) true, .bit (.isRepG0 e.state) true,
      .bit (.isRepG1 e.state) false], c₃, cells₃, w₃, ?_,
      by
        simp only [ops_cons, ops_nil]
        exact h₃.moved e.state (e.reps.front 1) e.nowPos, fun os' sym hrest =>
        ha.repPath hpos (.bit hslots.g0.1 hslots.g0.2 (.bit hslots.g1.1 hslots.g1.2 hrest))⟩
    simp only [codeRep, hop₁, ok_bind, if_neg h0, hop₂, if_true, hop₃]
    rfl
  · obtain ⟨c₃, cells₃, w₃, hop₃, h₃⟩ := h₂.knownNext hslots.g1.1 true
    by_cases h2 : index = 2
    · obtain ⟨c₄, cells₄, w₄, hop₄, h₄⟩ := h₃.knownNext hslots.g2.1 false
      subst h2
      refine ⟨[.bit (.isRep e.state) true, .bit (.isRepG0 e.state) true,
        .bit (.isRepG1 e.state) true, .bit (.isRepG2 e.state) false], c₄, cells₄, w₄, ?_,
        by
        simp only [ops_cons, ops_nil]
        exact h₄.moved e.state (e.reps.front 2) e.nowPos, fun os' sym hrest => ha.repPath hpos
          (.bit hslots.g0.1 hslots.g0.2 (.bit hslots.g1.1 hslots.g1.2
            (.bit hslots.g2.1 hslots.g2.2 hrest)))⟩
      simp only [codeRep, hop₁, ok_bind, if_neg h0, hop₂, if_neg h1, hop₃, if_true, hop₄]
      rfl
    · obtain ⟨c₄, cells₄, w₄, hop₄, h₄⟩ := h₃.knownNext hslots.g2.1 true
      obtain rfl : index = 3 := by omega
      refine ⟨[.bit (.isRep e.state) true, .bit (.isRepG0 e.state) true,
        .bit (.isRepG1 e.state) true, .bit (.isRepG2 e.state) true], c₄, cells₄, w₄, ?_,
        by
        simp only [ops_cons, ops_nil]
        exact h₄.moved e.state (e.reps.front 3) e.nowPos, fun os' sym hrest => ha.repPath hpos
          (.bit hslots.g0.1 hslots.g0.2 (.bit hslots.g1.1 hslots.g1.2
            (.bit hslots.g2.1 hslots.g2.2 hrest)))⟩
      simp only [codeRep, hop₁, ok_bind, if_neg h0, hop₂, if_neg h1, hop₃, if_neg h2, hop₄]
      rfl

/-- The bits of a length, as the cells of one of the two length coders. -/
theorem lenPath (ha : e.At prop src s) (coder : ℕ) {f : LenSlot → ModelSlot}
    (hT : ∀ s, s.InTable → ModelSlot.InTable e.litLen (f s))
    (hφ : ∀ s, place (f s) = coder + lenPlace s) {len : ℕ} (h2 : 2 ≤ len) (h273 : len ≤ 273) :
    Path (·.InTable e.litLen) place (lenProg coder (s.ctx prop).posState)
      ((LenEnc.encode (len - 2) (s.ctx prop).posState).map (Op.map f)) (len - 2) :=
  (lenEncode_path ha.posState_lt (show len - 2 < 272 by omega)).embed hT hφ

theorem codeRepMatch_short (h : e.Models fails w x) (ha : e.At prop src s) (hpos : 0 < e.nowPos) :
    ∃ (os : List (Op ModelSlot)) (c : Coding) (cells : ModelSlot → ℕ) (w' : List UInt8),
      e.codeRepMatch 1 0 (s.ctx prop).posState =
        .ok (LzmaEnc.coded { e with state := shortRepState e.state } c cells) ∧
      (LzmaEnc.coded { e with state := shortRepState e.state } c cells).Models fails w'
        (x.ops (os.map (Op.map place))) ∧
      Path (·.InTable e.litLen) place (matchProg (s.ctx prop)) os .shortRep := by
  obtain ⟨os, c, cells, w', hcode, hm, hpath⟩ := codeRep_last h ha hpos 1
  refine ⟨os, c, cells, w', ?_, hm, ?_⟩
  · rw [codeRepMatch, hcode, ok_bind]
    rfl
  · have hend := hpath [] .shortRep (by rw [if_pos rfl]; exact ⟨rfl, rfl⟩)
    rwa [List.append_nil] at hend

theorem codeRepMatch_long (h : e.Models fails w x) (ha : e.At prop src s) (hpos : 0 < e.nowPos)
    {len index : ℕ} (hi : index < 4) (h2 : 2 ≤ len) (h273 : len ≤ 273) :
    ∃ (os : List (Op ModelSlot)) (c : Coding) (cells : ModelSlot → ℕ) (w' : List UInt8),
      e.codeRepMatch len index (s.ctx prop).posState = .ok (LzmaEnc.coded { e with
        state := repState e.state, reps := e.reps.front index } c cells) ∧
      (LzmaEnc.coded { e with
        state := repState e.state, reps := e.reps.front index } c cells).Models fails w'
        (x.ops (os.map (Op.map place))) ∧
      Path (·.InTable e.litLen) place (matchProg (s.ctx prop)) os (.rep index len) := by
  have hlen : len ≠ 1 := by omega
  have hlens := lenPath ha repLenCoder (f := .repLen) (fun _ hs => hs) (fun _ => rfl) h2 h273
  have htail : Path (·.InTable e.litLen) place (repTail (s.ctx prop) index)
      ((LenEnc.encode (len - 2) (s.ctx prop).posState).map (Op.map .repLen)) (.rep index len) := by
    have hmap := hlens.map fun l => Symbol.rep index (l + 2)
    rwa [Nat.sub_add_cancel h2] at hmap
  obtain ⟨-, -, hrep, -⟩ := nextStates e.state ha.state_lt
  -- the distance first, then the length in the cells of the reps
  obtain ⟨os, c, cells, w₁, hcode, hm, hpath⟩ : ∃ (os : List (Op ModelSlot)) (c : Coding)
      (cells : ModelSlot → ℕ) (w₁ : List UInt8), e.codeRep len index (s.ctx prop).posState =
        .ok (LzmaEnc.coded { e with reps := e.reps.front index } c cells) ∧
      (LzmaEnc.coded { e with reps := e.reps.front index } c cells).Models fails w₁
        (x.ops (os.map (Op.map place))) ∧
      ∀ os' sym, Path (·.InTable e.litLen) place (repTail (s.ctx prop) index) os' sym →
        Path (·.InTable e.litLen) place (matchProg (s.ctx prop)) (os ++ os') sym := by
    by_cases hzero : index = 0
    · subst hzero
      obtain ⟨os, c, cells, w₁, hcode, hm, hpath⟩ := codeRep_last h ha hpos len
      simp only [if_neg hlen] at hcode hm hpath
      exact ⟨os, c, cells, w₁, hcode, hm, hpath⟩
    · exact codeRep_older h ha hpos len hzero hi
  obtain ⟨c', cells', w', hops, hm'⟩ := hm.ops fun o ho => hlens.inTable o ho
  refine ⟨os ++ (LenEnc.encode (len - 2) (s.ctx prop).posState).map (Op.map .repLen), c', cells',
    w', ?_, ?_, hpath _ _ htail⟩
  · simp only [codeRepMatch, hcode, ok_bind, ne_eq, hlen, not_false_eq_true, if_true,
      sub_ok h2, hops, hrep]
  · rw [ops_append]
    exact hm'.moved (repState e.state) (e.reps.front index) e.nowPos

theorem codeMatch_spec (build : SlotBuild) (h : e.Models fails w x) (ha : e.At prop src s)
    {len dist : ℕ} (h2 : 2 ≤ len) (h273 : len ≤ 273) (hdist : dist + 1 < 2 ^ 32) :
    ∃ (os : List (Op ModelSlot)) (c : Coding) (cells : ModelSlot → ℕ) (w' : List UInt8),
      e.codeMatch build len dist (s.ctx prop).posState = .ok (LzmaEnc.coded { e with
        state := matchState e.state
        reps := ⟨dist + 1, e.reps.rep0, e.reps.rep1, e.reps.rep2⟩ } c cells) ∧
      (LzmaEnc.coded { e with
        state := matchState e.state
        reps := ⟨dist + 1, e.reps.rep0, e.reps.rep1, e.reps.rep2⟩ } c cells).Models fails w'
        (x.ops (os.map (Op.map place))) ∧
      Path (·.InTable e.litLen) place (matchProg (s.ctx prop)) os (.simple dist len) := by
  have hslots := ha.repSlots
  have hlens := lenPath ha lenCoder (f := .len) (fun _ hs => hs) (fun _ => rfl) h2 h273
  obtain ⟨dops, hdops, hdpath⟩ := distEncode_path build h2
    (show dist < 2 ^ 32 by omega)
  have hdists : Path (·.InTable e.litLen) place (distProg (len - 2)) (dops.map (Op.map .dist))
      dist := hdpath.embed (fun _ hs => hs) fun _ => rfl
  obtain ⟨-, hmatch, -, -⟩ := nextStates e.state ha.state_lt
  obtain ⟨c₁, cells₁, w₁, hop₁, h₁⟩ := h.known hslots.rep.1 false
  have hm₁ := h₁.moved (matchState e.state) e.reps e.nowPos
  obtain ⟨c₂, cells₂, w₂, hops₂, h₂'⟩ := hm₁.ops fun o ho => hlens.inTable o ho
  have hm₂ := h₂'.moved (matchState e.state) ⟨dist + 1, e.reps.rep0, e.reps.rep1, e.reps.rep2⟩
    e.nowPos
  obtain ⟨c₃, cells₃, w₃, hops₃, h₃⟩ := hm₂.ops fun o ho => hdists.inTable o ho
  refine ⟨.bit (.isRep e.state) false :: ((LenEnc.encode (len - 2)
    (s.ctx prop).posState).map (Op.map .len) ++ dops.map (Op.map .dist)), c₃, cells₃, w₃, ?_, ?_,
    .bit hslots.rep.1 hslots.rep.2 ?_⟩
  · have hu : u32 (dist + 1) = dist + 1 := Nat.mod_eq_of_lt hdist
    simp only [codeMatch, hop₁, ok_bind, hmatch, sub_ok h2, hops₂, hu, hdops, hops₃]
  · rw [ops_cons, ops_append]
    exact h₃
  · have hval : Symbol.simple dist len = Symbol.simple dist (len - 2 + 2) := by
      rw [Nat.sub_add_cancel h2]
    rw [hval]
    exact hlens.bind (hdists.map fun d => Symbol.simple d (len - 2 + 2))

end
end LzmaEnc
end LzmaTurbo.Enc
