import LzmaTurbo.Lzma2.LookAhead
import LzmaTurbo.Lzma2.TwinTurns

/-!
# A decoder that starts over

What a decoder answers after a reset, or over the next block's buffer, beside what a new one
answers.
-/
namespace LzmaTurbo.Lzma2
open Machine Lzma StreamMachine Window

/-- No chunk half-decoded, none owing output or input. -/
def Lzma2Decoder.atChunkBoundary (d : Lzma2Decoder) : Bool :=
  d.frame.state == .control && d.frame.unpackSize == 0 && d.frame.packSize == 0

/-- Where in the input the payload of a stored chunk begins, and how long it is. -/
def Lzma2Decoder.storedPayload (d : Lzma2Decoder) (input : List UInt8) : Option (ℕ × ℕ) :=
  if (d.frame.state = .data ∨ d.frame.state = .dataCont) ∧ isUncompressedState d.frame.control then
    some (0, d.frame.unpackSize)
  else match input with
    | b :: hi :: lo :: _ =>
        if d.atChunkBoundary ∧ (b = 1 ∨ b = 2) then some (3, be16 hi lo + 1) else none
    | _ => none

/-- What a caller asks of a decoder that is started. -/
inductive Ask where
  | decode (input : List UInt8) (outSize : ℕ) (finish : FinishMode)
  | decodeBlock (dicLimit : ℕ) (src : List UInt8) (finish : FinishMode)
  | wrapDicPos
  | atChunkBoundary
  | storedPayload (input : List UInt8)

inductive Answer where
  | decoded (out : List UInt8) (res : Except Error Progress)
  | block (bytes : List UInt8) (res : Except Error (ℕ × Status))
  | wrapped
  | boundary (b : Bool)
  | payload (p : Option (ℕ × ℕ))

/-- A dictionary that is written round and round is as large as a distance may reach, and the
limit of a block lies in its buffer. -/
def Ask.fits (d : Lzma2Decoder) : Ask → Prop
  | .decode _ _ _ | .wrapDicPos => d.decoder.prop.dictSize ≤ d.decoder.dicBufSize
  | .decodeBlock dicLimit _ _ => d.decoder.dicPos ≤ dicLimit ∧ dicLimit ≤ d.decoder.dicBufSize
  | .atChunkBoundary | .storedPayload _ => True

def Ask.apply (d : Lzma2Decoder) : Ask → Except Fault (Lzma2Decoder × Answer)
  | .decode input outSize finish => do
      let r ← d.decode input outSize finish
      .ok (r.d, .decoded r.out r.res)
  | .decodeBlock dicLimit src finish => do
      let r ← d.decodeToDic dicLimit src finish
      let bytes ← slice r.d.decoder.dic.toList d.decoder.dicPos r.d.decoder.dicPos
      .ok (r.d, .block bytes (r.res.map fun n => (n, r.status)))
  | .wrapDicPos => .ok (d.wrapped, .wrapped)
  | .atChunkBoundary => .ok (d, .boundary d.atChunkBoundary)
  | .storedPayload input => .ok (d, .payload (d.storedPayload input))

/-- One answer to every question, as long as the questions fit. -/
def SameAnswers : Lzma2Decoder → Lzma2Decoder → List Ask → Prop
  | _, _, [] => True
  | d, d', a :: asks => (a.fits d ↔ a.fits d') ∧ (a.fits d → ∃ e e' ans,
      a.apply d = .ok (e, ans) ∧ a.apply d' = .ok (e', ans) ∧ SameAnswers e e' asks)

def Indistinguishable (d d' : Lzma2Decoder) : Prop := ∀ asks, SameAnswers d d' asks

/-- A decoder as it is built. -/
inductive Lzma2Decoder.Fresh (d : Lzma2Decoder) : Prop
  | owns : d.Owns → d.Fresh
  | probsOnly (dictProp : ℕ) : Lzma2Decoder.newProbsOnly dictProp = .ok d → d.Fresh

/-- What a decoder becomes, whatever is called on it and however the calls end. -/
inductive Lzma2Decoder.Becomes (d₀ : Lzma2Decoder) : Lzma2Decoder → Prop
  | built : d₀.Becomes d₀
  | reset {d : Lzma2Decoder} : d₀.Becomes d → d₀.Becomes d.reset
  | setBlockDic {d : Lzma2Decoder} (buf : Array UInt8) (size : ℕ) : d₀.Becomes d →
      size ≤ buf.size → size < 2 ^ 63 → d₀.Becomes (d.setBlockDic buf size)
  | asked {d e : Lzma2Decoder} {a : Ask} {ans : Answer} : d₀.Becomes d → a.fits d →
      a.apply d = .ok (e, ans) → d₀.Becomes e

section
variable {d d' d₀ e : Lzma2Decoder} {p q : LzmaDec} {r : Ref2} {len org : ℕ} {input : List UInt8}

theorem Between.wrapped (h : Between p q r) (hp : p.prop.dictSize ≤ p.dicBufSize)
    (hq : q.prop.dictSize ≤ q.dicBufSize) : Between p.wrapped q.wrapped r where
  idle := h.idle.wrapped hp
  idle' := by
    rw [q.wrapped_spec.1]
    exact h.idle'.wrapped hq
  kept h0 := by
    rw [q.wrapped_spec.1]
    exact ⟨(h.kept h0).1.wrapped, (h.kept h0).2.wrapped⟩
  props h0 := by
    rw [q.wrapped_spec.1, p.wrapped_spec.1]
    exact h.props h0

theorem window_wrapped {w : List UInt8} (h : p.Window w) (hp : p.prop.dictSize ≤ p.dicBufSize) :
    p.wrapped.Window w := by
  unfold LzmaDec.wrapped
  by_cases hfull : p.dicPos = p.dicBufSize
  · rw [if_pos hfull]
    exact h.wrap hfull hp
  · rwa [if_neg hfull]

theorem loose_wrapped (h : p.Loose q) : p.wrapped.Loose q.wrapped := by
  obtain ⟨hprop, hsize, hpos, hrem, hheld, hcode⟩ := h
  unfold LzmaDec.wrapped
  by_cases hfull : p.dicPos = p.dicBufSize
  · rw [if_pos hfull, if_pos (hpos.trans (hfull.trans hsize.symm))]
    exact ⟨hprop, hsize, rfl, hrem, hheld, hcode⟩
  · rw [if_neg hfull, if_neg fun hq => hfull (hpos.symm.trans (hq.trans hsize))]
    exact ⟨hprop, hsize, hpos, hrem, hheld, hcode⟩

/-- The wrap moves both to the start of the dictionary. -/
theorem alike_wrapped (h : LzmaDec.Alike len org p q) (hp : p.prop.dictSize ≤ p.dicBufSize) :
    ∃ len' org', LzmaDec.Alike len' org' p.wrapped q.wrapped ∧
      ∀ n, org < len + p.dicPos + n → org' < len' + p.wrapped.dicPos + n := by
  have hq : q.prop.dictSize ≤ q.dicBufSize := by rw [h.prop, h.size]; exact hp
  obtain ⟨w, hpair, hlen⟩ : ∃ w : List UInt8,
      LzmaDec.Pair w.length p.wrapped.dicPos p.wrapped q.wrapped ∧
      w.length + org = len + p.dicPos := by
    cases h.pair with
    | live hat hat' hlen => exact ⟨_, .live (hat.wrapped hp) (hat'.wrapped hq) rfl, hlen⟩
    | dead hd hd' hw hw' hlen =>
        exact ⟨_, .dead (dead_wrapped hd hp) (dead_wrapped hd' hq) (window_wrapped hw hp)
          (window_wrapped hw' hq) rfl, hlen⟩
  exact ⟨_, _, ⟨loose_wrapped h.toLoose, hpair⟩, fun n hn => by omega⟩

theorem initDicAndState_wrapped (p : LzmaDec) (initDic initState : Bool) :
    (p.initDicAndState initDic initState).wrapped =
      p.wrapped.initDicAndState initDic initState := by
  unfold LzmaDec.wrapped
  by_cases hfull : p.dicPos = p.dicBufSize
  · rw [if_pos hfull]
    cases initDic <;> cases initState <;> exact if_pos hfull
  · rw [if_neg hfull]
    cases initDic <;> cases initState <;> exact if_neg hfull

theorem storedReady_wrapped (d : Lzma2Decoder) :
    d.wrapped.storedReady.decoder = d.storedReady.decoder.wrapped := by
  unfold Lzma2Decoder.storedReady
  by_cases hs : d.frame.state = .data
  · rw [if_pos hs, if_pos (show d.wrapped.frame.state = .data from hs)]
    exact (initDicAndState_wrapped d.decoder (d.frame.control == lzma2ControlCopyResetDic)
      false).symm
  · rw [if_neg hs, if_neg (show ¬ d.wrapped.frame.state = .data from hs)]
    rfl

theorem Phase.wrapped (h : Phase d d') (hd : d.decoder.prop.dictSize ≤ d.decoder.dicBufSize)
    (hd' : d'.decoder.prop.dictSize ≤ d'.decoder.dicBufSize) : Phase d.wrapped d'.wrapped := by
  cases h with
  | header hB hH => exact .header (hB.wrapped hd hd') hH
  | @stored r hB hs hc hneed hpos hlt =>
      refine Phase.stored (d := d.wrapped) (r := r) ?_ hs hc hneed hpos hlt
      have hf := storedReady_same (le_refl d.decoder.dicPos)
      have hf' := storedReady_same (le_refl d'.decoder.dicPos)
      rw [storedReady_wrapped, storedReady_wrapped]
      refine hB.wrapped ?_ ?_
      · rw [hf.dict, hf.size]
        exact hd
      · rw [hf'.dict, hf'.size]
        exact hd'
  | opened hI hI' hK ho hc hneed hpk =>
      exact Phase.opened (d := d.wrapped) (hI.wrapped hd) (hI'.wrapped hd')
        (fun hlt => ⟨(hK hlt).1.wrapped, (hK hlt).2.wrapped⟩) ho hc hneed hpk
  | packed hA hp hp' hs hc hneed hu hpk horg =>
      obtain ⟨len, org, hA', hmono⟩ := alike_wrapped hA hd
      refine Phase.packed (d := d.wrapped) hA' ?_ ?_ hs hc hneed hu hpk (hmono _ horg)
      · rw [Lzma2Decoder.wrapped, wrapped_probs]
        exact hp
      · rw [Lzma2Decoder.wrapped, wrapped_probs]
        exact hp'
  | ended hs => exact Phase.ended (d := d.wrapped) hs

theorem Lzma2Decoder.Alike.wrapped (h : d.Alike d')
    (hd : d.decoder.prop.dictSize ≤ d.decoder.dicBufSize) : d.wrapped.Alike d'.wrapped where
  frame := h.frame
  control := h.control
  size := by
    rw [(wrapped_sizes d').2, (wrapped_sizes d).2]
    exact h.size
  pos := by
    change d'.decoder.wrapped.dicPos = d.decoder.wrapped.dicPos
    unfold LzmaDec.wrapped
    by_cases hfull : d.decoder.dicPos = d.decoder.dicBufSize
    · rw [if_pos hfull, if_pos (h.pos.trans (hfull.trans h.size.symm))]
    · rw [if_neg hfull, if_neg fun hq => hfull (h.pos.symm.trans (hq.trans h.size))]
      exact h.pos
  dict := by
    rw [(wrapped_sizes d').1, (wrapped_sizes d).1]
    exact h.dict
  phase := h.phase.wrapped hd (by rw [h.dict, h.size]; exact hd)

structure Buf2Result.Alike (r r' : Buf2Result) : Prop where
  d : r.d.Alike r'.d
  out : r'.out = r.out
  res : r'.res = r.res

/-- The loop of `decode`, turn by turn. -/
theorem decodeBuf2_alike (input : List UInt8) (mode : FinishMode) (fuel : ℕ) {outSize n : ℕ}
    (acc : List UInt8) (h : d.Alike d') (hs : d.Sound) (hs' : d'.Sound)
    (hsize : d.decoder.prop.dictSize ≤ d.decoder.dicBufSize) :
    Paired (decodeBuf2 input mode fuel d outSize n acc)
      (decodeBuf2 input mode fuel d' outSize n acc) Buf2Result.Alike := by
  induction fuel generalizing d d' outSize n acc with
  | zero => exact .error _
  | succ fuel ih =>
      have hsize' : d'.decoder.prop.dictSize ≤ d'.decoder.dicBufSize := by
        rw [h.dict, h.size]
        exact hsize
      obtain ⟨pos, held, out, hat⟩ := hs
      obtain ⟨pos', held', out', hat'⟩ := hs'
      have hw := h.wrapped hsize
      have hroom := wrapped_room hat.shape hsize
      have hat₁ := hat.wrapped hsize
      have hat₁' := hat'.wrapped hsize'
      have hle := hat₁.shape.size_le
      have hle' := hat₁'.shape.size_le
      have hdict := congrArg LzmaProps.dictSize (wrapped_sizes d).1
      have hbuf := (wrapped_sizes d).2
      rw [decodeBuf2, decodeBuf2]
      dsimp only
      generalize d.wrapped = x at hw hroom hat₁ hle hdict hbuf ⊢
      generalize d'.wrapped = x' at hw hat₁' hle' ⊢
      have hwpos := hw.pos
      have hwsize := hw.size
      rw [hwsize, hwpos, sub_ok hroom.le, ok_bind, ok_bind]
      obtain ⟨outCur, cur, hcur, hlim⟩ : ∃ outCur cur,
          (if outSize ≤ x.decoder.dicBufSize - x.decoder.dicPos then (outSize, mode)
            else (x.decoder.dicBufSize - x.decoder.dicPos, FinishMode.any)) = (outCur, cur) ∧
          x.decoder.dicPos + outCur ≤ x.decoder.dicBufSize := by
        split
        · exact ⟨_, _, rfl, by omega⟩
        · exact ⟨_, _, rfl, by omega⟩
      rw [hcur]
      dsimp only
      refine .bind (.same _) ?_
      rintro _ src rfl
      have hl : x.decoder.dicPos ≤ x.decoder.dicPos + outCur := Nat.le_add_right _ _
      obtain ⟨r, hr, new₁, -, hsound, -⟩ := decodeToDic_end src cur hat₁ hl hlim
      obtain ⟨r', hr', new₁', -, hsound', -⟩ := decodeToDic_end src cur hat₁'
        (hwpos.trans_le hl) (hwsize ▸ hlim)
      have hpair := decodeToDic_alike src cur hw hl hlim _ _ hr hr'
      obtain ⟨⟨halike, new, hf, hf'⟩, hst, hres⟩ := hpair
      rw [hr, hr', ok_bind, ok_bind, hres]
      cases r.res with
      | error e => exact .ok ⟨halike, rfl, rfl⟩
      | ok inCur =>
          have hpos := hf.pos
          have hpos' := hf'.pos
          have hslice := hf.slice (hroom.le.trans hle)
          have hslice' := hf'.slice (by omega)
          have hnew : ∀ {a b : ℕ}, a = b + new.length → sub a b = .ok new.length := fun hab => by
            rw [sub_ok (by omega), Except.ok.injEq]
            omega
          rw [hwpos] at hpos' hslice'
          dsimp only
          rw [hnew hpos, hnew hpos', ok_bind, ok_bind, hslice, hslice', ok_bind, ok_bind]
          refine .bind (.same _) ?_
          rintro rest _ rfl
          refine .ite (fun _ => .ok ⟨halike, rfl, ?_⟩) fun _ => ih _ halike hsound hsound' ?_
          · rw [hst]
          · rw [hf.dict, hf.size, hdict, hbuf]
            exact hsize

/-- After a reset only the packed size is left of what came before. -/
theorem reset_alike (hs : d.decoder.Shape) (hs' : d'.decoder.Shape)
    (hroom : lzmaPropsGetNumProbs lzma2LclpMax 0 ≤ d.decoder.probs.size)
    (hroom' : lzmaPropsGetNumProbs lzma2LclpMax 0 ≤ d'.decoder.probs.size)
    (hsize : d'.decoder.dicBufSize = d.decoder.dicBufSize)
    (hdict : d'.decoder.prop.dictSize = d.decoder.prop.dictSize)
    (hpack : d'.frame.packSize = d.frame.packSize) : d.reset.Alike d'.reset where
  frame := by
    change d'.frame.init = _
    unfold Lzma2Frame.init
    rw [hpack]
    rfl
  control h0 := absurd rfl h0
  size := hsize
  pos := rfl
  dict := hdict
  phase := by
    have hne : (0xE0 : ℕ) ≠ 0 := by decide
    exact Phase.header (d := d.reset) ⟨idle_init hs hroom, idle_init hs' hroom', fun h0 =>
      absurd h0 hne, fun h0 => absurd h0 hne⟩ (.control rfl rfl rfl)

theorem Lzma2Decoder.Alike.atChunkBoundary (h : d.Alike d') :
    d'.atChunkBoundary = d.atChunkBoundary := by
  unfold Lzma2Decoder.atChunkBoundary
  rw [h.frame]

theorem Lzma2Decoder.Alike.storedPayload (h : d.Alike d') (input : List UInt8) :
    d'.storedPayload input = d.storedPayload input := by
  unfold Lzma2Decoder.storedPayload
  rw [h.atChunkBoundary]
  by_cases hs : d.frame.state = .control
  · have hno : ∀ {f : Lzma2Frame} {b : Bool}, f.state = .control →
        ¬ ((f.state = .data ∨ f.state = .dataCont) ∧ b = true) := fun hf hc => by
      rcases hc.1 with h0 | h0 <;> (rw [hf] at h0; cases h0)
    rw [if_neg (hno hs), if_neg (hno (h.state.trans hs))]
  · rw [h.frame_eq hs]

theorem Lzma2Decoder.Alike.fits (h : d.Alike d') (a : Ask) : a.fits d ↔ a.fits d' := by
  cases a with
  | decode | wrapDicPos =>
      unfold Ask.fits
      rw [h.dict, h.size]
  | decodeBlock =>
      unfold Ask.fits
      rw [h.pos, h.size]
  | atChunkBoundary | storedPayload => exact Iff.rfl

/-- One question to both. -/
theorem Ask.alike (a : Ask) (h : d.Alike d') (hd : Ready2 d) (hd' : Ready2 d') (hfit : a.fits d) :
    ∃ e e' ans, a.apply d = .ok (e, ans) ∧ a.apply d' = .ok (e', ans) ∧ e.Alike e' ∧
      Ready2 e ∧ Ready2 e' := by
  have hfit' := (h.fits a).mp hfit
  cases a with
  | decode input outSize mode =>
      obtain ⟨r, hr, hs, -, -, hp, -⟩ := decodeBuf2_sound mode [] hd.sound hfit
        (Nat.zero_le input.length) (Nat.lt_succ_self outSize)
      obtain ⟨r', hr', hs', -, -, hp', -⟩ := decodeBuf2_sound mode [] hd'.sound hfit'
        (Nat.zero_le input.length) (Nat.lt_succ_self outSize)
      have hpair := decodeBuf2_alike input mode _ [] h hd.sound hd'.sound hfit _ _ hr hr'
      have hdecode : d.decode input outSize mode = .ok r := hr
      have hdecode' : d'.decode input outSize mode = .ok r' := hr'
      rw [Ask.apply, Ask.apply, hdecode, hdecode', ok_bind, ok_bind, hpair.out, hpair.res]
      exact ⟨_, _, _, rfl, rfl, hpair.d, ⟨hs, hp ▸ hd.room⟩, ⟨hs', hp' ▸ hd'.room⟩⟩
  | decodeBlock dicLimit src mode =>
      obtain ⟨r, hr, hready, -⟩ := hd.decodeToDic src mode hfit.1 hfit.2
      obtain ⟨r', hr', hready', -⟩ := hd'.decodeToDic src mode hfit'.1 hfit'.2
      obtain ⟨⟨halike, new, hf, hf'⟩, hst, hres⟩ :=
        decodeToDic_alike src mode h hfit.1 hfit.2 _ _ hr hr'
      have hshape := hd.shape
      have hshape' := hd'.shape
      have hslice := hf.slice (hshape.pos_le.trans hshape.size_le)
      have hslice' := hf'.slice (hshape'.pos_le.trans hshape'.size_le)
      rw [← hf.pos] at hslice
      rw [← hf'.pos] at hslice'
      rw [Ask.apply, Ask.apply, hr, hr', ok_bind, ok_bind, hslice, hslice', ok_bind, ok_bind, hst,
        hres]
      exact ⟨_, _, _, rfl, rfl, halike, hready, hready'⟩
  | wrapDicPos =>
      obtain ⟨pos, held, out, hat⟩ := hd.sound
      obtain ⟨pos', held', out', hat'⟩ := hd'.sound
      exact ⟨_, _, _, rfl, rfl, h.wrapped hfit,
        ⟨⟨_, _, _, hat.wrapped hfit⟩, (wrapped_probs d.decoder).symm ▸ hd.room⟩,
        ⟨⟨_, _, _, hat'.wrapped hfit'⟩, (wrapped_probs d'.decoder).symm ▸ hd'.room⟩⟩
  | atChunkBoundary =>
      rw [Ask.apply, Ask.apply, h.atChunkBoundary]
      exact ⟨_, _, _, rfl, rfl, h, hd, hd'⟩
  | storedPayload input =>
      rw [Ask.apply, Ask.apply, h.storedPayload]
      exact ⟨_, _, _, rfl, rfl, h, hd, hd'⟩

/-- Any number of them. -/
theorem Lzma2Decoder.Alike.indistinguishable (h : d.Alike d') (hd : Ready2 d) (hd' : Ready2 d') :
    Indistinguishable d d' := by
  intro asks
  induction asks generalizing d d' with
  | nil => trivial
  | cons a asks ih =>
      refine ⟨h.fits a, fun hfit => ?_⟩
      obtain ⟨e, e', ans, he, he', halike, hready, hready'⟩ := a.alike h hd hd' hfit
      exact ⟨e, e', ans, he, he', ih halike hready hready'⟩

/-- The packed size is asked for between chunks too. -/
theorem Indistinguishable.packSize (h : Indistinguishable d.reset d'.reset) :
    d.frame.packSize = 0 ↔ d'.frame.packSize = 0 := by
  obtain ⟨e, e', ans, he, he', -⟩ := (h [.atChunkBoundary]).2 trivial
  have hb : ∀ {d e : Lzma2Decoder}, Ask.apply d.reset .atChunkBoundary = .ok (e, ans) →
      ans = .boundary (decide (d.frame.packSize = 0)) := by
    intro d e h
    rw [Ask.apply, Except.ok.injEq, Prod.mk.injEq] at h
    rw [← h.2]
    rfl
  have heq := (hb he).symm.trans (hb he')
  rw [Answer.boundary.injEq, decide_eq_decide] at heq
  exact heq

/-- A new decoder has been reset, and is owed nothing. -/
theorem Lzma2Decoder.Fresh.reset (h : d.Fresh) : d.reset = d ∧ d.frame.packSize = 0 := by
  have hall : ∀ p : LzmaDec, (Lzma2Decoder.reset ⟨.new, p⟩).reset = Lzma2Decoder.reset ⟨.new, p⟩ ∧
      (Lzma2Decoder.reset ⟨.new, p⟩).frame.packSize = 0 := fun _ => ⟨rfl, rfl⟩
  cases h with
  | probsOnly dictProp h =>
      unfold Lzma2Decoder.newProbsOnly at h
      split at h
      · cases h
      · rw [← Except.ok.inj h]
        exact hall _
  | owns h =>
      cases h with
      | whole dictProp h =>
          unfold Lzma2Decoder.new at h
          split at h
          · cases h
          · rw [← Except.ok.inj h]
            exact hall _
      | capped dictProp cap h =>
          unfold Lzma2Decoder.newCapped at h
          split at h
          · cases h
          · rw [← Except.ok.inj h]
            exact hall _

theorem Lzma2Decoder.Fresh.ready (h : d.Fresh) : Ready2 d := by
  cases h with
  | owns h => exact h.ready.1
  | probsOnly dictProp h => exact ready2_newProbsOnly h

theorem setBlockDic_ready (h : Ready2 d) {buf : Array UInt8} {size : ℕ} (hs : size ≤ buf.size)
    (hlt : size < 2 ^ 63) : Ready2 (d.setBlockDic buf size) := by
  have hshape := h.shape
  have hready : Ready2 (d.takeBlockDic.setBlockDic buf size) :=
    ready2_reset ⟨Nat.zero_le _, hs, hlt, hshape.probs, hshape.tempBuf_size⟩ h.room
  exact hready

theorem Ask.ready {a : Ask} {ans : Answer} (hd : Ready2 d) (hfit : a.fits d)
    (h : a.apply d = .ok (e, ans)) :
    Ready2 e ∧ e.decoder.prop.dictSize = d.decoder.prop.dictSize := by
  cases a with
  | decode input outSize mode =>
      obtain ⟨r, hr, hs, hdict, -, hp, -⟩ := decodeBuf2_sound mode [] hd.sound hfit
        (Nat.zero_le input.length) (Nat.lt_succ_self outSize)
      have hdecode : d.decode input outSize mode = .ok r := hr
      rw [Ask.apply, hdecode, ok_bind, Except.ok.injEq, Prod.mk.injEq] at h
      rw [← h.1]
      exact ⟨⟨hs, hp ▸ hd.room⟩, hdict⟩
  | decodeBlock dicLimit src mode =>
      obtain ⟨r, hr, hready, hdict, -⟩ := hd.decodeToDic src mode hfit.1 hfit.2
      rw [Ask.apply, hr, ok_bind] at h
      cases hslice : slice r.d.decoder.dic.toList d.decoder.dicPos r.d.decoder.dicPos with
      | error e =>
          rw [hslice] at h
          cases h
      | ok bytes =>
          rw [hslice, ok_bind, Except.ok.injEq, Prod.mk.injEq] at h
          rw [← h.1]
          exact ⟨hready, hdict⟩
  | wrapDicPos =>
      obtain ⟨pos, held, out, hat⟩ := hd.sound
      rw [Ask.apply, Except.ok.injEq, Prod.mk.injEq] at h
      rw [← h.1, (wrapped_sizes d).1]
      exact ⟨⟨⟨_, _, _, hat.wrapped hfit⟩, (wrapped_probs d.decoder).symm ▸ hd.room⟩, rfl⟩
  | atChunkBoundary | storedPayload =>
      rw [Ask.apply, Except.ok.injEq, Prod.mk.injEq] at h
      rw [← h.1]
      exact ⟨hd, rfl⟩

/-- Whatever is called, the room and the dictionary size stay. -/
theorem Lzma2Decoder.Becomes.ready (h : d₀.Becomes d) (h₀ : Ready2 d₀) :
    Ready2 d ∧ d.decoder.prop.dictSize = d₀.decoder.prop.dictSize := by
  induction h with
  | built => exact ⟨h₀, rfl⟩
  | reset _ ih => exact ⟨ready2_reset ih.1.shape ih.1.room, ih.2⟩
  | setBlockDic buf size _ hs hlt ih => exact ⟨setBlockDic_ready ih.1 hs hlt, ih.2⟩
  | asked _ hfit ha ih =>
      obtain ⟨hready, hdict⟩ := Ask.ready ih.1 hfit ha
      exact ⟨hready, hdict.trans ih.2⟩

/-- Two resets are told apart by the packed size alone. -/
theorem reset_indistinguishable (hd : Ready2 d) (hd' : Ready2 d')
    (hsize : d.decoder.dicBufSize = d'.decoder.dicBufSize)
    (hdict : d.decoder.prop.dictSize = d'.decoder.prop.dictSize) (hpack : d'.frame.packSize = 0) :
    Indistinguishable d.reset d'.reset ↔ d.frame.packSize = 0 := by
  refine ⟨fun h => h.packSize.mpr hpack, fun h0 => ?_⟩
  exact (reset_alike hd.shape hd'.shape hd.room hd'.room hsize.symm hdict.symm
    (hpack.trans h0.symm)).indistinguishable (ready2_reset hd.shape hd.room)
    (ready2_reset hd'.shape hd'.room)

/-- The same over a block's buffer. -/
theorem setBlockDic_indistinguishable (hd : Ready2 d) (hd' : Ready2 d')
    (hdict : d.decoder.prop.dictSize = d'.decoder.prop.dictSize) (hpack : d'.frame.packSize = 0)
    {buf buf' : Array UInt8} {size : ℕ} (hs : size ≤ buf.size) (hs' : size ≤ buf'.size)
    (hlt : size < 2 ^ 63) :
    Indistinguishable (d.setBlockDic buf size) (d'.setBlockDic buf' size) ↔
      d.frame.packSize = 0 := by
  -- a reset after the buffer is installed changes nothing more
  have hiff := reset_indistinguishable (setBlockDic_ready hd hs hlt)
    (setBlockDic_ready hd' hs' hlt) rfl hdict hpack
  exact hiff

/-- A call that only reads header bytes. -/
theorem decode_waits (hpos : p.dicPos = 0) (hsize : 1 ≤ p.dicBufSize) {f : Lzma2Frame} {n : ℕ}
    (h : (Lzma2Decoder.mk .new p).decodeToDic 1 input .any =
      .ok ⟨⟨f, p⟩, .needsMoreInput, .ok n⟩) :
    ∃ r, (Lzma2Decoder.mk .new p).decode input 1 .any = .ok r ∧ r.d = ⟨f, p⟩ := by
  have hw : (Lzma2Decoder.mk .new p).wrapped = ⟨.new, p⟩ := by
    unfold Lzma2Decoder.wrapped LzmaDec.wrapped
    rw [if_neg (by dsimp only; omega)]
  unfold Lzma2Decoder.decode decodeBuf2
  simp [hw, hpos, sub_ok, hsize, slice, h]

/-- A packed chunk up to the byte that gives its packed size. -/
theorem decodeToDic_packed (hpos : p.dicPos = 0) :
    (Lzma2Decoder.mk .new p).decodeToDic 1 [0xE0, 0, 0, 0, 0] .any =
      .ok ⟨⟨⟨.prop, 0xE0, 0, false, 1, 1⟩, p⟩, .needsMoreInput, .ok 5⟩ := by
  have hne : ¬ p.dicPos = 1 := by omega
  unfold Lzma2Decoder.decodeToDic
  rw [show (Lzma2Decoder.mk .new p).decoder.dicPos = 0 from hpos]
  simp [dicLoop, dicTurn, headerTurn, byteAt, Lzma2Frame.updateState, Lzma2Frame.new,
    isUncompressedState, hne]

/-- A stored chunk up to its first byte. -/
theorem decodeToDic_stored (hpos : p.dicPos = 0) :
    (Lzma2Decoder.mk .new p).decodeToDic 1 [1, 0, 0] .any =
      .ok ⟨⟨⟨.data, 1, 0xC0, false, 1, 0⟩, p⟩, .needsMoreInput, .ok 3⟩ := by
  have hne : ¬ p.dicPos = 1 := by omega
  have hsub : sub 1 p.dicPos = .ok 1 := by
    rw [hpos]
    exact sub_ok (Nat.zero_le 1)
  unfold Lzma2Decoder.decodeToDic
  rw [show (Lzma2Decoder.mk .new p).decoder.dicPos = 0 from hpos]
  simp [dicLoop, dicTurn, headerTurn, byteAt, storedTurn, Lzma2Frame.updateState, Lzma2Frame.new,
    isUncompressedState, hne, hsub, sub_ok]

/-- A new decoder to which only header bytes are given. -/
theorem new_waits {f : Lzma2Frame} {n : ℕ} (h : ∀ p : LzmaDec, p.dicPos = 0 →
      (Lzma2Decoder.mk .new p).decodeToDic 1 input .any =
        .ok ⟨⟨f, p⟩, .needsMoreInput, .ok n⟩) :
    ∃ d r, Lzma2Decoder.new 0 = .ok d ∧ d.decode input 1 .any = .ok r ∧ r.d.frame = f ∧
      r.d.decoder.dicBufSize = d.decoder.dicBufSize ∧ d.Becomes r.d := by
  obtain ⟨d, hnew, -, -, hsize⟩ := Lzma2Decoder.new_at (show 0 ≤ 40 by decide)
  have hd : d = ⟨.new, d.decoder⟩ ∧ d.decoder.dicPos = 0 := by
    unfold Lzma2Decoder.new at hnew
    rw [if_neg (by decide), Except.ok.injEq] at hnew
    rw [← hnew]
    exact ⟨rfl, rfl⟩
  have hmin : (1 : ℕ) ≤ lzmaDicMin := by decide
  obtain ⟨r, hr, hrd⟩ := decode_waits hd.2 (hmin.trans (d.decoder.prop.dict_ge.trans hsize))
    (h _ hd.2)
  rw [← hd.1] at hr
  have hask : Ask.apply d (.decode input 1 .any) = .ok (r.d, .decoded r.out r.res) := by
    rw [Ask.apply, hr, ok_bind]
  exact ⟨d, r, hnew, hr, by rw [hrd], by rw [hrd],
    .asked (a := .decode input 1 .any) .built hsize hask⟩

/-- A decoder that is reset, or given a block's buffer, answers every question as a new one with
that dictionary does exactly when it was owed no packed bytes at that moment. -/
theorem restart_as_new (h₀ : d₀.Fresh) (h : d₀.Becomes d) :
    (d.decoder.dicBufSize = d₀.decoder.dicBufSize →
      (Indistinguishable d.reset d₀ ↔ d.frame.packSize = 0)) ∧
    (Indistinguishable d.reset (d₀.setBlockDic d.decoder.dic d.decoder.dicBufSize) ↔
      d.frame.packSize = 0) ∧
    ∀ buf size, size ≤ buf.size → size < 2 ^ 63 →
      (Indistinguishable (d.setBlockDic buf size) (d₀.setBlockDic buf size) ↔
        d.frame.packSize = 0) := by
  obtain ⟨hreset, hpack⟩ := h₀.reset
  obtain ⟨hready, hdict⟩ := h.ready h₀.ready
  have hshape := hready.shape
  refine ⟨fun hsize => ?_, ?_, fun buf size hs hlt => ?_⟩
  · have hiff := reset_indistinguishable hready h₀.ready hsize hdict hpack
    rwa [hreset] at hiff
  · exact setBlockDic_indistinguishable hready h₀.ready hdict hpack hshape.size_le hshape.size_le
      hshape.size_lt
  · exact setBlockDic_indistinguishable hready h₀.ready hdict hpack hs hs hlt

/-- Reset within a stored chunk it starts as new. -/
theorem restart_as_new_stored : ∃ d r, Lzma2Decoder.new 0 = .ok d ∧
    d.decode [1, 0, 0] 1 .any = .ok r ∧ Indistinguishable r.d.reset d := by
  obtain ⟨d, r, hnew, hr, hf, hsize, hb⟩ := new_waits fun _ => decodeToDic_stored
  refine ⟨d, r, hnew, hr, ((restart_as_new (.owns (.whole 0 hnew)) hb).1 hsize).mpr ?_⟩
  rw [hf]

/-- Reset within the header of a packed chunk it is told apart. -/
theorem restart_stale : ∃ d r, Lzma2Decoder.new 0 = .ok d ∧
    d.decode [0xE0, 0, 0, 0, 0] 1 .any = .ok r ∧ d.Becomes r.d ∧
    r.d.decoder.dicBufSize = d.decoder.dicBufSize ∧ ¬ Indistinguishable r.d.reset d := by
  obtain ⟨d, r, hnew, hr, hf, hsize, hb⟩ := new_waits fun _ => decodeToDic_packed
  refine ⟨d, r, hnew, hr, hb, hsize, fun h => ?_⟩
  obtain ⟨hreset, hpack⟩ := Lzma2Decoder.Fresh.reset (.owns (.whole 0 hnew))
  rw [← hreset] at h
  have h0 := h.packSize.mpr hpack
  rw [hf] at h0
  cases h0

end
end LzmaTurbo.Lzma2
