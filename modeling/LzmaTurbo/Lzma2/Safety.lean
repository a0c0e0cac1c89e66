import LzmaTurbo.Lzma2.Acceptance

/-!
# Any sequence of calls

Every call into either decoder, whatever came before it, returns without a
fault and fails only on its input.
-/
namespace LzmaTurbo.Lzma2
open Machine Lzma StreamMachine Window

/-- Each operation whose arguments fit the state returns with an accepted result,
and so do the ones after it. -/
def Safe {σ ω ε ρ : Type} (fits : σ → ω → Prop) (apply : σ → ω → Except ε (σ × ρ))
    (good : ρ → Prop) : σ → List ω → Prop
  | _, [] => True
  | s, op :: ops => fits s op → ∃ s' res, apply s op = .ok (s', res) ∧ good res ∧
      Safe fits apply good s' ops

/-- It is enough that one operation keeps an invariant. -/
theorem Safe.of_invariant {σ ω ε ρ : Type} {fits : σ → ω → Prop}
    {apply : σ → ω → Except ε (σ × ρ)} {good : ρ → Prop} (I : σ → Prop)
    (hstep : ∀ s op, I s → fits s op → ∃ s' res, apply s op = .ok (s', res) ∧ good res ∧ I s')
    {s : σ} (hs : I s) (ops : List ω) : Safe fits apply good s ops := by
  induction ops generalizing s with
  | nil => trivial
  | cons op ops ih =>
      intro hfit
      obtain ⟨s', res, happ, hgood, hs'⟩ := hstep s op hs hfit
      exact ⟨s', res, happ, hgood, ih hs'⟩

/-- A success, or an error that is the input's. -/
def OnlyCorrupt (res : Except Error Unit) : Prop := res = .ok () ∨ res = .error .corruptData

def outcome {α : Type} (res : Except Error α) : Except Error Unit := res.map fun _ => ()

theorem OnlyCorrupt.of {α : Type} {res : Except Error α}
    (h : (∃ a, res = .ok a) ∨ res = .error .corruptData) : OnlyCorrupt (outcome res) := by
  rcases h with ⟨a, rfl⟩ | rfl
  · exact .inl rfl
  · exact .inr rfl

/-- The entry points of the LZMA decoder. -/
inductive LzmaOp where
  | decode (input : List UInt8) (outSize : ℕ) (finish : FinishMode)
  | decodeToDic (dicLimit : ℕ) (src : List UInt8) (finish : FinishMode)
  | reset

def LzmaOp.fits (d : LzmaDecoder) : LzmaOp → Prop
  | .decodeToDic dicLimit _ _ => d.p.dicPos ≤ dicLimit ∧ dicLimit ≤ d.p.dicBufSize
  | _ => True

def LzmaOp.apply (d : LzmaDecoder) :
    LzmaOp → Except Fault (LzmaDecoder × Except Error Unit)
  | .decode input outSize finish => do
      let r ← d.decode input outSize finish
      .ok (⟨r.p⟩, outcome r.res)
  | .decodeToDic dicLimit src finish => do
      let r ← lzmaDecDecodeToDic d.p dicLimit src finish
      .ok (⟨r.p⟩, outcome r.res)
  | .reset => .ok (d.reset, .ok ())

/-- The entry points of the LZMA2 decoder with a dictionary of its own. -/
inductive Lzma2Op where
  | decode (input : List UInt8) (outSize : ℕ) (finish : FinishMode)
  | decodeBlock (dicLimit : ℕ) (src : List UInt8) (finish : FinishMode)
  | wrapDicPos
  | reset

/-- A limit lies in the dictionary, and not before what is written. -/
def Lzma2Op.fits (d : Lzma2Decoder) : Lzma2Op → Prop
  | .decodeBlock dicLimit _ _ =>
      d.decoder.dicPos ≤ dicLimit ∧ dicLimit ≤ d.decoder.dicBufSize
  | _ => True

def Lzma2Op.apply (d : Lzma2Decoder) :
    Lzma2Op → Except Fault (Lzma2Decoder × Except Error Unit)
  | .decode input outSize finish => do
      let r ← d.decode input outSize finish
      .ok (r.d, outcome r.res)
  | .decodeBlock dicLimit src finish => do
      let r ← d.decodeToDic dicLimit src finish
      .ok (r.d, outcome r.res)
  | .wrapDicPos => .ok (d.wrapped, .ok ())
  | .reset => .ok (d.reset, .ok ())

def Lzma2Decoder.takeBlockDic (d : Lzma2Decoder) : Lzma2Decoder :=
  { d with decoder := { d.decoder with dic := #[], dicBufSize := 0, dicPos := 0 } }

/-- The entry points of the LZMA2 decoder that borrows each block's buffer. The buffer is
taken back only to make room for the next. -/
inductive BlockOp where
  | nextBlock (buf : Array UInt8) (size : ℕ)
  | decodeBlock (dicLimit : ℕ) (src : List UInt8) (finish : FinishMode)
  | reset

def BlockOp.fits (d : Lzma2Decoder) : BlockOp → Prop
  | .nextBlock buf size => size ≤ buf.size ∧ size < 2 ^ 63
  | .decodeBlock dicLimit _ _ =>
      d.decoder.dicPos ≤ dicLimit ∧ dicLimit ≤ d.decoder.dicBufSize
  | .reset => True

def BlockOp.apply (d : Lzma2Decoder) :
    BlockOp → Except Fault (Lzma2Decoder × Except Error Unit)
  | .nextBlock buf size => .ok (d.takeBlockDic.setBlockDic buf size, .ok ())
  | .decodeBlock dicLimit src finish => do
      let r ← d.decodeToDic dicLimit src finish
      .ok (r.d, outcome r.res)
  | .reset => .ok (d.reset, .ok ())

section
variable {p : LzmaDec} {c : Config} {d : Lzma2Decoder} {input w X out : List UInt8}
  {prop : LzmaProps}

theorem bufEnd_sound {room : ℕ} {mode : FinishMode} {r : BufResult}
    (h : BufEnd prop w c X input room mode out r) :
    r.p.Sound ∧ ((∃ pr, r.res = .ok pr) ∨ r.res = .error .corruptData) := by
  cases h with
  | more _ _ _ _ hres _ hat => exact ⟨.live hat, .inl ⟨_, hres⟩⟩
  | full _ _ _ _ _ _ hres _ hat => exact ⟨.live hat, .inl ⟨_, hres⟩⟩
  | maybe _ _ _ _ _ _ hres _ hat => exact ⟨.live hat, .inl ⟨_, hres⟩⟩
  | mark _ _ _ _ _ _ _ _ hres _ _ hmk => exact ⟨.dead (.marked hmk), .inl ⟨_, hres⟩⟩
  | reject _ _ _ _ hres _ _ hs => exact ⟨hs, .inr hres⟩
  | past _ _ _ _ _ _ hres _ _ hat => exact ⟨.live hat, .inr hres⟩

theorem dead_window (h : p.Dead) : ∃ w, p.Window w := by
  cases h with
  | marked h => exact ⟨_, h.toWindow⟩
  | failed _ h => exact ⟨_, h⟩

theorem sound_shape (h : p.Sound) : p.Shape := by
  cases h with
  | live h => exact h.shape
  | dead h => exact h.shape

/-- A decoder past an error or an end marker writes nothing more. -/
theorem decodeBuf_dead (outSize : ℕ) (mode : FinishMode) (h : p.Dead)
    (hsize : p.prop.dictSize ≤ p.dicBufSize) :
    ∃ r, decodeBuf input mode (outSize + 1) p outSize input.length 0 [] = .ok r ∧ r.p.Sound ∧
      r.p.prop = p.prop ∧ r.p.dicBufSize = p.dicBufSize ∧
      ((∃ pr, r.res = .ok pr) ∨ r.res = .error .corruptData) := by
  have hd := dead_wrapped h hsize
  obtain ⟨hprop, hbuf⟩ := p.wrapped_spec
  obtain ⟨dicLimit, curMode, hlim, hl, hls, -⟩ := LzmaDec.outLimit_spec
    (LzmaDec.wrapped_lt h.shape hsize) outSize mode
  obtain ⟨r, hr, hp, hres⟩ := lzmaDecDecodeToDic_dead dicLimit (input.drop 0) curMode hd
  rcases hres with ⟨hres, -⟩ | hres
  · obtain ⟨w, hw⟩ := dead_window hd
    obtain ⟨new, hnew, -, hlen, -, -, heq⟩ := decodeBuf_ok outSize [] (Nat.zero_le _) hlim hr hres
      (Nat.zero_le _) (hp ▸ hw) (by rw [Grown, hp]) List.suffix_rfl (by rw [hp]) (by rw [hp]; omega)
    rw [hp, Nat.sub_self] at hlen
    rw [Nat.sub_zero] at heq
    rw [heq, if_pos (.inl hlen)]
    exact ⟨_, rfl, hp ▸ .dead hd, by rw [hp, hprop], by rw [hp, hbuf], .inl ⟨_, rfl⟩⟩
  · have herr : decodeBuf input mode (outSize + 1) p outSize (input.length - 0) 0 [] = _ :=
      decodeBuf_error (Nat.zero_le _) hlim hr hres
    rw [Nat.sub_zero] at herr
    rw [herr]
    exact ⟨_, rfl, hp ▸ .dead hd, by rw [hp, hprop], by rw [hp, hbuf], .inr rfl⟩

/-- The LZMA decoder between two calls. -/
structure Ready (d : LzmaDecoder) : Prop where
  sound : d.p.Sound
  size : d.p.prop.dictSize ≤ d.p.dicBufSize

theorem ready_new (props : LzmaProps) : Ready (LzmaDecoder.new props) :=
  ⟨.live (.header (LzmaDec.new_before props)), props.dictSize_le_dicBufSize⟩

theorem Ready.decode {d : LzmaDecoder} (h : Ready d) (input : List UInt8) (outSize : ℕ)
    (mode : FinishMode) : ∃ r, d.decode input outSize mode = .ok r ∧ Ready ⟨r.p⟩ ∧
      ((∃ pr, r.res = .ok pr) ∨ r.res = .error .corruptData) := by
  cases h.sound with
  | live hat =>
      obtain ⟨r, hr, hend, hprop, hbuf⟩ := decodeBuf_end mode [] hat h.size
        (Nat.zero_le input.length) (Nat.lt_succ_self outSize)
      obtain ⟨hs, hres⟩ := bufEnd_sound hend
      exact ⟨r, hr, ⟨hs, hprop ▸ hbuf ▸ h.size⟩, hres⟩
  | dead hd =>
      obtain ⟨r, hr, hs, hprop, hbuf, hres⟩ := decodeBuf_dead outSize mode hd h.size
      exact ⟨r, hr, ⟨hs, hprop ▸ hbuf ▸ h.size⟩, hres⟩

theorem LzmaOp.keeps (d : LzmaDecoder) (op : LzmaOp) (h : Ready d) (hfit : op.fits d) :
    ∃ d' res, op.apply d = .ok (d', res) ∧ OnlyCorrupt res ∧ Ready d' := by
  cases op with
  | decode input outSize mode =>
      obtain ⟨r, hr, hready, hres⟩ := h.decode input outSize mode
      rw [LzmaOp.apply, hr, ok_bind]
      exact ⟨_, _, rfl, .of hres, hready⟩
  | decodeToDic dicLimit src mode =>
      obtain ⟨r, hr, hs, hframe, hres⟩ := lzmaDecDecodeToDic_sound src mode h.sound hfit.1 hfit.2
      rw [LzmaOp.apply, hr, ok_bind]
      exact ⟨_, _, rfl, .of (hres.imp_left fun ⟨n, _, hn⟩ => ⟨n, hn⟩),
        ⟨hs, by rw [hframe.prop, hframe.dicBufSize]; exact h.size⟩⟩
  | reset =>
      exact ⟨_, _, rfl, .inl rfl, ⟨.live (.header (LzmaDec.init_before (sound_shape h.sound))),
        h.size⟩⟩

/-- The LZMA2 decoder between two calls: its table has room for any chunk's properties. -/
structure Ready2 (d : Lzma2Decoder) : Prop where
  sound : d.Sound
  room : lzmaPropsGetNumProbs lzma2LclpMax 0 ≤ d.decoder.probs.size

theorem Ready2.shape (h : Ready2 d) : d.decoder.Shape := by
  obtain ⟨pos, held, out, hat⟩ := h.sound
  exact hat.shape

theorem ready2_reset (h : d.decoder.Shape)
    (hroom : lzmaPropsGetNumProbs lzma2LclpMax 0 ≤ d.decoder.probs.size) : Ready2 d.reset :=
  ⟨⟨_, _, _, d.reset_at h hroom⟩, hroom⟩

theorem ready2_alloc {n size : ℕ} (hn : n < 2 ^ 32) (hs : size < 2 ^ 63) :
    Ready2 (Lzma2Decoder.reset ⟨.new, .alloc (allocProps n hn) size⟩) := by
  refine ready2_reset (d := ⟨.new, .alloc (allocProps n hn) size⟩) (shape_alloc _ hs) ?_
  simp [LzmaDec.alloc, LzmaDec.init, LzmaDec.initDicAndState, allocProps]

theorem Ready2.decodeToDic (h : Ready2 d) {dicLimit : ℕ} (src : List UInt8) (mode : FinishMode)
    (hl : d.decoder.dicPos ≤ dicLimit) (hls : dicLimit ≤ d.decoder.dicBufSize) :
    ∃ r, d.decodeToDic dicLimit src mode = .ok r ∧ Ready2 r.d ∧
      r.d.decoder.prop.dictSize = d.decoder.prop.dictSize ∧
      r.d.decoder.dicBufSize = d.decoder.dicBufSize ∧ OnlyCorrupt (outcome r.res) := by
  obtain ⟨pos, held, out, hat⟩ := h.sound
  obtain ⟨r, hr, new, hframe, hs, hres, -⟩ := decodeToDic_end src mode hat hl hls
  exact ⟨r, hr, ⟨hs, hframe.probs ▸ h.room⟩, hframe.dict, hframe.size,
    .of (hres.imp_left fun ⟨n, _, hn⟩ => ⟨n, hn⟩)⟩

theorem Lzma2Op.keeps (d : Lzma2Decoder) (op : Lzma2Op)
    (h : Ready2 d ∧ d.decoder.prop.dictSize ≤ d.decoder.dicBufSize) (hfit : op.fits d) :
    ∃ d' res, op.apply d = .ok (d', res) ∧ OnlyCorrupt res ∧ Ready2 d' ∧
      d'.decoder.prop.dictSize ≤ d'.decoder.dicBufSize := by
  obtain ⟨hready, hsize⟩ := h
  cases op with
  | decode input outSize mode =>
      obtain ⟨r, hr, hs, hd, hb, hp, hres⟩ := decodeBuf2_sound mode [] hready.sound hsize
        (Nat.zero_le input.length) (Nat.lt_succ_self outSize)
      have hdecode : d.decode input outSize mode = .ok r := hr
      rw [Lzma2Op.apply, hdecode, ok_bind]
      exact ⟨_, _, rfl, .of hres, ⟨hs, hp ▸ hready.room⟩, by rw [hd, hb]; exact hsize⟩
  | decodeBlock dicLimit src mode =>
      obtain ⟨r, hr, hready', hd, hb, hres⟩ := hready.decodeToDic src mode hfit.1 hfit.2
      rw [Lzma2Op.apply, hr, ok_bind]
      exact ⟨_, _, rfl, hres, hready', by rw [hd, hb]; exact hsize⟩
  | wrapDicPos =>
      obtain ⟨pos, held, out, hat⟩ := hready.sound
      obtain ⟨hprop, hbuf⟩ := wrapped_sizes d
      exact ⟨_, _, rfl, .inl rfl, ⟨⟨pos, held, out, hat.wrapped hsize⟩,
        (wrapped_probs d.decoder).symm ▸ hready.room⟩, by rw [hprop, hbuf]; exact hsize⟩
  | reset => exact ⟨_, _, rfl, .inl rfl, ready2_reset hready.shape hready.room, hsize⟩

theorem BlockOp.keeps (d : Lzma2Decoder) (op : BlockOp) (h : Ready2 d) (hfit : op.fits d) :
    ∃ d' res, op.apply d = .ok (d', res) ∧ OnlyCorrupt res ∧ Ready2 d' := by
  cases op with
  | nextBlock buf size =>
      have hs := h.shape
      exact ⟨_, _, rfl, .inl rfl, ready2_reset ⟨Nat.zero_le _, hfit.1, hfit.2, hs.probs,
        hs.tempBuf_size⟩ h.room⟩
  | decodeBlock dicLimit src mode =>
      obtain ⟨r, hr, hready, -, -, hres⟩ := h.decodeToDic src mode hfit.1 hfit.2
      rw [BlockOp.apply, hr, ok_bind]
      exact ⟨_, _, rfl, hres, hready⟩
  | reset => exact ⟨_, _, rfl, .inl rfl, ready2_reset h.shape h.room⟩

theorem ready2_new {n : ℕ} (hn : n < 2 ^ 32) :
    Ready2 (Lzma2Decoder.reset ⟨.new, .new (allocProps n hn)⟩) ∧
      (allocProps n hn).dictSize ≤ (allocProps n hn).dicBufSize :=
  ⟨ready2_alloc hn (lt_of_lt_of_le (allocProps n hn).dicBufSize_lt (by norm_num)),
    (allocProps n hn).dictSize_le_dicBufSize⟩

/-- A decoder with a dictionary of its own, whole or capped. -/
inductive Lzma2Decoder.Owns (d : Lzma2Decoder) : Prop
  | whole (dictProp : ℕ) : Lzma2Decoder.new dictProp = .ok d → d.Owns
  | capped (dictProp cap : ℕ) : Lzma2Decoder.newCapped dictProp cap = .ok d → d.Owns

theorem Lzma2Decoder.Owns.ready (h : d.Owns) :
    Ready2 d ∧ d.decoder.prop.dictSize ≤ d.decoder.dicBufSize := by
  cases h with
  | whole dictProp h =>
      unfold Lzma2Decoder.new at h
      split at h
      · cases h
      · rw [← Except.ok.inj h]
        exact ready2_new _
  | capped dictProp cap h =>
      unfold Lzma2Decoder.newCapped at h
      split at h
      · cases h
      · rw [← Except.ok.inj h]
        exact ready2_new _

theorem ready2_newProbsOnly {dictProp : ℕ} (h : Lzma2Decoder.newProbsOnly dictProp = .ok d) :
    Ready2 d := by
  unfold Lzma2Decoder.newProbsOnly at h
  split at h
  · cases h
  · rw [← Except.ok.inj h]
    exact ready2_alloc _ (by norm_num)

/-- Whatever is called on a decoder from its construction on, no index or difference goes
wrong, and the only error is that the data is corrupt. -/
theorem calls_safe :
    (∀ props ops, Safe (fun d op => LzmaOp.fits d op) LzmaOp.apply OnlyCorrupt
      (LzmaDecoder.new props) ops) ∧
    (∀ d : Lzma2Decoder, d.Owns → ∀ ops,
      Safe (fun d op => Lzma2Op.fits d op) Lzma2Op.apply OnlyCorrupt d ops) ∧
    (∀ dictProp d, Lzma2Decoder.newProbsOnly dictProp = .ok d → ∀ ops,
      Safe (fun d op => BlockOp.fits d op) BlockOp.apply OnlyCorrupt d ops) :=
  ⟨fun props => Safe.of_invariant Ready LzmaOp.keeps (ready_new props),
    fun _ h => Safe.of_invariant _ Lzma2Op.keeps h.ready,
    fun _ _ h => Safe.of_invariant Ready2 BlockOp.keeps (ready2_newProbsOnly h)⟩

/-- A stored chunk cut in two, then an end marker out of place. -/
theorem calls_safe_stored : ∃ d, Lzma2Decoder.new 0 = .ok d ∧
    Safe (fun d op => Lzma2Op.fits d op) Lzma2Op.apply OnlyCorrupt d
      [.decode [1, 0, 0] 4 .any, .decode [65, 3] 4 .endMark, .reset] := by
  obtain ⟨d, hd, -⟩ := Lzma2Decoder.new_at (show 0 ≤ 40 by decide)
  exact ⟨d, hd, calls_safe.2.1 d (.whole 0 hd) _⟩

end
end LzmaTurbo.Lzma2
