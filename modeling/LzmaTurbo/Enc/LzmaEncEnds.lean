import LzmaTurbo.Enc.LzmaEncRuns

/-!
# What the encoder writes decodes to its input

The decoder that reads the bytes stands where the encoder stood after every symbol, and the
flush leaves it a zero code and nothing unread.
-/
namespace LzmaTurbo.Enc
open Machine Lzma BitProgram Window
open RangeDecoder (Coder)
open ExactCoder (Op Path Exact value)

namespace LzmaEnc

section
variable {prop : LzmaProps} {src : List UInt8} {e : LzmaEnc} {s : RefState} {w : List UInt8}
  {x : Exact ℕ} {fails : ℕ → Bool} {T : ModelSlot → Prop}
  {os : List (Op ModelSlot)}

/-- Decisions that cover the input spell the symbols of all of it. -/
theorem codeDecisions_spells (build : SlotBuild) (h : e.Models fails w x) (ha : e.At prop src s)
    (hpos : 0 < e.nowPos) {ds : List Decision} (hc : Covers src prop.dictSize e.nowPos e.reps ds) :
    ∃ e' s' os w', codeDecisions build src ds e = .ok e' ∧ e'.At prop src s' ∧
      e'.Models fails w' (x.ops (os.map (Op.map place))) ∧
      Spells prop (·.InTable e.litLen) s os s' ∧ e'.nowPos = src.length ∧
      e'.writeEndMark = e.writeEndMark := by
  induction ds generalizing e s w x with
  | nil => exact ⟨e, s, [], w, rfl, ha, h, .nil s, hc, rfl⟩
  | cons d ds ih =>
      obtain ⟨hd, hrest⟩ := hc
      obtain ⟨e₁, s₁, os, sym, hcode, hturn, hnow, hreps⟩ := codeDecision_spec build h ha hpos hd
      obtain ⟨w₁, h₁⟩ := hturn.models
      have hlit : e₁.litLen = e.litLen := hturn.stands.litLen.trans ha.litLen.symm
      obtain ⟨e', s', os', w', hcodes, ha', h', hspells, hend, hmark⟩ :=
        ih h₁ hturn.stands (by omega) (by rwa [hnow, hreps])
      refine ⟨e', s', os ++ os', w', ?_, ha', ?_, .cons hturn.path hturn.applies (hlit ▸ hspells),
        hend, hmark.trans hturn.writeEndMark⟩
      · rw [codeDecisions, hcode, ok_bind, hcodes]
      · rwa [ops_append]

/-- The interval before the first bit, all cells at their first value. -/
abbrev first : Exact ℕ := wholeInterval #[]

theorem first_probs (slot : ℕ) : first.probs slot = 1024 := by
  change (#[] : Array ℕ).getD slot 1024 = 1024
  rw [Array.getD_eq_getD_getElem?]
  rfl

theorem init_models (fails : ℕ → Bool) (prop : LzmaProps) (mark : Bool) :
    (init fails prop mark).Models fails [] first :=
  have h := start_models fails fun v (hv : v ∈ #[]) => absurd hv (Array.not_mem_empty v)
  ⟨⟨⟨h.carry.out.count, h.carry.out.kept⟩, h.carry.cache_lt, h.carry.digits, h.carry.low,
    h.carry.sum_le, h.carry.cone⟩, h.ok, h.range, fun s _ => (first_probs (place s)).symm,
    ⟨rfl, fun _ n hn => absurd hn (Nat.not_lt_zero n), fun _ => rfl⟩⟩

theorem init_at (fails : ℕ → Bool) (prop : LzmaProps) (mark : Bool) (src : List UInt8) :
    (init fails prop mark).At prop src (freshState []) :=
  ⟨rfl, rfl, rfl, rfl, rfl, rfl, Nat.zero_le _, rfl, freshState_base [], rfl⟩

/-- The first byte is a literal in the first table. -/
theorem codeFirst_spells (fails : ℕ → Bool) (prop : LzmaProps) (mark : Bool) {b : UInt8}
    {bs : List UInt8} (hsrc : src = b :: bs) : ∃ e s os w,
      codeFirst src (init fails prop mark) = .ok e ∧ e.At prop src s ∧
      e.Models fails w (first.ops (os.map (Op.map place))) ∧
      Spells prop (·.InTable (init fails prop mark).litLen) (freshState []) os s ∧
      e.nowPos = 1 ∧ e.reps = ⟨1, 1, 1, 1⟩ ∧ e.writeEndMark = mark := by
  have h := init_models fails prop mark
  have ha := init_at fails prop mark src
  have hin : ModelSlot.InTable (init fails prop mark).litLen (.isMatch 0 0) :=
    (by decide : 0 < 12 ∧ 0 < 16)
  have hslots := ha.litSlots 0 (by
    change literal + 0 = litProbOf prop []
    rw [litProbOf]
    change _ = literal + lzmaLitSize * (0 % 2 ^ prop.lp * 2 ^ prop.lc + 0 / 2 ^ (8 - prop.lc))
    rw [Nat.zero_mod, Nat.zero_mul, Nat.zero_div]
    rfl)
  obtain ⟨c₁, cells₁, w₁, hop, h₁⟩ := h.known hin false
  have hpath : Path (·.InTable (init fails prop mark).litLen) place
      (tree ((freshState []).ctx prop).litProb 8 1) (litEncode .lit b.toNat) (256 + b.toNat) :=
    litEncode_path (fun i _ hi => by
      have hslot := hslots i (by omega)
      rwa [Nat.zero_add] at hslot) b.toNat_lt
  obtain ⟨c, cells, w', hops, hm⟩ := h₁.ops fun o ho => hpath.inTable o ho
  have hsymbol : Path (·.InTable (init fails prop mark).litLen) place
      (symbolProg ((freshState []).ctx prop))
      (.bit (.isMatch 0 0) false :: litEncode .lit b.toNat) (.lit b) := by
    have hlit := hpath.map fun i => Symbol.lit (UInt8.ofNat i)
    rw [leaf_byte] at hlit
    exact .bit hin rfl hlit
  obtain ⟨s, hs⟩ : ∃ s : RefState, s = { freshState [] with
    coder := (freshState []).coder, state := litState 0, hist := [b] } := ⟨_, rfl⟩
  have happly : applySymbol prop (freshState []) (freshState []).coder (.lit b) = .next s := by
    rw [hs]
    rfl
  have hat := ha.next (.lit b) trivial happly 1 (by rw [hsrc]; simp [init])
    (by rw [hs, hsrc]; rfl) c cells
  refine ⟨LzmaEnc.coded { init fails prop mark with nowPos := 1 } c cells, s,
    .bit (.isMatch 0 0) false :: litEncode .lit b.toNat, w', ?_, ?_, hm.moved 0 ⟨1, 1, 1, 1⟩ 1, ?_,
    rfl, rfl, rfl⟩
  · have hbyte : byteAt src 0 = .ok b.toNat := byteAt_ok (by rw [hsrc]; rfl)
    rw [codeFirst, hop, ok_bind]
    change (byteAt src 0 >>= fun cur => LzmaEnc.ops (litEncode .lit cur) _ >>= fun e => _) = _
    rw [hbyte, ok_bind, hops, ok_bind]
    rfl
  · rw [hs] at hat ⊢
    exact hat
  · have hspells := Spells.cons hsymbol happly (.nil s)
    rwa [List.append_nil] at hspells

/-! ## The end mark -/

def markSlot : List (Op ModelSlot) :=
  onesLoop (fun m => .dist (.posSlot 0 m)) (1 <<< kNumPosSlotBits) (1 <<< kNumPosSlotBits) 1

def markAlign : List (Op ModelSlot) :=
  onesLoop (fun m => .dist (.align m)) kAlignTableSize kAlignTableSize 1

/-- The bits of the mark's distance are those of any coded distance. -/
theorem mark_path (litLen : ℕ) : Path (ModelSlot.InTable litLen) place (distProg 0)
    (markSlot ++ (List.replicate (30 - kNumAlignBits) (.direct true) ++ markAlign))
    0xFFFFFFFF := by
  obtain ⟨os, hos, hpath⟩ := distEncode_path .leadingZeros (le_refl 2)
    (show 0xFFFFFFFF < 2 ^ 32 by norm_num)
  have hcoded : (distEncode .leadingZeros 2 0xFFFFFFFF).map (List.map (Op.map ModelSlot.dist)) =
      .ok (markSlot ++ (List.replicate (30 - kNumAlignBits) (.direct true) ++ markAlign)) := by
    rfl
  rw [hos] at hcoded
  have hembed : Path (ModelSlot.InTable litLen) place (distProg 0) (os.map (Op.map .dist)) _ :=
    hpath.embed (fun _ hs => hs) fun _ => rfl
  rwa [show os.map (Op.map ModelSlot.dist) = _ from Except.ok.inj hcoded] at hembed

/-- The mark is a symbol as well, whatever state it is coded in. -/
theorem writeEndMarker_spec (h : e.Models fails w x) (ha : e.At prop src s) :
    ∃ (os : List (Op ModelSlot)) (e' : LzmaEnc) (w' : List UInt8),
      e.writeEndMarker (s.ctx prop).posState = .ok e' ∧ e'.result = e.result ∧
      e'.finished = e.finished ∧ e'.Models fails w' (x.ops (os.map (Op.map place))) ∧
      Path (·.InTable e.litLen) place (symbolProg (s.ctx prop)) os (.simple 0xFFFFFFFF 2) := by
  have hin : ModelSlot.InTable e.litLen (.isMatch e.state (s.ctx prop).posState) :=
    ⟨ha.state_lt, ha.posState_lt⟩
  have hslots := ha.repSlots
  have hlens := lenPath ha lenCoder (f := .len) (fun _ hs => hs) (fun _ => rfl) (le_refl 2)
    (by norm_num)
  obtain ⟨-, hmatch, -, -⟩ := nextStates e.state ha.state_lt
  obtain ⟨c₁, cells₁, w₁, hop₁, h₁⟩ := h.known hin true
  obtain ⟨c₂, cells₂, w₂, hop₂, h₂⟩ := h₁.knownNext hslots.rep.1 false
  have hm₂ := h₂.moved (matchState e.state) e.reps e.nowPos
  obtain ⟨c₃, cells₃, w₃, hops₃, h₃⟩ := hm₂.ops fun o ho => hlens.inTable o ho
  have hdist := mark_path e.litLen
  have hparts := fun o ho => hdist.inTable o ho
  have hslot : ∀ o ∈ markSlot, o.In (ModelSlot.InTable e.litLen) := fun o ho =>
    hparts o (List.mem_append_left _ ho)
  have hdirect : ∀ o ∈ List.replicate (30 - kNumAlignBits) (Op.direct true),
      o.In (ModelSlot.InTable e.litLen) := fun o ho =>
    hparts o (List.mem_append_right _ (List.mem_append_left _ ho))
  have halign : ∀ o ∈ markAlign, o.In (ModelSlot.InTable e.litLen) := fun o ho =>
    hparts o (List.mem_append_right _ (List.mem_append_right _ ho))
  have hsimple : Path (·.InTable e.litLen) place (simpleProg (s.ctx prop))
      ((LenEnc.encode (2 - 2) (s.ctx prop).posState).map (Op.map .len) ++ (markSlot ++
        (List.replicate (30 - kNumAlignBits) (.direct true) ++ markAlign)))
      (.simple 0xFFFFFFFF 2) :=
    hlens.bind (hdist.map fun d => Symbol.simple d (2 - 2 + 2))
  obtain ⟨c₄, cells₄, w₄, hops₄, h₄⟩ := h₃.ops hslot
  obtain ⟨c₅, cells₅, w₅, hops₅, h₅⟩ := h₄.ops hdirect
  obtain ⟨c₆, cells₆, w₆, hops₆, h₆⟩ := h₅.ops halign
  refine ⟨.bit (.isMatch e.state (s.ctx prop).posState) true :: .bit (.isRep e.state) false ::
    ((LenEnc.encode (2 - 2) (s.ctx prop).posState).map (Op.map .len) ++ (markSlot ++
      (List.replicate (30 - kNumAlignBits) (.direct true) ++ markAlign))),
    LzmaEnc.coded { e with state := matchState e.state } c₆ cells₆, w₆, ?_, rfl, rfl, ?_,
    .bit hin (by rw [ha.state]; rfl) (.bit hslots.rep.1 hslots.rep.2 hsimple)⟩
  · simp only [writeEndMarker, hop₁, ok_bind, hop₂, hmatch]
    rw [show (0 : ℕ) = 2 - 2 from rfl, hops₃, ok_bind]
    change (LzmaEnc.ops markSlot _ >>= fun e => LzmaEnc.ops (List.replicate _ _) e >>= fun e =>
      LzmaEnc.ops markAlign e) = _
    rw [hops₄, ok_bind, hops₅, ok_bind]
    exact hops₆
  · rw [ops_cons, ops_cons, ops_append, ops_append, ops_append]
    exact h₆

/-! ## The flush -/

/-- The flushed bytes are a number of the interval, its lowest. -/
theorem Models.flushed (h : e.Models fails w x) : ∃ w', x.Holds w' ∧ value w' = x.low ∧
    w'.length = x.digits + 5 ∧ (e.toCoding.flushData.flushStream.rc.res = .ok () →
      e.toCoding.flushData.flushStream.out.bytes = w') := by
  have hr := h.ok.range_ge
  obtain ⟨w', hout, hvalue, hlen⟩ := h.carry.flushed (by omega)
  obtain ⟨hflush, hbuf, -⟩ := hout.flush
  refine ⟨w', ⟨hlen.ge, ?_, ?_⟩, hvalue, hlen, fun hok => ?_⟩
  · rw [hlen, Nat.sub_self, pow_zero, mul_one, hvalue]
  · rw [hlen, Nat.sub_self, pow_zero, mul_one, hvalue]
    omega
  · rw [← hflush.kept hok, hbuf, List.append_nil]

/-- The decoder behind the header stands in the interval before the first bit. -/
theorem first_reads (prop : LzmaProps) (h : first.Holds w) : ∃ c, Moves prop start w
    (.body { freshState [] with coder := c }) (w.drop 5) ∧ first.Reads w c (w.drop 5) := by
  obtain ⟨b1, b2, b3, b4, ys, rfl, hcode⟩ := holds_header h
  refine ⟨((freshState []).start b1 b2 b3 b4).coder, .step trivial ?_ (.refl _ _), rfl, ?_,
    funext fun slot => (first_probs slot).symm, rfl⟩
  · rfl
  · change _ + 0 = value (List.take (0 + 5) _)
    rw [Nat.add_zero, Nat.zero_add, ← hcode]
    rfl

/-- What the operations of a whole stream have in common with and without an input. -/
theorem encode_spells (build : SlotBuild) {ds : List Decision} (mf : FinderStatus)
    (fails : ℕ → Bool) (mark : Bool)
    (hc : src ≠ [] → Covers src prop.dictSize 1 ⟨1, 1, 1, 1⟩ ds) :
    ∃ (e : LzmaEnc) (s : RefState) (os : List (Op ModelSlot)) (w : List UInt8),
      encode build src ds mf (init fails prop mark) = e.flush mf ∧ e.At prop src s ∧
      e.Models fails w (first.ops (os.map (Op.map place))) ∧
      Spells prop (·.InTable (init fails prop mark).litLen) (freshState []) os s ∧
      e.nowPos = src.length ∧ e.writeEndMark = mark := by
  cases hsrc : src with
  | nil =>
      exact ⟨init fails prop mark, freshState [], [], [], if_pos rfl, init_at fails prop mark [],
        init_models fails prop mark, .nil _, rfl, rfl⟩
  | cons b bs =>
      have hne : src ≠ [] := by rw [hsrc]; exact List.cons_ne_nil b bs
      obtain ⟨e₁, s₁, os, w₁, hfirst, ha, hm, hspells, hnow, hreps, hmark⟩ :=
        codeFirst_spells fails prop mark hsrc
      have hlit : e₁.litLen = (init fails prop mark).litLen := ha.litLen
      obtain ⟨e, s, os', w, hcode, ha', hm', hspells', hend, hmark'⟩ := codeDecisions_spells build
        hm ha (by omega) (by rw [hnow, hreps]; exact hc hne)
      subst hsrc
      refine ⟨e, s, os ++ os', w, ?_, ha', by rwa [ops_append],
        hspells.append (hlit ▸ hspells'), hend, hmark'.trans hmark⟩
      rw [encode, if_neg hne, hfirst, ok_bind, hcode, ok_bind]

/-- At the end of a stream without mark the decoder has all of the input and a zero code. -/
def Decodes (prop : LzmaProps) (mark : Bool) (src w : List UInt8) : Prop :=
  if mark then reference prop w = ⟨src.reverse, [], .mark⟩
  else ∃ s, Moves prop start w (.body s) [] ∧ s.hist = src.reverse ∧ s.coder.code = 0

/-- The number of an interval's own bytes is its lower end: the code has run out. -/
theorem code_zero (hv : value w = x.low) (hl : w.length = x.digits + 5) {c : Coder ℕ}
    {rest : List UInt8} (hc : x.Reads w c rest) : c.code = 0 ∧ rest = [] := by
  have hcode := hc.code
  rw [List.take_of_length_le hl.le, hv] at hcode
  refine ⟨by omega, ?_⟩
  rw [hc.rest, List.drop_of_length_le hl.le]

/-- Flushing without a mark. -/
theorem decodes_plain (h : e.Models fails w (first.ops (os.map (Op.map place))))
    (hs : Spells prop T (freshState []) os s) (hist : s.hist = src.reverse)
    (hok : e.toCoding.flushData.flushStream.rc.res = .ok ()) :
    Decodes prop false src e.toCoding.flushData.flushStream.out.bytes := by
  obtain ⟨w', hholds, hvalue, hlen, hout⟩ := h.flushed
  have hfirst : first.Ok := (init_models fails prop false).ok
  obtain ⟨c, hstart, hreads⟩ := first_reads prop (hholds.of_ops hfirst)
  obtain ⟨c', rest', hmoves, hreads'⟩ := hs.moves hfirst hreads hholds
  obtain ⟨hcode, hrest⟩ := code_zero hvalue hlen hreads'
  subst hrest
  rw [hout hok]
  exact ⟨_, hstart.trans hmoves, hist, hcode⟩

/-- Flushing behind the mark. -/
theorem decodes_mark {os' : List (Op ModelSlot)}
    (h : e.Models fails w ((first.ops (os.map (Op.map place))).ops (os'.map (Op.map place))))
    (hs : Spells prop T (freshState []) os s) (hist : s.hist = src.reverse)
    (hp : Path T place (symbolProg (s.ctx prop)) os' (.simple 0xFFFFFFFF 2))
    (hok : e.toCoding.flushData.flushStream.rc.res = .ok ()) :
    Decodes prop true src e.toCoding.flushData.flushStream.out.bytes := by
  obtain ⟨w', hholds, hvalue, hlen, hout⟩ := h.flushed
  have hfirst : first.Ok := (init_models fails prop true).ok
  have hbody := hholds.of_ops (hfirst.ops _)
  obtain ⟨c, hstart, hreads⟩ := first_reads prop (hbody.of_ops hfirst)
  obtain ⟨c', rest', hmoves, hreads'⟩ := hs.moves hfirst hreads hbody
  have hn : RangeDecoder.normalize c' rest' = some (c', rest') :=
    RangeDecoder.normalize_of_le (by rw [hreads'.range]; exact (hfirst.ops _).range_ge) _
  obtain ⟨d, ys, c₁, rest₁, hrun, hn₁, hread₁⟩ := hreads'.path hp (hfirst.ops _) hn hholds
  obtain ⟨hcode, hrest⟩ := code_zero hvalue hlen hread₁
  subst hrest
  rw [hout hok]
  have hstep : Config.step prop (.body { s with coder := c' }) rest' =
      .mark { s with coder := c₁ } [] := by
    change RefState.step prop _ rest' = _
    have hctx : ({ s with coder := c' } : RefState).ctx prop = s.ctx prop := rfl
    rw [RefState.step, hctx, hrun]
    simp only [RangeDecoder.Outcome.flush, hn₁, applySymbol, if_true, hcode]
    rfl
  have hend := Moves.mark (hstart.trans hmoves) hstep
  change reference prop w' = _
  rw [hend, ← hist]
  rfl

/-- The call ends well if no write was refused and the match finder has not failed. -/
theorem checkErrors_spec (mf : FinderStatus) (h : e.result = .ok ()) :
    (e.checkErrors mf).toCoding = e.toCoding ∧
      (e.finished = true → (e.checkErrors mf).finished = true) ∧
      ((e.checkErrors mf).result = .ok () ↔
        e.rc.res = .ok () ∧ mf.mtFailed = false ∧ mf.failed = false) := by
  unfold checkErrors
  rw [h]
  refine ⟨rfl, fun hf => by simp [hf], ?_⟩
  cases e.rc.res <;> cases mf.mtFailed <;> cases mf.failed <;> simp [Except.isOk, Except.toBool]

/-- The last bytes reach the stream, and `check_errors` answers. -/
theorem ends_decoded {mark : Bool} (mf : FinderStatus) (hcalm : e.toCoding.Calm fails)
    (hclean : e.result = .ok ()) (hfinished : e.finished = true)
    (hdecodes : e.toCoding.flushData.flushStream.rc.res = .ok () →
      Decodes prop mark src e.toCoding.flushData.flushStream.out.bytes) :
    ∃ e' : LzmaEnc, (Except.ok (checkErrors mf { e with
        rc := e.toCoding.flushData.flushStream.rc
        out := e.toCoding.flushData.flushStream.out }) : Except Fault LzmaEnc) = .ok e' ∧
      e'.finished = true ∧
      (e'.result = .ok () ↔ e'.rc.res = .ok () ∧ mf.mtFailed = false ∧ mf.failed = false) ∧
      (e'.rc.res = .ok () ↔ ∀ n < e'.out.calls, fails n = false) ∧
      (e'.rc.res = .ok () → Decodes prop mark src e'.out.bytes) := by
  obtain ⟨hcoding, hdone, hresult⟩ := checkErrors_spec (e := { e with
    rc := e.toCoding.flushData.flushStream.rc
    out := e.toCoding.flushData.flushStream.out }) mf hclean
  have hrc := congrArg Coding.rc hcoding
  have hout := congrArg Coding.out hcoding
  refine ⟨_, rfl, hdone hfinished, ?_, ?_, ?_⟩
  · rw [hrc]
    exact hresult
  · rw [hrc, hout]
    exact hcalm.flushData.flush.taken
  · rw [hrc, hout]
    exact hdecodes

/-- The stream ends with the mark or without, and what no write has refused can be read back. -/
theorem flush_decodes (mf : FinderStatus)
    (h : e.Models fails w (first.ops (os.map (Op.map place))))
    (ha : e.At prop src s) (hs : Spells prop (·.InTable e.litLen) (freshState []) os s)
    (hend : e.nowPos = src.length) : ∃ e', e.flush mf = .ok e' ∧ e'.finished = true ∧
      (e'.result = .ok () ↔ e'.rc.res = .ok () ∧ mf.mtFailed = false ∧ mf.failed = false) ∧
      (e'.rc.res = .ok () ↔ ∀ n < e'.out.calls, fails n = false) ∧
      (e'.rc.res = .ok () → Decodes prop e.writeEndMark src e'.out.bytes) := by
  have hhist : s.hist = src.reverse := by rw [ha.hist, hend, List.take_length]
  have hended : ({ e with finished := true } : LzmaEnc).Models fails w
      (first.ops (os.map (Op.map place))) := ⟨h.carry, h.ok, h.range, h.cells, h.calm⟩
  have hat : ({ e with finished := true } : LzmaEnc).At prop src s :=
    ⟨ha.litLen, ha.lc, ha.lpMask, ha.pbMask, ha.state, ha.reps, ha.pos_le, ha.hist, ha.base,
      ha.clean⟩
  rw [flush]
  dsimp only
  by_cases hmark : e.writeEndMark = true
  · obtain ⟨os', e', w', hmarker, hresult, hfinished, h', hpath⟩ := writeEndMarker_spec hended hat
    have hpos := hat.posState
    dsimp only at hpos
    rw [if_pos hmark, hpos, hmarker, ok_bind]
    refine ends_decoded mf h'.calm (hresult.trans ha.clean) hfinished fun hok => ?_
    rw [hmark]
    exact decodes_mark h' hs hhist hpath hok
  · rw [if_neg hmark, ok_bind]
    have hplain := decodes_plain hended hs hhist
    rw [← Bool.eq_false_iff.2 hmark] at hplain
    exact ends_decoded mf hended.calm ha.clean rfl hplain

/-- For every build and all decisions that cover the input, the encoder reaches its flush. It
reports success exactly if no write of the run was refused and the match finder has not failed,
and what was written without a refusal is read back as the input, with the mark when one is
asked for. -/
theorem encode_decodes (build : SlotBuild) (prop : LzmaProps) (src : List UInt8)
    (ds : List Decision) (hc : src ≠ [] → Covers src prop.dictSize 1 ⟨1, 1, 1, 1⟩ ds)
    (mf : FinderStatus) (fails : ℕ → Bool) (mark : Bool) :
    ∃ e, encode build src ds mf (init fails prop mark) = .ok e ∧ e.finished = true ∧
      (e.result = .ok () ↔ e.rc.res = .ok () ∧ mf.mtFailed = false ∧ mf.failed = false) ∧
      (e.rc.res = .ok () ↔ ∀ n < e.out.calls, fails n = false) ∧
      (e.rc.res = .ok () → Decodes prop mark src e.out.bytes) := by
  obtain ⟨e, s, os, w, hencode, ha, hm, hspells, hend, hmark⟩ :=
    encode_spells build mf fails mark hc
  rw [show (init fails prop mark).litLen = e.litLen from ha.litLen.symm] at hspells
  rw [hencode, ← hmark]
  exact flush_decodes mf hm ha hspells hend

end

/-- A literal, a match that runs into itself, its distance again, and a literal; every write is
taken, and success is reported. -/
theorem encode_decodes_nine : ∃ e, encode .table [97, 98, 97, 98, 97, 98, 97, 98, 99]
      [⟨1, markLit⟩, ⟨4, 5⟩, ⟨2, 0⟩, ⟨1, markLit⟩] ⟨false, false⟩
      (init (fun _ => false) tinyProps true) = .ok e ∧ e.result = .ok () ∧
      Decodes tinyProps true [97, 98, 97, 98, 97, 98, 97, 98, 99] e.out.bytes := by
  obtain ⟨e, hencode, -, hresult, htaken, hdecodes⟩ := encode_decodes .table tinyProps
    [97, 98, 97, 98, 97, 98, 97, 98, 99] [⟨1, markLit⟩, ⟨4, 5⟩, ⟨2, 0⟩, ⟨1, markLit⟩]
    (fun _ => by decide) ⟨false, false⟩ (fun _ => false) true
  have hok := htaken.2 fun _ _ => rfl
  exact ⟨e, hencode, hresult.2 ⟨hok, rfl, rfl⟩, hdecodes hok⟩

end LzmaEnc
end LzmaTurbo.Enc
