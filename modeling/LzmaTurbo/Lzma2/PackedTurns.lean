import LzmaTurbo.Lzma2.Turns

/-!
# Turns inside a packed chunk

What a call of the LZMA decoder does to the chunk's two size counters, and what
the grammar makes of each way such a call can end.
-/
namespace LzmaTurbo.Lzma2
open Machine Lzma StreamMachine Window
open RangeDecoder (Coder)

/-- The rest of `packedTurn`, with the subtractions done. -/
def packedNext (d : Lzma2Decoder) (n : ℕ) (r : DicResult) : Turn2 :=
  match r.res with
  | .error e => .stop { d := { d with decoder := r.p }, status := r.status, res := .error e }
  | .ok k =>
      let packSize := d.frame.packSize - k
      let unpackSize := d.frame.unpackSize - (r.p.dicPos - d.decoder.dicPos)
      let d' : Lzma2Decoder := { frame := { d.frame with packSize, unpackSize }, decoder := r.p }
      if r.status = .needsMoreInput then
        if packSize = 0 then .stop (corrupt d')
        else .stop { d := d', status := .needsMoreInput, res := .ok (n + k) }
      else if k = 0 ∧ r.p.dicPos - d.decoder.dicPos = 0 then
        if r.status ≠ .maybeFinishedWithoutMark ∨ unpackSize ≠ 0 ∨ packSize ≠ 0 then
          .stop (corrupt d')
        else .again { d' with frame := { d'.frame with state := .control } } (n + k)
      else .again d' (n + k)

section
variable {d : Lzma2Decoder} {pos : Pos} {held out src temp w input : List UInt8} {c : Config}
  {r : DicResult} {dicLimit n : ℕ} {mode : FinishMode} {X : List UInt8}

theorem packedTurn_eq (hs : d.frame.state = .dataCont) (hu : d.frame.unpackSize < 2 ^ 32)
    {inCur outCur : ℕ} {cur : FinishMode}
    (hslice : slice src n (n + if d.frame.packSize < inCur then d.frame.packSize else inCur) =
      .ok input) (hlen : input.length ≤ d.frame.packSize) (hp : d.frame.packSize < 2 ^ 32)
    (ho : outCur ≤ d.frame.unpackSize)
    (hr : lzmaDecDecodeToDic d.decoder (d.decoder.dicPos + outCur) input cur = .ok r)
    (hres : (∃ k ≤ input.length, r.res = .ok k) ∨ r.res = .error .corruptData)
    (hf : DicFrame d.decoder (d.decoder.dicPos + outCur) r.p) :
    packedTurn d src n inCur outCur cur = .ok (packedNext d n r) := by
  have hge := hf.pos_ge
  have hle := hf.pos_le
  unfold packedTurn packedNext
  simp only [if_neg (show ¬ d.frame.state = .data by rw [hs]; decide), hslice, hr, ok_bind]
  rcases hres with ⟨k, hk, hres⟩ | hres
  · have hk32 : u32 k = k := Nat.mod_eq_of_lt (by omega)
    have ho32 : u32 (r.p.dicPos - d.decoder.dicPos) = r.p.dicPos - d.decoder.dicPos :=
      Nat.mod_eq_of_lt (by omega)
    simp only [hres, hk32, ok_bind, sub_ok hge, ho32, sub_ok (show k ≤ d.frame.packSize by omega),
      sub_ok (show r.p.dicPos - d.decoder.dicPos ≤ d.frame.unpackSize by omega)]
    split
    · split <;> rfl
    · split
      · split <;> rfl
      · rfl
  · simp only [hres]

theorem Within.header {prop : LzmaProps} {top : ℕ} {X Z : List UInt8} {s : RefState}
    (h : Within prop top c X (.header s) Z) : c = .header s ∧ X = Z := by
  generalize hc : Config.header s = c' at h
  induction h with
  | refl => exact ⟨rfl, rfl⟩
  | @step c c₁ c₂ X Y Z _ hs _ ih =>
      obtain ⟨h₁, -⟩ := ih hc
      rw [h₁, ← hc] at hs
      cases c with
      | header s' =>
          obtain ⟨b1, b2, b3, b4, -, he⟩ := Config.step_header hs
          cases he
      | body s' => exact absurd hs (s'.step_ne_header s)

/-- The bytes a call of the LZMA decoder wrote, in the dictionary. -/
theorem dic_wrote {p q : LzmaDec} {limit : ℕ} {new : List UInt8} (hf : DicFrame p limit q)
    (hq : q.dicPos ≤ q.dic.size) (h : slice q.dic.toList p.dicPos q.dicPos = .ok new) :
    q.dic.toList.take q.dicPos = p.dic.toList.take p.dicPos ++ new := by
  have hge := hf.pos_ge
  rw [slice_spec hge (by rw [Array.length_toList]; exact hq), Except.ok.injEq] at h
  have hkeep : q.dic.toList.take p.dicPos = p.dic.toList.take p.dicPos := by
    apply List.ext_getElem?
    intro i
    by_cases hi : i < p.dicPos
    · rw [List.getElem?_take_of_lt hi, List.getElem?_take_of_lt hi, Array.getElem?_toList,
        Array.getElem?_toList, hf.keeps.below i hi]
    · rw [List.getElem?_eq_none, List.getElem?_eq_none]
      · rw [List.length_take]
        omega
      · rw [List.length_take]
        omega
  rw [← h, ← hkeep]
  conv_lhs => rw [show q.dicPos = p.dicPos + (q.dicPos - p.dicPos) by omega, List.take_add]

/-- A call of the LZMA decoder from inside a packed chunk, on `input` and with room
for `outCur` bytes. -/
structure PackedCall (d : Lzma2Decoder) (c : Config) (temp w src : List UInt8) (n dicLimit : ℕ)
    (mode : FinishMode) (input : List UInt8) (outCur : ℕ) (cur : FinishMode) (r : DicResult) :
    Prop where
  probs : lzmaPropsGetNumProbs lzma2LclpMax 0 ≤ d.decoder.probs.size
  state : d.frame.state = .dataCont
  control : isUncompressedState d.frame.control = false
  need : d.frame.needInitLevel = 0
  unpack_lt : d.frame.unpackSize < 2 ^ 32
  pack_lt : d.frame.packSize < 2 ^ 32
  rest_eq : input ++ src.drop (n + input.length) = src.drop n
  input_le : n + input.length ≤ src.length
  pack_le : input.length ≤ d.frame.packSize
  all : input.length = d.frame.packSize ∨ n + input.length = src.length
  limit : d.decoder.dicPos + outCur ≤ dicLimit
  cur : outCur = d.frame.unpackSize ∧ cur = .endMark ∨
    outCur < d.frame.unpackSize ∧ cur = .any ∧ d.decoder.dicPos + outCur = dicLimit
  full : d.decoder.dicPos = dicLimit → mode = .endMark
  target : 0 < w.length + d.frame.unpackSize
  frame : DicFrame d.decoder (d.decoder.dicPos + outCur) r.p

section
variable {outCur : ℕ} {cur : FinishMode} (base : List UInt8)

/-- The decoder after a call that read `k` bytes. -/
def afterCall (d : Lzma2Decoder) (k : ℕ) (p : LzmaDec) : Lzma2Decoder where
  frame := { d.frame with
    packSize := d.frame.packSize - k
    unpackSize := d.frame.unpackSize - (p.dicPos - d.decoder.dicPos) }
  decoder := p

theorem PackedCall.outCur_le (h : PackedCall d c temp w src n dicLimit mode input outCur cur r) :
    outCur ≤ d.frame.unpackSize := by
  rcases h.cur with ⟨h, -⟩ | ⟨h, -⟩ <;> omega

/-- The position of the grammar a call begins at. -/
abbrev Lzma2Decoder.here (d : Lzma2Decoder) (c : Config) (temp w : List UInt8) : Pos :=
  .packed d.decoder.prop base c (w.length + d.frame.unpackSize) (temp.length + d.frame.packSize)

theorem header_lt (hhead : ∀ s, c = .header s → 0 < d.frame.unpackSize)
    (hw : d.decoder.At c temp w) (s : RefState) (hs : c = .header s) :
    s.hist.length < w.length + d.frame.unpackSize := by
  have hpos := hhead s hs
  subst hs
  cases hw
  omega

/-- What the LZMA decoder does is what the grammar does. -/
theorem PackedCall.moves (h : PackedCall d c temp w src n dicLimit mode input outCur cur r)
    (hhead : ∀ s, c = .header s → 0 < d.frame.unpackSize) (hw : d.decoder.At c temp w)
    {c' : Config} {Z : List UInt8}
    (hm : Within d.decoder.prop (w.length + outCur) c (temp ++ input) c' Z) :
    Moves2 (d.here base c temp w) (temp ++ src.drop n)
      (.packed d.decoder.prop base c' (w.length + d.frame.unpackSize)
        (Z.length + (d.frame.packSize - input.length))) (Z ++ src.drop (n + input.length)) ∨
    outCur = d.frame.unpackSize ∧ w.length + d.frame.unpackSize < c'.hist.length ∧
      ∃ pos' ys, Moves2 (d.here base c temp w) (temp ++ src.drop n) pos' ys ∧ Doomed pos' ys := by
  have hle := h.outCur_le
  have hpk := h.pack_le
  have hX : temp ++ input ++ src.drop (n + input.length) = temp ++ src.drop n := by
    rw [List.append_assoc, h.rest_eq]
  have hmv := Within.packed base (src.drop (n + input.length)) (d.frame.packSize - input.length)
    hm hw.ok (show w.length + outCur ≤ w.length + d.frame.unpackSize by omega)
    (header_lt hhead hw)
  rw [List.length_append, show temp.length + input.length + (d.frame.packSize - input.length) =
    temp.length + d.frame.packSize by omega, hX] at hmv
  exact hmv.imp_right fun ⟨htop, hrest⟩ => ⟨by omega, hrest⟩

/-- The output of a call that ends with `w'` written. -/
theorem PackedCall.new (h : PackedCall d c temp w src n dicLimit mode input outCur cur r)
    {w' : List UInt8} (hw : r.p.Window w') (hg : Grown d.decoder w r.p w') (hs : w <:+ w') :
    ∃ new, w' = new.reverse ++ w ∧ new.length = r.p.dicPos - d.decoder.dicPos ∧
      new.length ≤ outCur ∧ ∀ frame, Frame2 d dicLimit new ⟨frame, r.p⟩ := by
  have hge := h.frame.pos_ge
  have hle := h.frame.pos_le
  have hlim := h.limit
  obtain ⟨new, hnew, hlen, hslice⟩ := hw.slice hg hs hge
  refine ⟨new, hnew, hlen, by omega, fun frame => ⟨by rw [h.frame.prop], h.frame.dicBufSize,
    h.frame.probs,
    by show r.p.dicPos = _; omega, by show r.p.dicPos ≤ _; omega, ?_⟩⟩
  exact dic_wrote h.frame (hw.holds.pos_le.trans hw.holds.size_le) hslice

/-- Still inside the chunk. -/
theorem PackedCall.at2 (h : PackedCall d c temp w src n dicLimit mode input outCur cur r)
    {c' : Config} {temp' w' new : List UInt8} (hat : r.p.At c' temp' w')
    (hw : w' = new.reverse ++ w) (hlen : new.length = r.p.dicPos - d.decoder.dicPos)
    (hle : new.length ≤ outCur) (k : ℕ)
    (hhead : ∀ s, c' = .header s → new.length < d.frame.unpackSize) :
    (afterCall d k r.p).At2 (.packed d.decoder.prop base c' (w.length + d.frame.unpackSize)
      (temp'.length + (d.frame.packSize - k))) temp' (new.reverse ++ (w ++ base)) := by
  have ho := h.outCur_le
  have hu := h.unpack_lt
  have hp := h.pack_lt
  have hat2 := Lzma2Decoder.At2.packed (d := afterCall d k r.p) base hat
    (by rw [afterCall, h.frame.probs]; exact h.probs) h.state h.control h.need
    (by show d.frame.unpackSize - _ < _; omega) (by show d.frame.packSize - k < _; omega)
    (fun s hs => by
      have := hhead s hs
      change 0 < d.frame.unpackSize - (r.p.dicPos - d.decoder.dicPos)
      omega) (by
      have := h.target
      change 0 < w'.length + (d.frame.unpackSize - (r.p.dicPos - d.decoder.dicPos))
      rw [hw, List.length_append, List.length_reverse]
      omega)
  have htarget : w'.length + (afterCall d k r.p).frame.unpackSize =
      w.length + d.frame.unpackSize := by
    change w'.length + (d.frame.unpackSize - (r.p.dicPos - d.decoder.dicPos)) = _
    rw [hw, List.length_append, List.length_reverse]
    omega
  rw [htarget, hw, List.append_assoc] at hat2
  rw [← h.frame.prop]
  exact hat2

theorem PackedCall.rest (h : PackedCall d c temp w src n dicLimit mode input outCur cur r) {k : ℕ}
    (hk : k ≤ input.length) : input.drop k ++ src.drop (n + input.length) = src.drop (n + k) := by
  rw [← List.drop_append_of_le_length hk, h.rest_eq, List.drop_drop]

/-- The same with the bytes the call read. -/
theorem PackedCall.moves_read (h : PackedCall d c temp w src n dicLimit mode input outCur cur r)
    (hhead : ∀ s, c = .header s → 0 < d.frame.unpackSize) (hw : d.decoder.At c temp w)
    {c' : Config} {temp' : List UInt8} {k : ℕ} (hk : k ≤ input.length)
    (hm : Within d.decoder.prop (w.length + outCur) c (temp ++ input) c' (temp' ++ input.drop k)) :
    Moves2 (d.here base c temp w) (temp ++ src.drop n)
      (.packed d.decoder.prop base c' (w.length + d.frame.unpackSize)
        (temp'.length + (d.frame.packSize - k))) (temp' ++ src.drop (n + k)) ∨
    outCur = d.frame.unpackSize ∧ w.length + d.frame.unpackSize < c'.hist.length := by
  have hpk := h.pack_le
  refine (h.moves base hhead hw hm).imp (fun hmv => ?_) fun hc => ⟨hc.1, hc.2.1⟩
  rw [List.append_assoc, h.rest hk, List.length_append, List.length_drop,
    show temp'.length + (input.length - k) + (d.frame.packSize - input.length) =
      temp'.length + (d.frame.packSize - k) by omega] at hmv
  exact hmv

/-- Nothing is read or written although the call's own limit allows it. -/
theorem packed_past (h : PackedCall d c temp w src n dicLimit mode input outCur cur r)
    {new : List UInt8} {frame : Lzma2Frame} (hs : r.p.Shape)
    (hframe : Frame2 d dicLimit new ⟨frame, r.p⟩) (hn : new = [])
    (hat : d.decoder.dicPos = dicLimit) (hu : 0 < d.frame.unpackSize) :
    Turn2End d (d.here base c temp w) temp (w ++ base) src n dicLimit mode
      (.stop (corrupt ⟨frame, r.p⟩)) := by
  refine .stop _ (corrupt_end _ hframe hs fun _ => .past _ _ rfl (h.full hat) ?_ (.refl _ _) ?_)
  · have hpos := hframe.pos
    rw [hn, List.length_nil, Nat.add_zero, hat] at hpos
    exact hpos
  · rw [hn]
    simp only [Pos.dueWith, Pos.due, List.reverse_nil, List.nil_append,
      List.length_append]
    omega

theorem exact_short {prop : LzmaProps} {c' : Config} {target pack : ℕ}
    (h : out.length < target + base.length) :
    Exact (.packed prop base c' target pack) held out := by
  intro prop' base' c₁ target' pack' he hlen
  obtain ⟨-, rfl, -, rfl, -⟩ : _ ∧ base = base' ∧ _ ∧ target = target' ∧ _ := by simpa using he
  omega

theorem exact_body {prop : LzmaProps} {s : RefState} {target pack : ℕ}
    (h : out.length = target + base.length → held = [] ∨ s.coder.code ≠ 0) :
    Exact (.packed prop base (.body s) target pack) held out := by
  intro prop' base' c₁ target' pack' he hlen
  obtain ⟨-, rfl, rfl, rfl, -⟩ : _ ∧ base = base' ∧ .body s = c₁ ∧ target = target' ∧ _ := by
    simpa using he
  exact ⟨s, rfl, h hlen⟩

/-- The call stopped at its limit, which is not the chunk's end. -/
theorem packed_notFinished (h : PackedCall d c temp w src n dicLimit mode input outCur cur r)
    (hhead : ∀ s, c = .header s → 0 < d.frame.unpackSize) (hw : d.decoder.At c temp w)
    {c' : Config} {temp' w' : List UInt8} {k : ℕ} (hres : r.res = .ok k) (hk : k ≤ input.length)
    (hst : r.status = .notFinished) (hany : cur = .any)
    (hm : Within d.decoder.prop (w.length + outCur) c (temp ++ input) c' (temp' ++ input.drop k))
    (hat : r.p.At c' temp' w') (hg : Grown d.decoder w r.p w')
    (hpos : r.p.dicPos = d.decoder.dicPos + outCur) :
    Turn2End d (d.here base c temp w) temp (w ++ base) src n dicLimit mode (packedNext d n r) := by
  have hin := h.input_le
  obtain ⟨hlt, -, hlim⟩ : outCur < d.frame.unpackSize ∧ _ :=
    h.cur.resolve_left fun hc => by rw [hany] at hc; cases hc.2
  have hsuf : w <:+ w' := by
    apply List.suffix_of_suffix_length_le (hw.written.trans (hm.moves.suffix hw.ok)) hat.written
    unfold Grown at hg
    omega
  obtain ⟨new, hnew, hlen, hle, hframe⟩ := h.new hat.window hg hsuf
  have hmoves := (h.moves_read base hhead hw hk hm).resolve_right fun hc => by omega
  unfold packedNext
  simp only [hres, if_neg (show r.status ≠ .needsMoreInput by rw [hst]; decide)]
  by_cases hidle : k = 0 ∧ r.p.dicPos - d.decoder.dicPos = 0
  · rw [if_pos hidle, if_pos (.inl (by rw [hst]; decide))]
    exact packed_past base h hat.shape (hframe _)
      (List.eq_nil_of_length_eq_zero (hlen.trans hidle.2)) (by omega) (by omega)
  · rw [if_neg hidle]
    refine .again (afterCall d k r.p) (n + k) new _ temp' (by omega) (hframe _)
      (h.at2 base hat hnew hlen hle k fun s _ => by omega) (fun _ => ⟨hmoves, exact_short base ?_⟩)
      (Nat.le_add_right _ _) ?_
    · simp only [List.length_append, List.length_reverse]
      omega
    · by_cases hk0 : k = 0
      · exact .inr (.inl (List.ne_nil_of_length_pos (by omega)))
      · exact .inl (by omega)

/-- Between two chunks the decoder keeps what the next may go on with. -/
theorem idle_of_body {p : LzmaDec} {s : RefState} {temp : List UInt8}
    (hat : p.At (.body s) temp s.hist) (hp : lzmaPropsGetNumProbs lzma2LclpMax 0 ≤ p.probs.size)
    (hne : 0 < s.hist.length) : Idle p ⟨p.prop, 0, base, s⟩ ∧ Kept p ⟨p.prop, 0, base, s⟩ := by
  cases hat with
  | body hcore hheld =>
      exact ⟨⟨hcore.toShape, hcore.toWindow, rfl, hp, .inl rfl⟩,
        ⟨hcore.owes.reps, hcore.owes.state, hcore.table, hcore.begun.toBase,
          List.ne_nil_of_length_pos hne⟩⟩

theorem held_nil_of_code {p q : LzmaDec} {s : RefState} {temp' : List UInt8}
    (hw : p.At (.body s) temp w) (hx : temp = [] ∨ s.coder.code ≠ 0)
    (h : temp' = [] ∨ p.tempBufSize ≠ 0 ∧ p.code = 0 ∧ q.dicPos = p.dicPos) : temp' = [] := by
  refine h.resolve_right fun ⟨hsize, hcode, _⟩ => ?_
  cases hw with
  | body hcore hheld =>
      have hlen := hheld.length hcore.toShape
      rcases hx with hx | hx
      · rw [hx, List.length_nil] at hlen
        omega
      · exact hx (hcore.code ▸ hcode)

/-- The call stopped at its limit with a zero code: the chunk may be at its end. -/
theorem packed_maybe (h : PackedCall d c temp w src n dicLimit mode input outCur cur r)
    (hhead : ∀ s, c = .header s → 0 < d.frame.unpackSize) (hw : d.decoder.At c temp w)
    {s : RefState} {temp' : List UInt8} {k : ℕ} (hres : r.res = .ok k) (hk : k ≤ input.length)
    (hst : r.status = .maybeFinishedWithoutMark)
    (hm : Within d.decoder.prop (w.length + outCur) c (temp ++ input) (.body s)
      (temp' ++ input.drop k))
    (hat : r.p.At (.body s) temp' s.hist) (hg : Grown d.decoder w r.p s.hist)
    (hpos : r.p.dicPos = d.decoder.dicPos + outCur) (hcode : s.coder.code = 0)
    (hheld : temp' = [] ∨ d.decoder.tempBufSize ≠ 0 ∧ d.decoder.code = 0 ∧
      r.p.dicPos = d.decoder.dicPos) :
    Turn2End d (d.here base c temp w) temp (w ++ base) src n dicLimit mode (packedNext d n r) := by
  have hin := h.input_le
  have hpk := h.pack_le
  have ho := h.outCur_le
  have htarget := h.target
  obtain ⟨new, hnew, hlen, hle, hframe⟩ := h.new hat.window hg
    (hw.written.trans (hm.moves.suffix hw.ok))
  have hhist : s.hist.length = w.length + new.length := by
    rw [hnew, List.length_append, List.length_reverse]
    omega
  have hmoves := (h.moves_read base hhead hw hk hm).resolve_right fun hc => by
    have : w.length + d.frame.unpackSize < s.hist.length := hc.2
    omega
  unfold packedNext
  simp only [hres, if_neg (show r.status ≠ .needsMoreInput by rw [hst]; decide)]
  by_cases hidle : k = 0 ∧ r.p.dicPos - d.decoder.dicPos = 0
  · rw [if_pos hidle]
    obtain ⟨hk0, hidle⟩ := hidle
    have hnil : new = [] := List.eq_nil_of_length_eq_zero (hlen.trans hidle)
    by_cases hu : d.frame.unpackSize = 0
    · by_cases hp : d.frame.packSize = 0
      · -- the chunk is closed
        rw [if_neg (by
          rintro (hc | hc | hc)
          · exact hc hst
          · omega
          · omega)]
        have hstop : (Config.hist (.body s)).length = w.length + d.frame.unpackSize := by
          change s.hist.length = _
          omega
        obtain ⟨hidle', hkept⟩ := idle_of_body base hat
          (by rw [h.frame.probs]; exact h.probs) (by omega)
        have hbit : d.bit = 1 := if_pos (.inr h.state)
        refine .again _ (n + k) new (.chunk ⟨r.p.prop, 0, base, s⟩) [] (by omega) (hframe _) ?_
          (fun hx => ⟨?_, exact_chunk⟩) (Nat.le_add_right _ _) (.inr (.inr ?_))
        · have hat2 : Lzma2Decoder.At2 ⟨{ d.frame with
              packSize := d.frame.packSize - k
              unpackSize := d.frame.unpackSize - (r.p.dicPos - d.decoder.dicPos)
              state := .control }, r.p⟩ _ _ _ := .header hidle' (fun _ => hkept)
            (.control rfl h.need (by show d.frame.unpackSize - _ = 0; omega))
          rw [hnil, List.reverse_nil, List.nil_append]
          have heq : s.hist = w := by rw [hnew, hnil]; rfl
          rw [← heq]
          exact hat2
        · obtain ⟨s₀, rfl, hx₀⟩ := hx _ _ _ _ _ rfl (by rw [List.length_append]; omega)
          obtain rfl := held_nil_of_code hw hx₀ hheld
          rw [List.length_nil, hp, Nat.zero_sub, List.nil_append] at hmoves
          rw [h.frame.prop]
          exact hmoves.trans (.single trivial (packedStep_end hstop hcode _))
        · rw [hbit]
          exact Nat.zero_lt_one
      · rw [if_pos (.inr (.inr (by omega)))]
        refine .stop _ (corrupt_end (afterCall d k r.p) (hframe _) hat.shape fun _ =>
          .corrupt _ _ rfl hmoves (.of_left ?_ (by omega)))
        change s.hist.length = _
        omega
    · have hfull : d.decoder.dicPos = dicLimit := by
        rcases h.cur with hc | hc <;> omega
      rw [if_pos (.inr (.inl (by omega)))]
      exact packed_past base h hat.shape (hframe _) hnil hfull (by omega)
  · rw [if_neg hidle]
    refine .again (afterCall d k r.p) (n + k) new _ temp' (by omega) (hframe _)
      (h.at2 base hat hnew hlen hle k fun s hs => by cases hs) (fun hx => ⟨hmoves,
        exact_body base fun hl => .inl ?_⟩) (Nat.le_add_right _ _) ?_
    · simp only [List.length_append, List.length_reverse] at hl
      refine hheld.resolve_right fun hc => ?_
      obtain ⟨s₀, rfl, hx₀⟩ := hx _ _ _ _ _ rfl (by rw [List.length_append]; omega)
      have hc' : ([0] : List UInt8) = [] ∨ d.decoder.tempBufSize ≠ 0 ∧ d.decoder.code = 0 ∧
          r.p.dicPos = d.decoder.dicPos := .inr hc
      cases held_nil_of_code hw hx₀ hc'
    · by_cases hk0 : k = 0
      · exact .inr (.inl (List.ne_nil_of_length_pos (by omega)))
      · exact .inl (by omega)

/-- After an end mark or an error nothing more comes of the chunk. -/
theorem PackedCall.lost (h : PackedCall d c temp w src n dicLimit mode input outCur cur r)
    (hdead : r.p.Dead) (k : ℕ) {pos : Pos} (hd : Doomed pos held) (ho : out <:+ pos.out) :
    (afterCall d k r.p).At2 pos held out := by
  have hu := h.unpack_lt
  have hp := h.pack_lt
  exact .lost hdead h.state h.control (by show d.frame.unpackSize - _ < _; omega)
    (by show d.frame.packSize - k < _; omega) hd ho

/-- Once all output is written an end mark does not follow a zero code. -/
theorem code_of_mark {prop : LzmaProps} {s s' : RefState} {ys rest : List UInt8} (hs : s.Ok prop)
    (h : s.step prop ys = .mark s' rest) : s.coder.code ≠ 0 := fun hc => by
  rcases RefState.step_code_zero hs hc ys with hm | ⟨s₁, zs, hm⟩
  · rw [h] at hm
    cases hm
  · rw [h] at hm
    cases hm

/-- The call read an end mark, which a packed chunk must not have. -/
theorem packed_mark (h : PackedCall d c temp w src n dicLimit mode input outCur cur r)
    (hhead : ∀ s, c = .header s → 0 < d.frame.unpackSize) (hw : d.decoder.At c temp w)
    {s s' : RefState} {ys : List UInt8} {k : ℕ} {e : Coder ℕ} (hres : r.res = .ok k)
    (hk : k ≤ input.length) (hst : r.status = .finishedWithMark)
    (hm : Within d.decoder.prop (w.length + outCur) c (temp ++ input) (.body s) ys)
    (hs : s.step d.decoder.prop ys = .mark s' (input.drop k)) (hmk : r.p.Marked s e)
    (hg : Grown d.decoder w r.p s.hist) :
    Turn2End d (d.here base c temp w) temp (w ++ base) src n dicLimit mode (packedNext d n r) := by
  have hin := h.input_le
  have hpk := h.pack_le
  have ho := h.outCur_le
  obtain ⟨us, rfl, hus⟩ := RefState.step_mark_split hs
  obtain ⟨new, hnew, hlen, hle, hframe⟩ := h.new hmk.toWindow hg
    (hw.written.trans (hm.moves.suffix hw.ok))
  have hhist : s.hist.length = w.length + new.length := by
    rw [hnew, List.length_append, List.length_reverse]
    omega
  have hok : s.Ok d.decoder.prop := hm.moves.ok hw.ok
  have hcode := code_of_mark hok hs
  have hmoves := (h.moves_read base hhead hw hk hm).resolve_right fun hc => by
    have : w.length + d.frame.unpackSize < s.hist.length := hc.2
    omega
  have hdoom : Doomed (.packed d.decoder.prop base (.body s) (w.length + d.frame.unpackSize)
      (us.length + (d.frame.packSize - k))) us := by
    by_cases hlt : s.hist.length < w.length + d.frame.unpackSize
    · have hus' : (Config.body s).step d.decoder.prop us = .mark s' [] := hus
      exact .of_symbol hlt (Nat.le_add_right _ _) (by rw [hus']; simp)
        fun c' zs => by rw [hus']; simp
    · exact .of_code (by omega) hcode
  unfold packedNext
  simp only [hres, if_neg (show r.status ≠ .needsMoreInput by rw [hst]; decide)]
  by_cases hidle : k = 0 ∧ r.p.dicPos - d.decoder.dicPos = 0
  · rw [if_pos hidle, if_pos (.inl (by rw [hst]; decide))]
    exact .stop _ (corrupt_end (afterCall d k r.p) (hframe _) hmk.toShape fun _ =>
      .corrupt _ _ rfl hmoves (hdoom.append _))
  · rw [if_neg hidle]
    refine .again (afterCall d k r.p) (n + k) new _ us (by omega) (hframe _)
      (h.lost (.marked hmk) k hdoom ?_) (fun _ => ⟨hmoves, exact_body base fun _ => .inr hcode⟩)
      (Nat.le_add_right _ _) ?_
    · have hlast : (Config.hist (.body s)).length ≤ w.length + d.frame.unpackSize := by
        change s.hist.length ≤ _
        omega
      rw [packed_out hlast, Config.hist, hnew, List.append_assoc]
    · by_cases hk0 : k = 0
      · exact .inr (.inl (List.ne_nil_of_length_pos (by omega)))
      · exact .inl (by omega)

/-- A call that fails leaves the chunk's counters as they were. -/
theorem packed_error (h : PackedCall d c temp w src n dicLimit mode input outCur cur r)
    {new : List UInt8} (hframe : Frame2 d dicLimit new ⟨d.frame, r.p⟩)
    (hsound : r.p.Dead ∨ ∃ c' temp' w', r.p.At c' temp' w' ∧
      (∀ s, c' = .header s → 0 < d.frame.unpackSize) ∧ w.length ≤ w'.length)
    (hend : ∀ r', r'.res = .error .corruptData → r'.d = ⟨d.frame, r.p⟩ →
      Exact pos temp out → Call2End pos out X src dicLimit mode new r') :
    Dic2End d pos temp out X src dicLimit mode
      { d := { d with decoder := r.p }, status := r.status, res := .error .corruptData } := by
  refine ⟨new, hframe, ?_, .inr rfl, hend _ rfl rfl⟩
  rcases hsound with hdead | ⟨c', temp', w', hat, hhead, hle⟩
  · obtain ⟨pos', hd⟩ := exists_doomed d.decoder.prop []
    exact ⟨pos', [], [], .lost hdead h.state h.control h.unpack_lt h.pack_lt hd List.nil_suffix⟩
  · have htarget := h.target
    exact ⟨_, _, _, .packed [] hat (by rw [h.frame.probs]; exact h.probs) h.state h.control h.need
      h.unpack_lt h.pack_lt hhead (by show 0 < w'.length + d.frame.unpackSize; omega)⟩

/-- The call rejected a symbol or the start of the range coder. -/
theorem packed_reject (h : PackedCall d c temp w src n dicLimit mode input outCur cur r)
    (hhead : ∀ s, c = .header s → 0 < d.frame.unpackSize) (hw : d.decoder.At c temp w)
    {c' : Config} {ys : List UInt8} (hres : r.res = .error .corruptData)
    (hm : Within d.decoder.prop (w.length + outCur) c (temp ++ input) c' ys)
    (hs : c'.step d.decoder.prop ys = .reject)
    (hdead : r.p.Dead ∨ ∃ s temp, c = .header s ∧ r.p.At (.header s) temp s.hist)
    (hwin : r.p.Window c'.hist) (hg : Grown d.decoder w r.p c'.hist) :
    Turn2End d (d.here base c temp w) temp (w ++ base) src n dicLimit mode (packedNext d n r) := by
  have ho := h.outCur_le
  have hok : c'.Ok d.decoder.prop := hm.moves.ok hw.ok
  obtain ⟨new, hnew, hlen, hle, hframe⟩ := h.new hwin hg
    (hw.written.trans (hm.moves.suffix hw.ok))
  have hhist : c'.hist.length = w.length + new.length := by
    rw [hnew, List.length_append, List.length_reverse]
    omega
  have hmoves := (h.moves base hhead hw hm).resolve_right fun hc => by omega
  have hdoom : Doomed (.packed d.decoder.prop base c' (w.length + d.frame.unpackSize)
      (ys.length + (d.frame.packSize - input.length))) ys := by
    by_cases hlt : c'.hist.length < w.length + d.frame.unpackSize
    · exact .of_symbol hlt (Nat.le_add_right _ _) (by rw [hs]; simp)
        fun c' zs => by rw [hs]; simp
    · cases hc' : c' with
      | header s =>
          subst hc'
          obtain ⟨rfl, -⟩ := Within.header hm
          exact absurd (header_lt hhead hw s rfl) hlt
      | body s =>
          subst hc'
          have hl : s.hist.length = w.length + new.length := hhist
          have hge : ¬ s.hist.length < w.length + d.frame.unpackSize := hlt
          refine .of_code (by omega) fun hc => ?_
          rcases RefState.step_code_zero hok hc ys with hx | ⟨s₁, zs, hx⟩
          · exact absurd (hs.symm.trans hx) (by simp)
          · exact absurd (hs.symm.trans hx) (by simp)
  unfold packedNext
  simp only [hres]
  refine .stop _ (packed_error h (hframe _) (hdead.imp_right ?_) fun r' hr' _ _ =>
    .corrupt _ _ hr' hmoves (hdoom.append _))
  rintro ⟨s, temp', rfl, hat⟩
  refine ⟨_, _, _, hat, fun s' hs' => hhead s rfl, ?_⟩
  cases hw
  exact le_rfl

/-- The call went past the end of the chunk's output. -/
theorem packed_long (h : PackedCall d c temp w src n dicLimit mode input outCur cur r)
    (hhead : ∀ s, c = .header s → 0 < d.frame.unpackSize) (hw : d.decoder.At c temp w)
    {s : RefState} {temp' rest w' : List UInt8} (hres : r.res = .error .corruptData)
    (hend : cur = .endMark)
    (hm : Within d.decoder.prop (w.length + outCur) c (temp ++ input) (.body s) (temp' ++ rest))
    (hat : r.p.At (.body s) temp' w') (hg : Grown d.decoder w r.p w')
    (hpos : r.p.dicPos = d.decoder.dicPos + outCur)
    (hgo : w' ≠ s.hist ∨ s.coder.code ≠ 0) :
    Turn2End d (d.here base c temp w) temp (w ++ base) src n dicLimit mode (packedNext d n r) := by
  obtain ⟨ho, -⟩ : outCur = d.frame.unpackSize ∧ _ :=
    h.cur.resolve_right fun hc => by rw [hend] at hc; cases hc.2.1
  have hlen' : w'.length = w.length + d.frame.unpackSize := by
    unfold Grown at hg
    omega
  have hsuf : w <:+ w' :=
    List.suffix_of_suffix_length_le (hw.written.trans (hm.moves.suffix hw.ok)) hat.written (by omega)
  obtain ⟨new, hnew, hlen, hle, hframe⟩ := h.new hat.window hg hsuf
  have hdoom : ∀ pack ys, Doomed (.packed d.decoder.prop base (.body s)
      (w.length + d.frame.unpackSize) pack) ys := by
    intro pack ys
    have hwr : w' <:+ s.hist := hat.written
    have hle := hwr.length_le
    by_cases hl : w.length + d.frame.unpackSize < s.hist.length
    · exact .of_long hl
    · have heq : w' = s.hist := hwr.eq_of_length (by omega)
      exact .of_code (by omega) (hgo.resolve_left fun hne => hne heq)
  unfold packedNext
  simp only [hres]
  refine .stop _ (packed_error h (hframe _) (.inr ⟨_, _, _, hat, fun s hs => (by cases hs),
    by omega⟩) fun r' hr' _ _ => ?_)
  rcases h.moves base hhead hw hm with hmoves | ⟨-, -, pos', ys, hmoves, hd⟩
  · exact .corrupt _ _ hr' hmoves (hdoom _ _)
  · exact .corrupt _ _ hr' hmoves hd

/-- The call used up its input. -/
theorem packed_more (h : PackedCall d c temp w src n dicLimit mode input outCur cur r)
    (hhead : ∀ s, c = .header s → 0 < d.frame.unpackSize) (hw : d.decoder.At c temp w)
    {c' : Config} {temp' : List UInt8} (hres : r.res = .ok input.length)
    (hst : r.status = .needsMoreInput)
    (hm : Within d.decoder.prop (w.length + outCur) c (temp ++ input) c' temp')
    (hat : r.p.At c' temp' c'.hist) (hg : Grown d.decoder w r.p c'.hist)
    (hs : c'.step d.decoder.prop temp' = .more)
    (hcode : ∀ s, c' = .body s → r.p.dicPos = d.decoder.dicPos + outCur → s.coder.code ≠ 0) :
    Turn2End d (d.here base c temp w) temp (w ++ base) src n dicLimit mode (packedNext d n r) := by
  have ho := h.outCur_le
  have hpk := h.pack_le
  have hge := h.frame.pos_ge
  obtain ⟨new, hnew, hlen, hle, hframe⟩ := h.new hat.window hg
    (hw.written.trans (hm.moves.suffix hw.ok))
  have hhist : c'.hist.length = w.length + new.length := by
    rw [hnew, List.length_append, List.length_reverse]
    omega
  have hmoves := (h.moves base hhead hw hm).resolve_right fun hc => by omega
  -- at the unpacked size the chunk could only go on with an end mark
  have hend : c'.hist.length = w.length + d.frame.unpackSize → ∃ s, c' = .body s ∧
      s.coder.code ≠ 0 := by
    intro hl
    cases hc' : c' with
    | body s => exact ⟨s, rfl, hcode s hc' (by omega)⟩
    | header s =>
        subst hc'
        obtain ⟨rfl, -⟩ := Within.header hm
        have := header_lt hhead hw s rfl
        exact absurd hl (ne_of_lt this)
  have hlate : c'.hist.length = w.length + d.frame.unpackSize → c'.coder.code ≠ 0 := by
    intro hl
    obtain ⟨s, rfl, hc⟩ := hend hl
    exact hc
  have hat2 := h.at2 base hat hnew hlen hle input.length (fun s hs => by
    subst hs
    obtain ⟨rfl, -⟩ := Within.header hm
    have := header_lt hhead hw s rfl
    rw [show s.hist.length = w.length + new.length from hhist] at this
    omega)
  unfold packedNext
  simp only [hres, if_pos hst]
  by_cases hK : d.frame.packSize - input.length = 0
  · rw [if_pos hK]
    refine .stop _ (corrupt_end (afterCall d input.length r.p) (hframe _) hat.shape fun _ =>
      .corrupt _ _ rfl hmoves ?_)
    exact (Doomed.of_short (by omega) hs (by omega) hlate).append _
  · rw [if_neg hK]
    have hall : n + input.length = src.length := h.all.resolve_left (by omega)
    have hnil : src.drop (n + input.length) = [] := List.drop_eq_nil_of_le hall.ge
    rw [hnil, List.append_nil] at hmoves
    refine .stop _ ⟨new, hframe _, ⟨_, _, _, hat2⟩, .inl ⟨_, hall.le, rfl⟩, fun _ =>
      .more _ temp' (by rw [hall]) rfl hmoves hat2 ?_ ?_
        (packedStep_more (by omega) hs (by omega))⟩
    · intro prop base' c₁ target pack he hlen'
      obtain ⟨-, rfl, rfl, rfl, -⟩ : _ ∧ base = base' ∧ c' = c₁ ∧
        w.length + d.frame.unpackSize = target ∧ _ := by simpa using he
      simp only [List.length_append, List.length_reverse] at hlen'
      obtain ⟨s, hs', hc⟩ := hend (by omega)
      exact ⟨s, hs', .inr hc⟩
    · rw [packed_out (by omega), hnew, List.append_assoc]

/-- Every way a call of the LZMA decoder can end. -/
theorem packed_end (h : PackedCall d c temp w src n dicLimit mode input outCur cur r)
    (hhead : ∀ s, c = .header s → 0 < d.frame.unpackSize) (hw : d.decoder.At c temp w)
    (hend : DicEnd d.decoder w c (temp ++ input) input (w.length + outCur)
      (d.decoder.dicPos + outCur) cur r) :
    Turn2End d (d.here base c temp w) temp (w ++ base) src n dicLimit mode (packedNext d n r) := by
  cases hend with
  | more c' temp' hres hst hm hat hg hs hcode =>
      exact packed_more base h hhead hw hres hst hm hat hg hs hcode
  | notFinished k c' temp' w' hres hk hst hany hm hat hg hpos =>
      exact packed_notFinished base h hhead hw hres hk hst hany hm hat hg hpos
  | maybe k s temp' hres hk hst hm hat hg hpos hcode hheld =>
      exact packed_maybe base h hhead hw hres hk hst hm hat hg hpos hcode hheld
  | mark k s s' ys e hres hk hst hm hs hmk hc hg =>
      exact packed_mark base h hhead hw hres hk hst hm hs hmk hg
  | reject c' ys hres hm hs hdead hwin hg =>
      exact packed_reject base h hhead hw hres hm hs hdead hwin hg
  | past s temp' rest w' hres hcur hst hm hat hg hpos hgo =>
      exact packed_long base h hhead hw hres hcur hm hat hg hpos (hgo.imp_right And.left)

end
end
end LzmaTurbo.Lzma2
